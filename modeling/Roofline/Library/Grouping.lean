import Mathlib.Data.List.Nodup
import Mathlib.Data.List.Induction

/-! Values that are collected under their keys. The keys stand in the order in which they came in first,
and the values of a key in the order in which they came in. -/
namespace Roofline.Library
variable {K V : Type}

/-- A list of values for each key. -/
abbrev Groups (K V : Type) := List (K × List V)

section group
variable [DecidableEq K]

/-- One more value, at the end of the list of its key, or under a new key. -/
def Groups.add (k : K) (v : V) : Groups K V → Groups K V
  | [] => [(k, [v])]
  | (k', vs) :: groups => if k' = k then (k', vs ++ [v]) :: groups else (k', vs) :: Groups.add k v groups

def Groups.collect (ps : List (K × V)) : Groups K V := ps.foldl (fun groups p => groups.add p.1 p.2) []

def valuesOf (k : K) (ps : List (K × V)) : List V := (ps.filter fun p => p.1 = k).map Prod.snd

private theorem valuesOf_append (k : K) (ps qs : List (K × V)) :
    valuesOf k (ps ++ qs) = valuesOf k ps ++ valuesOf k qs := by
  rw [valuesOf, List.filter_append, List.map_append]
  rfl

private theorem valuesOf_eq_nil {k : K} {ps : List (K × V)} : valuesOf k ps = [] ↔ k ∉ ps.map Prod.fst := by
  rw [valuesOf, List.map_eq_nil_iff, List.filter_eq_nil_iff, List.mem_map, not_exists]
  simp only [decide_eq_true_eq, not_and]

/-- One more value of a key that is there. -/
theorem Groups.add_map_of_mem {ks : List K} (hks : ks.Nodup) (f : K → List V) {k : K} (hk : k ∈ ks) (v : V) :
    Groups.add k v (ks.map fun k' => (k', f k')) = ks.map fun k' => (k', if k' = k then f k' ++ [v] else f k') := by
  induction ks with
  | nil => cases hk
  | cons k' ks ih =>
    obtain ⟨hk', hks⟩ := List.nodup_cons.mp hks
    rw [List.map_cons, List.map_cons, Groups.add]
    by_cases hsame : k' = k
    · subst hsame
      rw [if_pos rfl, if_pos rfl, List.map_congr_left]
      intro j hj
      rw [if_neg]
      rintro rfl
      exact hk' hj
    · have hrest : k ∈ ks := (List.mem_cons.mp hk).resolve_left fun h => hsame h.symm
      rw [if_neg hsame, if_neg hsame, ih hks hrest]

private theorem Groups.add_of_notMem {k : K} (v : V) {groups : Groups K V} (hk : k ∉ groups.map Prod.fst) :
    groups.add k v = groups ++ [(k, [v])] := by
  induction groups with
  | nil => rfl
  | cons group groups ih =>
    rw [List.map_cons, List.mem_cons, not_or] at hk
    rw [Groups.add, if_neg fun h => hk.1 h.symm, ih hk.2, List.cons_append]

private theorem eraseDups_snoc_of_mem {k : K} {ks : List K} (hk : k ∈ ks) : (ks ++ [k]).eraseDups = ks.eraseDups := by
  have hold : [k].removeAll ks = [] := by simp [List.removeAll, hk]
  rw [List.eraseDups_append, hold, List.eraseDups_nil, List.append_nil]

private theorem eraseDups_snoc_of_notMem {k : K} {ks : List K} (hk : k ∉ ks) :
    (ks ++ [k]).eraseDups = ks.eraseDups ++ [k] := by
  have hnew : [k].removeAll ks = [k] := by simp [List.removeAll, hk]
  rw [List.eraseDups_append, hnew]
  rfl

private theorem nodup_eraseDups (ks : List K) : ks.eraseDups.Nodup := by
  induction ks using List.reverseRecOn with
  | nil => exact List.nodup_nil
  | append_singleton ks k ih =>
    by_cases hk : k ∈ ks
    · rw [eraseDups_snoc_of_mem hk]
      exact ih
    · rw [eraseDups_snoc_of_notMem hk, List.nodup_append_comm]
      exact List.nodup_cons.mpr ⟨fun h => hk (List.mem_eraseDups.mp h), ih⟩

private theorem eraseDups_of_nodup {ks : List K} (h : ks.Nodup) : ks.eraseDups = ks := by
  induction ks using List.reverseRecOn with
  | nil => rfl
  | append_singleton ks k ih =>
    have hcons : (k :: ks).Nodup := List.nodup_append_comm.mp h
    obtain ⟨hk, hks⟩ := List.nodup_cons.mp hcons
    rw [eraseDups_snoc_of_notMem hk, ih hks]

private theorem valuesOf_snoc (k k' : K) (v : V) (ps : List (K × V)) :
    valuesOf k' (ps ++ [(k, v)]) = if k' = k then valuesOf k' ps ++ [v] else valuesOf k' ps := by
  rw [valuesOf_append]
  split_ifs with h
  · simp [valuesOf, h]
  · have hne : k ≠ k' := fun hk => h hk.symm
    simp [valuesOf, hne]

/-- The groups of a list: each key once, where it came in first, with all its values. -/
theorem Groups.collect_eq (ps : List (K × V)) :
    Groups.collect ps = (ps.map Prod.fst).eraseDups.map fun k => (k, valuesOf k ps) := by
  induction ps using List.reverseRecOn with
  | nil => rfl
  | append_singleton ps p ih =>
    obtain ⟨k, v⟩ := p
    have hstep : Groups.collect (ps ++ [(k, v)]) = Groups.add k v (Groups.collect ps) := by
      rw [Groups.collect, List.foldl_append]
      rfl
    have hmap : (ps ++ [(k, v)]).map Prod.fst = ps.map Prod.fst ++ [k] := List.map_append
    rw [hstep, ih, hmap]
    simp only [valuesOf_snoc]
    by_cases hk : k ∈ ps.map Prod.fst
    · rw [Groups.add_map_of_mem (nodup_eraseDups _) _ (List.mem_eraseDups.mpr hk), eraseDups_snoc_of_mem hk]
    · have hkeys : ((ps.map Prod.fst).eraseDups.map fun k => (k, valuesOf k ps)).map Prod.fst =
          (ps.map Prod.fst).eraseDups := by
        rw [List.map_map]
        exact List.map_id _
      rw [Groups.add_of_notMem, eraseDups_snoc_of_notMem hk, List.map_append, List.map_singleton, if_pos rfl,
        valuesOf_eq_nil.mpr hk]
      · congr 1
        apply List.map_congr_left
        intro k' hk'
        rw [if_neg]
        rintro rfl
        exact hk (List.mem_eraseDups.mp hk')
      · rw [hkeys, List.mem_eraseDups]
        exact hk

section blocks
variable {ι κ : Type} {name : κ → K} {positions : List κ}

/-- A key of its own has one value. -/
theorem valuesOf_map (h : (positions.map name).Nodup) (f : κ → V) {k : κ} (hk : k ∈ positions) :
    valuesOf (name k) (positions.map fun k => (name k, f k)) = [f k] := by
  induction positions with
  | nil => cases hk
  | cons k' positions ih =>
    obtain ⟨hk', hrest⟩ := List.nodup_cons.mp h
    have hcons : valuesOf (name k) ((k' :: positions).map fun k => (name k, f k)) =
        valuesOf (name k) [(name k', f k')] ++ valuesOf (name k) (positions.map fun k => (name k, f k)) :=
      valuesOf_append _ [_] _
    have hnames : (positions.map fun k => (name k, f k)).map Prod.fst = positions.map name := List.map_map
    rw [hcons]
    rcases List.mem_cons.mp hk with rfl | hk
    · have hnone : valuesOf (name k) (positions.map fun k => (name k, f k)) = [] := by
        rw [valuesOf_eq_nil, hnames]
        exact hk'
      rw [hnone]
      simp [valuesOf]
    · have hne : name k' ≠ name k := by
        intro hsame
        exact hk' (hsame ▸ List.mem_map_of_mem hk)
      rw [ih hrest hk, valuesOf_eq_nil.mpr (by simpa using hne.symm)]
      rfl

/-- The groups of several rounds with the same keys: each key has its value of each round. -/
theorem Groups.collect_rounds (h : (positions.map name).Nodup) (f : ι → κ → V) {rounds : List ι}
    (hrounds : rounds ≠ []) :
    Groups.collect (rounds.flatMap fun i => positions.map fun k => (name k, f i k)) =
      positions.map fun k => (name k, rounds.map fun i => f i k) := by
  have hvalues {k : κ} (hk : k ∈ positions) :
      valuesOf (name k) (rounds.flatMap fun i => positions.map fun k => (name k, f i k)) =
        rounds.map fun i => f i k := by
    clear hrounds
    induction rounds with
    | nil => rfl
    | cons i rounds ih => rw [List.flatMap_cons, valuesOf_append, valuesOf_map h (f i) hk, ih, List.map_cons]; rfl
  have hkeys : ((rounds.flatMap fun i => positions.map fun k => (name k, f i k)).map Prod.fst).eraseDups =
      positions.map name := by
    have hround (i : ι) : (positions.map fun k => (name k, f i k)).map Prod.fst = positions.map name := List.map_map
    obtain ⟨i, rounds, rfl⟩ := List.exists_cons_of_ne_nil hrounds
    have hold : ((rounds.flatMap fun i => positions.map fun k => (name k, f i k)).map Prod.fst).removeAll
        (positions.map name) = [] := by
      simp only [List.removeAll, List.filter_eq_nil_iff, List.map_flatMap, List.mem_flatMap, hround]
      rintro k ⟨-, -, hk⟩
      simp [hk]
    rw [List.flatMap_cons, List.map_append, hround, List.eraseDups_append, hold, List.eraseDups_nil, List.append_nil,
      eraseDups_of_nodup h]
  rw [Groups.collect_eq, hkeys, List.map_map]
  apply List.map_congr_left
  intro k hk
  rw [Function.comp_apply, hvalues hk]

end blocks
end group
end Roofline.Library
