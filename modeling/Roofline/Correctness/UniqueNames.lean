import Roofline.Client.Output
import Roofline.Library.Numerals
import Mathlib.Data.List.Nodup

/-! The names in the output file. A repeated label gets its execution number appended,
and nothing prevents that name from being a label itself. -/
namespace Roofline.Correctness
open Client Library

/-- The name of the occurrence of a label after t earlier ones. -/
def nameOf (label : String) : ℕ → String
  | 0 => label
  | t + 1 => label ++ toString (t + 1)

private theorem nameOf_pos (label : String) {t : ℕ} (ht : 0 < t) : nameOf label t = label ++ toString t := by
  cases t with
  | zero => omega
  | succ t => rfl

private theorem nameOf_inj (label : String) {s t : ℕ} (h : nameOf label s = nameOf label t) : s = t := by
  cases s with
  | zero =>
    cases t with
    | zero => rfl
    | succ t => exact absurd h.symm (append_numeral_ne label (t + 1))
  | succ s =>
    cases t with
    | zero => exact absurd h (append_numeral_ne label (s + 1))
    | succ t => exact (numeral_inj label).mp h

/-- Different labels share a name only if one of them is the other with a numeral. -/
theorem nameOf_collision {f g : String} {s t : ℕ} (hne : f ≠ g) (h : nameOf f s = nameOf g t) :
    (∃ k, 0 < k ∧ k ≤ s ∧ f ++ toString k = g) ∨ ∃ k, 0 < k ∧ k ≤ t ∧ g ++ toString k = f := by
  cases s with
  | zero =>
    cases t with
    | zero => exact absurd h hne
    | succ t => exact .inr ⟨t + 1, t.succ_pos, le_rfl, h.symm⟩
  | succ s =>
    cases t with
    | zero => exact .inl ⟨s + 1, s.succ_pos, le_rfl, h⟩
    | succ t => exact numeral_collision s.succ_pos t.succ_pos hne h

section lists
variable {α : Type} [DecidableEq α]

/-- The number of earlier occurrences tells the occurrences of one entry apart. -/
theorem count_take_inj {xs : List α} {x : α} {i j : ℕ} (hi : xs[i]? = some x) (hj : xs[j]? = some x)
    (h : (xs.take i).count x = (xs.take j).count x) : i = j := by
  have hlt {i j : ℕ} (hi : xs[i]? = some x) (hij : i < j) :
      (xs.take i).count x < (xs.take j).count x := by
    have hmono : (xs.take (i + 1)).count x ≤ (xs.take j).count x :=
      List.Sublist.count_le x (List.take_sublist_take_left hij)
    rw [List.take_add_one, hi, List.count_append] at hmono
    simp at hmono
    omega
  rcases lt_trichotomy i j with hij | hij | hij
  · have := hlt hi hij
    omega
  · exact hij
  · have := hlt hj hij
    omega

/-- An entry occurs with every number of earlier occurrences below its count. -/
theorem exists_occurrence {xs : List α} {x : α} {m : ℕ} (h : m < xs.count x) :
    ∃ i, xs[i]? = some x ∧ (xs.take i).count x = m := by
  induction xs using List.reverseRecOn with
  | nil => simp at h
  | append_singleton xs y ih =>
    rcases Nat.lt_or_ge m (xs.count x) with hm | hm
    · obtain ⟨i, hi, hc⟩ := ih hm
      have hlt := (List.getElem?_eq_some_iff.mp hi).1
      exact ⟨i, by rw [List.getElem?_append_left hlt, hi], by rw [List.take_append_of_le_length hlt.le, hc]⟩
    · rw [List.count_append, List.count_singleton] at h
      have hy : y = x := by
        by_contra hne
        simp [hne] at h
        omega
      subst hy
      refine ⟨xs.length, List.getElem?_concat_length, ?_⟩
      rw [List.take_append_of_le_length le_rfl, List.take_length]
      simp at h
      omega

theorem count_take_lt {xs : List α} {x : α} {i : ℕ} (hi : xs[i]? = some x) :
    (xs.take i).count x < xs.count x := by
  have hmono : (xs.take (i + 1)).count x ≤ xs.count x := List.Sublist.count_le x (List.take_sublist _ _)
  rw [List.take_add_one, hi, List.count_append] at hmono
  simp at hmono
  omega

end lists

variable {τ : Type}

def counted (seen : List String) : ExecutionCount :=
  fun label => if seen.count label = 0 then none else some (seen.count label)

private theorem counted_snoc (seen : List String) (label : String) :
    counted (seen ++ [label]) = Function.update (counted seen) label (some (seen.count label + 1)) := by
  funext l
  by_cases h : l = label
  · subst h
    simp [counted]
  · have h' : label ≠ l := fun he => h he.symm
    simp [counted, Function.update_of_ne h, h']

/-- Each point is written under the name of its occurrence. -/
theorem namePoints_counted (seen : List String) (ps : List (Point τ)) (i : ℕ) :
    (namePoints (counted seen) ps)[i]? = ps[i]?.map fun p =>
      (p, nameOf p.label ((seen ++ (ps.take i).map (·.label)).count p.label)) := by
  induction ps generalizing seen i with
  | nil => rfl
  | cons p ps ih =>
    have hstep : namePoints (counted seen) (p :: ps) =
        (p, nameOf p.label (seen.count p.label)) :: namePoints (counted (seen ++ [p.label])) ps := by
      rw [namePoints, counted_snoc]
      cases hc : seen.count p.label with
      | zero => simp [counted, hc, nameOf]
      | succ t => simp [counted, hc, nameOf]
    rw [hstep]
    cases i with
    | zero => simp
    | succ i => simp [ih]

theorem outputNames_getElem (ps : List (Point τ)) (i : ℕ) :
    (outputNames ps)[i]? = ps[i]?.map fun p =>
      (p, nameOf p.label (((ps.map (·.label)).take i).count p.label)) := by
  have hnil : counted [] = fun _ => none := by
    funext l
    simp [counted]
  rw [outputNames, ← hnil, namePoints_counted, List.nil_append, List.map_take]

/-- The int counters of a list of fewer than 2^31 points are the occurrences so far. -/
theorem namePointsInt_counted (seen : List String) (ps : List (Point τ))
    (hlen : seen.length + ps.length < 2 ^ 31) :
    namePointsInt (fun l => (counted seen l).map Int32.ofNat) ps = namePoints (counted seen) ps := by
  induction ps generalizing seen with
  | nil => rfl
  | cons p ps ih =>
    have hle : seen.count p.label ≤ seen.length := List.count_le_length
    have hupdate : Function.update (fun l => (counted seen l).map Int32.ofNat) p.label
        (some (Int32.ofNat (seen.count p.label + 1))) =
          fun l => (counted (seen ++ [p.label]) l).map Int32.ofNat := by
      funext l
      rw [counted_snoc]
      by_cases hl : l = p.label
      · subst hl
        simp
      · simp [Function.update_of_ne hl]
    have ih := ih (seen ++ [p.label]) (by simp at hlen ⊢; omega)
    rw [← hupdate, counted_snoc] at ih
    rw [namePointsInt, namePoints]
    by_cases hc : seen.count p.label = 0
    · simp only [counted, hc, if_true, Option.map_none, zero_add] at ih ⊢
      exact congrArg _ ih
    · have hint := Int32.toInt_ofNat_of_lt (n := seen.count p.label) (by simp at hlen ⊢; omega)
      simp only [counted, hc, if_false, Option.map_some, hint] at ih ⊢
      rw [Int32.ofNat_add] at ih
      exact congrArg _ ih

private theorem namePointsInt_eq (ps : List (Point τ)) (hlen : ps.length < 2 ^ 31) :
    namePointsInt (fun _ => none) ps = outputNames ps := by
  have hnil : counted [] = fun _ => none := by
    funext l
    simp [counted]
  have hcounted := namePointsInt_counted [] ps (by simpa using hlen)
  rw [hnil] at hcounted
  exact hcounted

/-- The names in terms of the labels alone. -/
theorem names_getElem (ps : List (Point τ)) (i : ℕ) :
    ((outputNames ps).map Prod.snd)[i]? = (ps.map (·.label))[i]?.map fun l =>
      nameOf l (((ps.map (·.label)).take i).count l) := by
  rw [List.getElem?_map, outputNames_getElem, List.getElem?_map, Option.map_map, Option.map_map]
  rfl

/-- Generated names collide with labels, never first with each other. -/
theorem names_nodup_of_free (ps : List (Point τ))
    (hfree : ∀ l ∈ ps.map (·.label), ∀ m, 0 < m → m < (ps.map (·.label)).count l →
      l ++ toString m ∉ ps.map (·.label)) :
    ((outputNames ps).map Prod.snd).Nodup := by
  have hname := names_getElem ps
  generalize ps.map (·.label) = ls at *
  generalize (outputNames ps).map Prod.snd = ns at *
  rw [List.nodup_iff_getElem?_ne_getElem?]
  intro i j hij hj heq
  rw [List.getElem?_eq_getElem (hij.trans hj), List.getElem?_eq_getElem hj] at heq
  obtain ⟨f, hf, hfi⟩ :=
    Option.map_eq_some_iff.mp ((hname i).symm.trans (List.getElem?_eq_getElem (hij.trans hj)))
  obtain ⟨g, hg, hgj⟩ :=
    Option.map_eq_some_iff.mp ((hname j).symm.trans (List.getElem?_eq_getElem hj))
  have heq := (hfi.trans (Option.some.inj heq)).trans hgj.symm
  have hclash {f g : String} {i j k : ℕ} (hf : ls[i]? = some f) (hg : ls[j]? = some g) (hk : 0 < k)
      (hle : k ≤ (ls.take i).count f) (hname : f ++ toString k = g) : False := by
    have hlt := count_take_lt hf
    apply hfree f (List.mem_of_getElem? hf) k hk (by omega)
    rw [hname]
    exact List.mem_of_getElem? hg
  by_cases hfg : f = g
  · subst hfg
    have := count_take_inj hf hg (nameOf_inj f heq)
    omega
  · rcases nameOf_collision hfg heq with ⟨k, hk, hle, hname⟩ | ⟨k, hk, hle, hname⟩
    · exact hclash hf hg hk hle hname
    · exact hclash hg hf hk hle hname

/-- Where the names are unique, no label is another one with a numeral that this one reaches. -/
theorem free_of_names_nodup (ps : List (Point τ)) (hnodup : ((outputNames ps).map Prod.snd).Nodup) :
    ∀ l ∈ ps.map (·.label), ∀ m, 0 < m → m < (ps.map (·.label)).count l → l ++ toString m ∉ ps.map (·.label) := by
  have hname := names_getElem ps
  generalize ps.map (·.label) = ls at *
  generalize (outputNames ps).map Prod.snd = ns at *
  intro l hl m hm hlt hmem
  -- the occurrence of l after m others, and the first one of the label it collides with
  obtain ⟨i, hi, hci⟩ := exists_occurrence hlt
  obtain ⟨j, hj, hcj⟩ := exists_occurrence (m := 0) (List.count_pos_iff.mpr hmem)
  have hni : ns[i]? = some (l ++ toString m) := by
    rw [hname, hi, Option.map_some, hci, nameOf_pos l hm]
  have hnj : ns[j]? = some (l ++ toString m) := by rw [hname, hj, Option.map_some, hcj, nameOf]
  obtain rfl : i = j :=
    (List.getElem?_inj (List.getElem?_eq_some_iff.mp hni).1 hnodup).mp (hni.trans hnj.symm)
  exact append_numeral_ne l m (Option.some.inj (hj.symm.trans hi))

/-- The names are unique exactly if no label is another one with a numeral that this one
reaches; with the int counters of the source, as long as these cannot overflow. -/
theorem outputNames_nodup_iff (ps : List (Point τ)) :
    (((outputNames ps).map Prod.snd).Nodup ↔ ∀ l ∈ ps.map (·.label), ∀ m, 0 < m →
      m < (ps.map (·.label)).count l → l ++ toString m ∉ ps.map (·.label)) ∧
    (ps.length < 2 ^ 31 →
      (((namePointsInt (fun _ => none) ps).map Prod.snd).Nodup ↔ ∀ l ∈ ps.map (·.label), ∀ m, 0 < m →
        m < (ps.map (·.label)).count l → l ++ toString m ∉ ps.map (·.label))) := by
  have hiff : ((outputNames ps).map Prod.snd).Nodup ↔ ∀ l ∈ ps.map (·.label), ∀ m, 0 < m →
      m < (ps.map (·.label)).count l → l ++ toString m ∉ ps.map (·.label) :=
    ⟨free_of_names_nodup ps, names_nodup_of_free ps⟩
  refine ⟨hiff, fun hlen => ?_⟩
  rw [namePointsInt_eq ps hlen]
  exact hiff

def labelled (label : String) : Point ℕ := Point.new.setLabel label

/-- The label b1 is no name of the one point that is labelled b. -/
theorem outputNames_nodup_iff_a_a_b_b1 :
    ((namePointsInt (fun _ => none)
      [labelled "a", labelled "a", labelled "b", labelled "b1"]).map Prod.snd).Nodup := by
  refine ((outputNames_nodup_iff [labelled "a", labelled "a", labelled "b", labelled "b1"]).2 (by decide)).mpr ?_
  have hcounts : ∀ l ∈ [labelled "a", labelled "a", labelled "b", labelled "b1"].map (·.label),
      ∀ m < ([labelled "a", labelled "a", labelled "b", labelled "b1"].map (·.label)).count l, 0 < m →
        l ++ toString m ∉ [labelled "a", labelled "a", labelled "b", labelled "b1"].map (·.label) := by decide
  intro l hl m hm hlt
  exact hcounts l hl m hlt hm

/-- The second "a" is written under the name of the third point. -/
theorem outputNames_a_a_a1 :
    ¬ ((outputNames [labelled "a", labelled "a", labelled "a1"]).map Prod.snd).Nodup ∧
      ¬ ((namePointsInt (fun _ => none) [labelled "a", labelled "a", labelled "a1"]).map Prod.snd).Nodup := by
  decide

/-- The name of point i: its label, with the number of earlier points of that label if
there are any. -/
def exactName (ps : List (Point τ)) (i : ℕ) (p : Point τ) : String :=
  if (ps.take i).countP (fun q => q.label = p.label) = 0 then p.label
  else p.label ++ toString ((ps.take i).countP fun q => q.label = p.label)

private theorem exactName_eq (ps : List (Point τ)) (i : ℕ) (p : Point τ) :
    exactName ps i p = nameOf p.label (((ps.map (·.label)).take i).count p.label) := by
  have hcount :
      ((ps.map (·.label)).take i).count p.label = (ps.take i).countP fun q => q.label = p.label := by
    rw [← List.map_take, List.count, List.countP_map]
    rfl
  rw [exactName, hcount]
  split_ifs with h
  · rw [h, nameOf]
  · rw [nameOf_pos _ (Nat.pos_of_ne_zero h)]

private theorem outputNames_eq (ps : List (Point τ)) :
    outputNames ps = ps.zipIdx.map fun q => (q.1, exactName ps q.2 q.1) := by
  apply List.ext_getElem?
  intro i
  rw [outputNames_getElem, List.getElem?_map, List.getElem?_zipIdx, Option.map_map]
  simp [Function.comp_def, exactName_eq]

/-- Repeated labels are renamed exactly, one call of dump_info for each point, and the
names are unique if no label is another one with a positive numeral. -/
theorem exact_renaming [Sub τ] (opts : Options) (fmtF : τ → String) (ps : List (Point τ))
    (hlen : ps.length < 2 ^ 31) :
    namePointsInt (fun _ => none) ps = (ps.zipIdx.map fun q => (q.1, exactName ps q.2 q.1)) ∧
      saveToFile opts fmtF ps =
        String.join (ps.zipIdx.map fun q => q.1.dumpInfo opts fmtF (exactName ps q.2 q.1)) ∧
      ((∀ l ∈ ps.map (·.label), ∀ l' ∈ ps.map (·.label), ∀ m : ℕ, 0 < m → l ≠ l' ++ toString m) →
        ((namePointsInt (fun _ => none) ps).map Prod.snd).Nodup) := by
  rw [namePointsInt_eq ps hlen]
  refine ⟨outputNames_eq ps, ?_, ?_⟩
  · rw [saveToFile, outputNames_eq, List.map_map]
    rfl
  · intro hfree
    apply names_nodup_of_free
    intro l hl m hm _ hmem
    exact hfree _ hmem l hl m hm rfl

theorem exact_renaming_a_b_a :
    ((namePointsInt (fun _ => none) [labelled "a", labelled "b", labelled "a"]).map Prod.snd).Nodup := by
  apply (exact_renaming {} (fun t : ℕ => toString t) _ (by decide)).2.2
  intro l hl l' hl' m _ heq
  have hone : ∀ l ∈ [labelled "a", labelled "b", labelled "a"].map (·.label), l.length = 1 := by decide
  have hlength := congrArg String.length heq
  rw [String.length_append, hone l hl, hone l' hl'] at hlength
  have hempty : toString m = "" := String.length_eq_zero_iff.mp (by omega)
  exact append_numeral_ne "" m (by rw [hempty]; rfl)

end Roofline.Correctness
