import Mathlib.Data.List.Induction
import Mathlib.Logic.Function.Basic

/-! Keyed stores under two kinds of writes: a put replaces what a key holds, and an offer
only fills a key that holds nothing. -/
namespace Roofline.Library

inductive Write (K V : Type) where
  | put (key : K) (value : V)
  | offer (key : K) (value : V)
  deriving DecidableEq, Repr

namespace Write
variable {K V : Type}

def key : Write K V → K
  | put k _ => k
  | offer k _ => k

def value : Write K V → V
  | put _ v => v
  | offer _ v => v

variable [DecidableEq K]

def apply (s : K → Option V) : Write K V → K → Option V
  | put k v => fun x => if x = k then some v else s x
  | offer k v => fun x => if x = k then (s x).or (some v) else s x

def lastPut (x : K) (ws : List (Write K V)) : Option V :=
  ws.reverse.findSome? fun
    | put k v => if k = x then some v else none
    | offer _ _ => none

def firstOffer (x : K) (ws : List (Write K V)) : Option V :=
  ws.findSome? fun
    | offer k v => if k = x then some v else none
    | put _ _ => none

/-- A write changes its own key only. -/
theorem apply_of_ne (s : K → Option V) {w : Write K V} {x : K} (h : x ≠ w.key) : w.apply s x = s x := by
  cases w with
  | put k v => exact if_neg h
  | offer k v => exact if_neg h

/-- Writes to other keys leave a key alone. -/
theorem foldl_apply_of_ne (ws : List (Write K V)) (s : K → Option V) {x : K} (h : ∀ w ∈ ws, x ≠ w.key) :
    ws.foldl apply s x = s x := by
  induction ws generalizing s with
  | nil => rfl
  | cons w ws ih =>
    rw [List.forall_mem_cons] at h
    rw [List.foldl_cons, ih _ h.2, apply_of_ne s h.1]

private theorem apply_congr {s t : K → Option V} (w : Write K V) {x : K} (h : s x = t x) :
    w.apply s x = w.apply t x := by
  cases w <;> simp only [apply, h]

theorem foldl_apply_congr {s t : K → Option V} (ws : List (Write K V)) {x : K} (h : s x = t x) :
    ws.foldl apply s x = ws.foldl apply t x := by
  induction ws generalizing s t with
  | nil => exact h
  | cons w ws ih =>
    apply ih
    exact apply_congr w h

/-- A key holds the last value put there, else what it held before, else the first offer. -/
theorem foldl_apply (ws : List (Write K V)) (s : K → Option V) (x : K) :
    ws.foldl apply s x = ((lastPut x ws).or (s x)).or (firstOffer x ws) := by
  induction ws using List.reverseRecOn with
  | nil => simp [lastPut, firstOffer]
  | append_singleton ws w ih =>
    rw [List.foldl_append, List.foldl_cons, List.foldl_nil]
    cases w with
    | put k v =>
      by_cases hk : x = k
      · subst hk
        simp [apply, lastPut]
      · have hne : k ≠ x := fun h => hk h.symm
        simp only [apply, hk, if_false, ih]
        simp [lastPut, firstOffer, hne]
    | offer k v =>
      by_cases hk : x = k
      · subst hk
        simp only [apply, if_true, ih]
        simp [lastPut, firstOffer, List.findSome?_append, Option.or_assoc]
      · have hne : k ≠ x := fun h => hk h.symm
        simp only [apply, hk, if_false, ih]
        simp [lastPut, firstOffer, List.findSome?_append, hne]

section holds
variable {P : V → Prop} {s : K → Option V} {k : K}

/-- A key that holds a value with a property. -/
def Holds (P : V → Prop) (s : K → Option V) (k : K) : Prop := ∃ v, s k = some v ∧ P v

theorem Holds.apply (h : Holds P s k) {w : Write K V} (hw : P w.value) : Holds P (w.apply s) k := by
  obtain ⟨v, hv, hP⟩ := h
  by_cases hk : k = w.key
  · cases w with
    | put k' v' => exact ⟨v', if_pos hk, hw⟩
    | offer k' v' =>
      refine ⟨v, ?_, hP⟩
      show (if k = k' then (s k).or (some v') else s k) = some v
      rw [hv, Option.some_or, ite_self]
  · exact ⟨v, (apply_of_ne s hk).trans hv, hP⟩

theorem Holds.foldl (h : Holds P s k) {ws : List (Write K V)} (hws : ∀ w ∈ ws, P w.value) :
    Holds P (ws.foldl Write.apply s) k := by
  induction ws generalizing s with
  | nil => exact h
  | cons w ws ih =>
    rw [List.forall_mem_cons] at hws
    exact ih (h.apply hws.1) hws.2

theorem holds_of_put {ws : List (Write K V)} (hws : ∀ w ∈ ws, P w.value) {v : V} (h : put k v ∈ ws)
    (s : K → Option V) : Holds P (ws.foldl Write.apply s) k := by
  obtain ⟨before, after, rfl⟩ := List.append_of_mem h
  rw [List.foldl_append, List.foldl_cons]
  have hput : Holds P ((put k v).apply (before.foldl Write.apply s)) k := ⟨v, if_pos rfl, hws _ h⟩
  exact hput.foldl fun w hw => hws w (List.mem_append_right _ (List.mem_cons_of_mem _ hw))

end holds
end Write

section listed
variable {K V : Type} {s : K → Option V} {entries : List (K × V)}

/-- A store that holds these entries, and nothing else. -/
def Lists (s : K → Option V) (entries : List (K × V)) : Prop := ∀ k v, s k = some v ↔ (k, v) ∈ entries

theorem lists_nil (h : ∀ k, s k = none) : Lists s [] := by
  intro k v
  rw [h]
  simp

private theorem Lists.eq_none (h : Lists s entries) {k : K} : s k = none ↔ k ∉ entries.map Prod.fst := by
  rw [Option.eq_none_iff_forall_ne_some, List.mem_map, not_exists]
  constructor
  · rintro hnone ⟨_, v⟩ ⟨hmem, rfl⟩
    exact hnone v ((h _ v).mpr hmem)
  · intro hnone v hv
    exact hnone (k, v) ⟨(h k v).mp hv, rfl⟩

variable [DecidableEq K]

/-- One more entry, under a key of its own. -/
theorem Lists.update (h : Lists s entries) {k : K} (hk : k ∉ entries.map Prod.fst) (v : V) :
    Lists (Function.update s k (some v)) (entries ++ [(k, v)]) := by
  intro k' v'
  rw [List.mem_append, List.mem_singleton, Prod.mk.injEq, Function.update_apply, ← h k' v']
  by_cases hsame : k' = k
  · subst hsame
    have hnone : s k' = none := h.eq_none.mpr hk
    rw [if_pos rfl, hnone, Option.some.injEq]
    simp [eq_comm]
  · rw [if_neg hsame]
    simp [hsame]

/-- Several more entries, one after the other. -/
theorem Lists.updates (h : Lists s entries) {more : List (K × V)} (hmore : ∀ e ∈ more, e.1 ∉ entries.map Prod.fst)
    (hnodup : (more.map Prod.fst).Nodup) :
    Lists (more.foldl (fun s e => Function.update s e.1 (some e.2)) s) (entries ++ more) := by
  induction more generalizing s entries with
  | nil =>
    rw [List.append_nil]
    exact h
  | cons e more ih =>
    rw [List.forall_mem_cons] at hmore
    rw [List.map_cons, List.nodup_cons] at hnodup
    rw [List.foldl_cons, List.append_cons]
    refine ih (h.update hmore.1 e.2) (fun e' he' => ?_) hnodup.2
    rw [List.map_append, List.mem_append, not_or, List.map_singleton, List.mem_singleton]
    refine ⟨hmore.2 e' he', fun hsame => hnodup.1 ?_⟩
    rw [← hsame]
    exact List.mem_map_of_mem he'

/-- Nothing is removed under a key that has no entry. -/
theorem Lists.remove (h : Lists s entries) {k : K} (hk : k ∉ entries.map Prod.fst) :
    Function.update s k none = s := by
  rw [Function.update_eq_self_iff]
  exact (h.eq_none.mpr hk).symm

end listed
end Roofline.Library
