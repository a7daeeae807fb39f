import Mathlib.Data.List.Induction
import Mathlib.Order.Lattice

/-! The occupancy of a buffer that is written one entry at a time and flushed as a whole. -/
namespace Roofline.Library

inductive Access where
  | put
  | flush
  | skip
  deriving DecidableEq, Repr

namespace Access

def next (n : ℕ) : Access → ℕ
  | put => n + 1
  | flush => 0
  | skip => n

def level (n : ℕ) (as : List Access) : ℕ := as.foldl next n

/-- A buffer of the given capacity never has to hold more entries than that. -/
def Bounded (capacity n : ℕ) (as : List Access) : Prop := ∀ k, level n (as.take k) ≤ capacity

/-- One round: some entries, a flush with other accesses around it, and some more entries. -/
structure Round (before after : ℕ) (as : List Access) : Prop where
  split : ∃ first middle rest, as = List.replicate first put ++ middle ++ List.replicate rest put ∧
    first ≤ before ∧ rest ≤ after ∧ put ∉ middle ∧ flush ∈ middle

variable {capacity n m : ℕ} {as bs : List Access}

theorem level_append (n : ℕ) (as bs : List Access) : level n (as ++ bs) = level (level n as) bs :=
  List.foldl_append

@[simp] theorem level_puts (n m : ℕ) : level n (List.replicate m put) = n + m := by
  induction m generalizing n with
  | zero => rfl
  | succ m ih =>
    rw [List.replicate_succ, level, List.foldl_cons, ← level, ih, next]
    omega

private theorem bounded_append :
    Bounded capacity n (as ++ bs) ↔ Bounded capacity n as ∧ Bounded capacity (level n as) bs := by
  constructor
  · intro h
    constructor
    · intro k
      have hk := h (min k as.length)
      rwa [List.take_append_of_le_length (min_le_right _ _), ← List.take_eq_take_min] at hk
    · intro k
      have hk := h (as.length + k)
      rwa [List.take_length_add_append, level_append] at hk
  · rintro ⟨ha, hb⟩ k
    rcases Nat.le_total k as.length with hk | hk
    · rw [List.take_append_of_le_length hk]
      exact ha k
    · obtain ⟨i, rfl⟩ := Nat.exists_eq_add_of_le hk
      rw [List.take_length_add_append, level_append]
      exact hb i

private theorem bounded_puts (h : n + m ≤ capacity) : Bounded capacity n (List.replicate m put) := by
  intro k
  rw [List.take_replicate, level_puts]
  omega

private theorem level_le_of_no_put (h : put ∉ as) : level n as ≤ n := by
  induction as generalizing n with
  | nil => exact le_rfl
  | cons a as ih =>
    rw [List.mem_cons, not_or] at h
    have hnext : next n a ≤ n := by
      cases a with
      | put => exact absurd rfl h.1
      | flush => exact Nat.zero_le n
      | skip => exact le_rfl
    exact (ih h.2).trans hnext

private theorem level_eq_zero (hput : put ∉ as) (hflush : flush ∈ as) : level n as = 0 := by
  obtain ⟨xs, ys, rfl⟩ := List.append_of_mem hflush
  have hys : put ∉ ys := fun h => hput (by simp [h])
  have hle : level 0 ys ≤ 0 := level_le_of_no_put hys
  rw [level_append, level, List.foldl_cons, next, ← level]
  omega

private theorem bounded_of_no_put (h : put ∉ as) (hn : n ≤ capacity) : Bounded capacity n as := by
  intro k
  exact (level_le_of_no_put fun hk => h (List.mem_of_mem_take hk)).trans hn

/-- A round keeps within the capacity if its first entries fit behind those of the round before. -/
theorem Round.bounded {before after : ℕ} (h : Round before after as) (hn : n ≤ after)
    (hcapacity : after + before ≤ capacity) :
    Bounded capacity n as ∧ level n as ≤ after := by
  obtain ⟨first, middle, rest, rfl, hfirst, hrest, hput, hflush⟩ := h.split
  have hzero : level (n + first) middle = 0 := level_eq_zero hput hflush
  simp only [bounded_append, level_append, level_puts, hzero]
  refine ⟨⟨⟨?_, ?_⟩, ?_⟩, by omega⟩
  · exact bounded_puts (by omega)
  · exact bounded_of_no_put hput (by omega)
  · exact bounded_puts (by omega)

/-- Any number of rounds keeps within the capacity. -/
theorem bounded_rounds {before after : ℕ} (hcapacity : after + before ≤ capacity)
    (rounds : List (List Access)) (h : ∀ as ∈ rounds, Round before after as) :
    Bounded capacity 0 rounds.flatten ∧ level 0 rounds.flatten ≤ after := by
  induction rounds using List.reverseRecOn with
  | nil =>
    refine ⟨?_, Nat.zero_le after⟩
    intro k
    simp [level]
  | append_singleton rounds as ih =>
    obtain ⟨hbounded, hlevel⟩ := ih fun bs hbs => h bs (by simp [hbs])
    obtain ⟨hlast, hend⟩ := (h as (by simp)).bounded hlevel hcapacity
    rw [List.flatten_append, List.flatten_singleton, bounded_append, level_append]
    exact ⟨⟨hbounded, hlast⟩, hend⟩

end Access
end Roofline.Library
