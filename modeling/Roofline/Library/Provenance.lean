import Roofline.Library.Ledger
import Mathlib.Algebra.Group.Hom.Defs
import Mathlib.Algebra.Group.Submonoid.Defs

/-! Ledgers under additive maps. A ledger over tags shows where the amounts of the same
ledger over numbers come from, and a ledger over tuples runs several ledgers side by side:
a relation between their amounts that addition keeps holds of every account. -/
namespace Roofline.Library
variable {M N : Type} [AddCommMonoid M] [AddCommMonoid N]

def Entry.map (f : M →+ N) (e : Entry M) : Entry N := ⟨e.before, e.post.map f, e.after, f e.defer⟩

namespace Ledger

def map (f : M →+ N) (L : Ledger M) : Ledger N := ⟨L.active, f L.deferred, f L.current, L.closed.map f⟩

private theorem map_turn (f : M →+ N) (L : Ledger M) (w : Window) : (L.turn w).map f = (L.map f).turn w := by
  cases w <;> simp [turn, map]

private theorem map_settle (f : M →+ N) (L : Ledger M) (p : Option M) :
    (L.settle p).map f = (L.map f).settle (p.map f) := by
  cases p with
  | none => rfl
  | some m => cases ha : L.active <;> simp [settle, map, ha]

private theorem map_step (f : M →+ N) (L : Ledger M) (e : Entry M) :
    (L.step e).map f = (L.map f).step (e.map f) := by
  have hp (L : Ledger M) (m : M) : (L.postpone m).map f = (L.map f).postpone (f m) := by
    simp [postpone, map]
  rw [step, hp, map_turn, map_settle, map_turn]
  rfl

/-- Mapping the amounts commutes with running the ledger. -/
theorem map_run (f : M →+ N) (es : List (Entry M)) : (run es).map f = run (es.map (Entry.map f)) := by
  induction es using List.reverseRecOn with
  | nil => simp [map, blank]
  | append_singleton es e ih => rw [List.map_append, List.map_singleton, run_snoc, run_snoc, map_step, ih]

theorem map_book (f : M →+ N) (L : Ledger M) (j : ℕ) : (L.map f).book j = f (L.book j) := by
  have h : (L.map f).closed ++ [(L.map f).current] = (L.closed ++ [L.current]).map f := by simp [map]
  rw [book, h, List.getElem?_map, book]
  cases (L.closed ++ [L.current])[j]? <;> simp

end Ledger

/-- The amounts of an entry belong to a submonoid. -/
structure Entry.AmountsIn (S : AddSubmonoid M) (e : Entry M) : Prop where
  post : ∀ m, e.post = some m → m ∈ S
  defer : e.defer ∈ S

namespace Ledger
variable {S : AddSubmonoid M}

/-- All amounts of a ledger belong to a submonoid. -/
structure AmountsIn (S : AddSubmonoid M) (L : Ledger M) : Prop where
  deferred : L.deferred ∈ S
  current : L.current ∈ S
  closed : ∀ m ∈ L.closed, m ∈ S

theorem AmountsIn.turn {L : Ledger M} (h : L.AmountsIn S) (w : Window) : (L.turn w).AmountsIn S := by
  cases w with
  | stay => exact h
  | opening => exact ⟨h.deferred, S.zero_mem, h.closed⟩
  | resume => exact ⟨h.deferred, h.current, h.closed⟩
  | pause => exact ⟨h.deferred, h.current, h.closed⟩
  | closing =>
    refine ⟨h.deferred, S.zero_mem, ?_⟩
    intro m hm
    rcases List.mem_append.mp hm with hm | hm
    · exact h.closed m hm
    · rw [List.mem_singleton.mp hm]
      exact h.current

theorem AmountsIn.settle {L : Ledger M} (h : L.AmountsIn S) {p : Option M} (hp : ∀ m, p = some m → m ∈ S) :
    (L.settle p).AmountsIn S := by
  cases p with
  | none => exact h
  | some m =>
    refine ⟨S.zero_mem, ?_, h.closed⟩
    simp only [Ledger.settle]
    split_ifs
    · exact S.add_mem h.current (S.add_mem (hp m rfl) h.deferred)
    · exact h.current

theorem AmountsIn.step {L : Ledger M} (h : L.AmountsIn S) {e : Entry M} (he : e.AmountsIn S) :
    (L.step e).AmountsIn S := by
  have hturned := ((h.turn e.before).settle he.post).turn e.after
  exact ⟨S.add_mem hturned.deferred he.defer, hturned.current, hturned.closed⟩

private theorem amountsIn_run (es : List (Entry M)) (h : ∀ e ∈ es, e.AmountsIn S) : (run es).AmountsIn S := by
  induction es using List.reverseRecOn with
  | nil => exact ⟨S.zero_mem, S.zero_mem, by simp [blank]⟩
  | append_singleton es e ih =>
    rw [run_snoc]
    exact (ih fun e he => h e (by simp [he])).step (h e (by simp))

/-- Every account belongs to the submonoid that all entries belong to. -/
theorem book_mem (es : List (Entry M)) (h : ∀ e ∈ es, e.AmountsIn S) (j : ℕ) : (run es).book j ∈ S := by
  have hrun := amountsIn_run es h
  rw [book]
  cases hm : ((run es).closed ++ [(run es).current])[j]? with
  | none => exact S.zero_mem
  | some m =>
    rcases List.mem_append.mp (List.mem_of_getElem? hm) with hm | hm
    · exact hrun.closed m hm
    · rw [Option.getD_some, List.mem_singleton.mp hm]
      exact hrun.current

end Ledger
end Roofline.Library
