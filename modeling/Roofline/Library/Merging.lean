import Roofline.Library.Windows
import Mathlib.Algebra.BigOperators.Group.List.Basic

/-! Merged ledgers. When every opening resumes one account instead of starting a new
one, that account holds the sum of what the separate accounts hold. -/
namespace Roofline.Library

def Window.merged : Window → Window
  | .stay => .stay
  | .opening => .resume
  | .closing => .pause
  | .resume => .resume
  | .pause => .pause

def Entry.merged {M : Type} (e : Entry M) : Entry M :=
  { e with before := e.before.merged, after := e.after.merged }

namespace Ledger
variable {M : Type} [AddCommMonoid M] {L K : Ledger M}

/-- K holds in one account what L holds in all of its accounts. -/
structure Merges (L K : Ledger M) : Prop where
  active : K.active = L.active
  deferred : K.deferred = L.deferred
  current : K.current = L.closed.sum + L.current
  closed : K.closed = []

theorem Merges.turn (h : Merges L K) (w : Window) (hw : w = .opening → L.current = 0) :
    Merges (L.turn w) (K.turn w.merged) := by
  obtain ⟨ha, hd, hc, hn⟩ := h
  cases w with
  | stay => exact ⟨ha, hd, hc, hn⟩
  | opening => exact ⟨rfl, hd, by simpa [Ledger.turn, Window.merged, hw rfl] using hc, hn⟩
  | closing => exact ⟨rfl, hd, by simpa [Ledger.turn, Window.merged] using hc, hn⟩
  | resume => exact ⟨rfl, hd, hc, hn⟩
  | pause => exact ⟨rfl, hd, hc, hn⟩

theorem Merges.settle (h : Merges L K) (p : Option M) : Merges (L.settle p) (K.settle p) := by
  obtain ⟨ha, hd, hc, hn⟩ := h
  cases p with
  | none => exact ⟨ha, hd, hc, hn⟩
  | some m =>
    refine ⟨ha, rfl, ?_, hn⟩
    simp only [Ledger.settle, ha, hd]
    split_ifs
    · rw [hc, add_assoc]
    · exact hc

theorem Merges.step (h : Merges L K) (e : Entry M) (he : Keeps L e) :
    Merges (L.step e) (K.step e.merged) := by
  obtain ⟨ha, hd, hc, hn⟩ := ((h.turn e.before he.1).settle e.post).turn e.after he.2
  exact ⟨ha, congrArg (· + e.defer) hd, hc, hn⟩

/-- Merging a run that drops nothing adds up its accounts. -/
theorem merges_run (es : List (Entry M)) (h : Along Keeps es) :
    Merges (run es) (run (es.map Entry.merged)) := by
  induction es using List.reverseRecOn with
  | nil => exact ⟨rfl, rfl, by simp [blank], rfl⟩
  | append_singleton es e ih =>
    obtain ⟨h, he⟩ := (along_snoc Keeps es e).mp h
    rw [List.map_append, List.map_singleton, run_snoc, run_snoc]
    exact (ih h).step e he

end Ledger
end Roofline.Library
