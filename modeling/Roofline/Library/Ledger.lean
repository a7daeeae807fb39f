import Mathlib.Algebra.BigOperators.Group.Finset.Basic
import Mathlib.Algebra.BigOperators.Group.Finset.Piecewise

/-! Ledgers with deferred postings. An amount is entered either at once or at the
next posting, and a posting counts only while the current account is open. -/
namespace Roofline.Library

/-- The elements of a list that has grown at its end. -/
theorem getElem?_snoc_eq_some {α : Type} {l : List α} {a b : α} {n : ℕ} :
    (l ++ [a])[n]? = some b ↔ l[n]? = some b ∨ n = l.length ∧ a = b := by
  rcases lt_trichotomy n l.length with hn | rfl | hn
  · simp [List.getElem?_append_left hn, hn.ne]
  · simp
  · have hout : (l ++ [a])[n]? = none := List.getElem?_eq_none (by simp; omega)
    simp [hout, List.getElem?_eq_none hn.le, hn.ne']

/-- Changes of the current account. Only an opening discards what it holds. -/
inductive Window where
  | stay
  | opening
  | closing
  | resume
  | pause
  deriving DecidableEq, Repr

/-- One step of a ledger: a change of window, an optional posting, a second change
of window, and an amount deferred to the next posting. -/
structure Entry (M : Type) where
  before : Window
  post : Option M
  after : Window
  defer : M

structure Ledger (M : Type) where
  active : Bool
  deferred : M
  current : M
  closed : List M

variable {M : Type} [AddCommMonoid M]

namespace Entry

def deferring (m : M) : Entry M := ⟨.stay, none, .stay, m⟩

def posting (m : M) : Entry M := ⟨.stay, some m, .stay, 0⟩

def turning (w : Window) : Entry M := ⟨w, none, .stay, 0⟩

end Entry

namespace Ledger

def blank : Ledger M := ⟨false, 0, 0, []⟩

def turn (L : Ledger M) : Window → Ledger M
  | .stay => L
  | .opening => { L with active := true, current := 0 }
  | .closing => { L with active := false, current := 0, closed := L.closed ++ [L.current] }
  | .resume => { L with active := true }
  | .pause => { L with active := false }

def settle (L : Ledger M) : Option M → Ledger M
  | none => L
  | some m => { L with
      deferred := 0
      current := if L.active then L.current + (m + L.deferred) else L.current }

def postpone (L : Ledger M) (m : M) : Ledger M := { L with deferred := L.deferred + m }

def step (L : Ledger M) (e : Entry M) : Ledger M :=
  (((L.turn e.before).settle e.post).turn e.after).postpone e.defer

def run (es : List (Entry M)) : Ledger M := es.foldl step blank

/-- The amount of account number j, the current one included. -/
def book (L : Ledger M) (j : ℕ) : M := ((L.closed ++ [L.current])[j]?).getD 0

@[simp] theorem run_nil : run ([] : List (Entry M)) = blank := rfl

@[simp] theorem run_snoc (es : List (Entry M)) (e : Entry M) : run (es ++ [e]) = (run es).step e := by
  simp [run]

theorem run_append (es fs : List (Entry M)) : run (es ++ fs) = fs.foldl step (run es) := by
  simp [run]

@[simp] theorem turn_stay (L : Ledger M) : L.turn .stay = L := rfl

@[simp] theorem settle_none (L : Ledger M) : L.settle none = L := rfl

@[simp] theorem postpone_zero (L : Ledger M) : L.postpone 0 = L := by simp [postpone]

@[simp] theorem settle_active (L : Ledger M) (p : Option M) : (L.settle p).active = L.active := by
  cases p <;> rfl

@[simp] theorem settle_closed (L : Ledger M) (p : Option M) : (L.settle p).closed = L.closed := by
  cases p <;> rfl

@[simp] theorem turn_deferred (L : Ledger M) (w : Window) : (L.turn w).deferred = L.deferred := by
  cases w <;> rfl

@[simp] theorem postpone_active (L : Ledger M) (m : M) : (L.postpone m).active = L.active := rfl
@[simp] theorem postpone_current (L : Ledger M) (m : M) : (L.postpone m).current = L.current := rfl
@[simp] theorem postpone_closed (L : Ledger M) (m : M) : (L.postpone m).closed = L.closed := rfl

theorem step_deferring (L : Ledger M) (m : M) : L.step (.deferring m) = L.postpone m := rfl

theorem step_posting (L : Ledger M) (m : M) : L.step (.posting m) = L.settle (some m) := by
  simp [step, Entry.posting]

theorem step_turning (L : Ledger M) (w : Window) : L.step (.turning w) = L.turn w := by
  simp [step, Entry.turning]

theorem book_of_lt (L : Ledger M) {j : ℕ} (h : j < L.closed.length) :
    L.closed[j]? = some (L.book j) := by
  simp [book, List.getElem?_append_left h, List.getElem?_eq_getElem h]

@[simp] theorem book_current (L : Ledger M) : L.book L.closed.length = L.current := by
  simp [book]

/-- Changing the window moves no amount, unless an opening drops one. -/
theorem book_turn (L : Ledger M) (w : Window) (h : w = .opening → L.current = 0) (j : ℕ) :
    (L.turn w).book j = L.book j := by
  cases w with
  | stay => rfl
  | opening => simp [turn, book, h rfl]
  | resume => rfl
  | pause => rfl
  | closing =>
    simp only [turn, book]
    rcases Nat.lt_or_ge j (L.closed ++ [L.current]).length with hj | hj
    · rw [List.getElem?_append_left hj]
    · rw [List.getElem?_append_right hj, List.getElem?_eq_none hj]
      cases j - (L.closed ++ [L.current]).length <;> simp

/-- A posting adds itself and everything deferred to the current account, if that is open. -/
theorem book_settle (L : Ledger M) (m : M) (j : ℕ) :
    (L.settle (some m)).book j =
      L.book j + if L.active ∧ L.closed.length = j then m + L.deferred else 0 := by
  by_cases ha : L.active = true
  · rcases lt_trichotomy j L.closed.length with hj | rfl | hj
    · have hne : L.closed.length ≠ j := by omega
      simp [book, settle, List.getElem?_append_left hj, hne]
    · simp [book, settle, ha]
    · have hne : L.closed.length ≠ j := by omega
      have hlen (m : M) : (L.closed ++ [m]).length ≤ j := by simp; omega
      simp [book, settle, List.getElem?_eq_none (hlen _), hne]
  · simp [book, settle, ha]

@[simp] theorem book_postpone (L : Ledger M) (m : M) (j : ℕ) : (L.postpone m).book j = L.book j := rfl

end Ledger
end Roofline.Library
