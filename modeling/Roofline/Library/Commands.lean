import Roofline.Library.LineEdits

/-! Commands of a script that go on over several lines, each but the last of them with a backslash
at its end, and lines that are put in between. -/
namespace Roofline.Library

/-- Lines with more lines between them, of which P holds. -/
inductive Inserted (P : List Char → Prop) : List (List Char) → List (List Char) → Prop
  | done : Inserted P [] []
  | keep {ls ls' : List (List Char)} (l : List Char) (h : Inserted P ls ls') : Inserted P (l :: ls) (l :: ls')
  | insert {ls ls' : List (List Char)} {l : List Char} (hl : P l) (h : Inserted P ls ls') : Inserted P ls (l :: ls')

section commands
variable {l m : List Char} {ls : List (List Char)}

end commands

section insertion
variable {P : List Char → Prop} {ls ls' ms ms' : List (List Char)}

theorem Inserted.countP (h : Inserted P ls ls') {p : List Char → Bool} (hp : ∀ l, P l → p l = false) :
    ls'.countP p = ls.countP p := by
  induction h with
  | done => rfl
  | keep l _ ih => rw [List.countP_cons, List.countP_cons, ih]
  | insert hl _ ih => rw [List.countP_cons_of_neg (by rw [hp _ hl]; exact Bool.false_ne_true), ih]

end insertion
end Roofline.Library
