import Mathlib.Data.List.Basic

/-! Tables of separated values in which every field is quoted, and a reader for them. -/
namespace Roofline.Library.Csv

abbrev Field := List Char

def quotation : Char := Char.ofNat 34

/-- A quotation mark within a field is doubled. -/
def escape (field : Field) : List Char := field.flatMap fun c => if c = quotation then [c, c] else [c]

def quoteField (field : Field) : List Char := quotation :: (escape field ++ [quotation])

def writeRow : List Field → List Char
  | [] => ['\r', '\n']
  | [field] => quoteField field ++ ['\r', '\n']
  | field :: next :: fields => quoteField field ++ ',' :: writeRow (next :: fields)

def writeTable (rows : List (List Field)) : List Char := rows.flatMap writeRow

/-- Where the reader is: before a row, before a further field of it, in a field, behind a quotation mark
within it, and between the two characters of a line end. -/
inductive Place where
  | row
  | next
  | quoted
  | closed
  | lineEnd
  deriving DecidableEq, Repr

/-- The rest of the table, behind some fields of its first row and a part of the next field. -/
def read (part : Field) (fields : List Field) : Place → List Char → Option (List (List Field))
  | .row, [] => some []
  | .row, c :: cs => if c = quotation then read [] fields .quoted cs else none
  | .next, c :: cs => if c = quotation then read [] fields .quoted cs else none
  | .quoted, c :: cs => if c = quotation then read part fields .closed cs else read (part ++ [c]) fields .quoted cs
  | .closed, c :: cs =>
    if c = quotation then read (part ++ [c]) fields .quoted cs
    else if c = ',' then read [] (fields ++ [part]) .next cs
    else if c = '\r' then read [] (fields ++ [part]) .lineEnd cs
    else none
  | .lineEnd, c :: cs => if c = '\n' then (read [] [] .row cs).map (fields :: ·) else none
  | _, [] => none

def readTable (text : List Char) : Option (List (List Field)) := read [] [] .row text

private theorem read_escape (part : Field) (fields : List Field) (field : Field) (rest : List Char) :
    read part fields .quoted (escape field ++ quotation :: rest) = read (part ++ field) fields .closed rest := by
  induction field generalizing part with
  | nil =>
    rw [List.append_nil]
    exact if_pos rfl
  | cons c field ih =>
    have hpart : part ++ c :: field = (part ++ [c]) ++ field := (List.append_cons part c field)
    by_cases hc : c = quotation
    · have hdouble : escape (c :: field) = c :: c :: escape field := by simp [escape, hc]
      rw [hdouble, hpart, ← ih (part ++ [c]), List.cons_append, List.cons_append, read, if_pos hc, read, if_pos hc]
    · have hsingle : escape (c :: field) = c :: escape field := by simp [escape, hc]
      rw [hsingle, hpart, ← ih (part ++ [c]), List.cons_append, read, if_neg hc]

private theorem read_quoteField (fields : List Field) (field : Field) {place : Place}
    (hplace : place = .row ∨ place = .next)
    (rest : List Char) :
    read [] fields place (quoteField field ++ rest) = read field fields .closed rest := by
  have hquoted : quoteField field ++ rest = quotation :: (escape field ++ quotation :: rest) := by simp [quoteField]
  rw [hquoted, ← List.nil_append field, ← read_escape [] fields, List.nil_append]
  rcases hplace with rfl | rfl <;> exact if_pos rfl

private theorem read_writeRow {row : List Field} (hrow : row ≠ []) (fields : List Field) {place : Place}
    (hplace : place = .row ∨ place = .next) (rest : List Char) :
    read [] fields place (writeRow row ++ rest) = (readTable rest).map ((fields ++ row) :: ·) := by
  induction row generalizing fields place with
  | nil => exact absurd rfl hrow
  | cons field row ih =>
    cases row with
    | nil =>
      rw [writeRow, List.append_assoc, read_quoteField fields field hplace]
      rfl
    | cons next row =>
      rw [writeRow, List.append_assoc, read_quoteField fields field hplace, List.cons_append, read,
        if_neg (by decide), if_pos rfl, ih (List.cons_ne_nil _ _) _ (.inr rfl), List.append_assoc]
      rfl

/-- A table is read as it was written. -/
theorem readTable_writeTable {rows : List (List Field)} (hrows : ∀ row ∈ rows, row ≠ []) :
    readTable (writeTable rows) = some rows := by
  induction rows with
  | nil => rfl
  | cons row rows ih =>
    rw [List.forall_mem_cons] at hrows
    rw [writeTable, List.flatMap_cons, readTable, read_writeRow hrows.1 [] (.inl rfl), ← writeTable, ih hrows.2]
    rfl

end Roofline.Library.Csv
