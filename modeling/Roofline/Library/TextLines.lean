import Mathlib.Data.List.DropRight
import Mathlib.Data.List.Infix

/-! Texts as tail, head and sed see them. A line is kept with its line feed, and only the last
one may be without. -/
namespace Roofline.Library

def lines : List Char → List (List Char)
  | [] => []
  | c :: cs =>
    if c = '\n' then [c] :: lines cs
    else
      match lines cs with
      | [] => [[c]]
      | l :: ls => (c :: l) :: ls

/-- tail -n, for a number of lines. -/
def tailLines (n : ℕ) (text : List Char) : List Char := ((lines text).rtake n).flatten

/-- head -n1 -/
def headLine (text : List Char) : List Char := ((lines text).take 1).flatten

/-- sed -n with the command p: the lines that match. -/
def matchingLines (p : List Char → Bool) (text : List Char) : List Char := ((lines text).filter p).flatten

/-- sed with the command i: a line in front of every line that matches. -/
def insertBefore (p : List Char → Bool) (line text : List Char) : List Char :=
  ((lines text).map fun l => if p l then line ++ '\n' :: l else l).flatten

def joinLines (ls : List (List Char)) : List Char := (ls.map (· ++ ['\n'])).flatten

def IsLine (l : List Char) : Prop := '\n' ∉ l

theorem flatten_lines (text : List Char) : (lines text).flatten = text := by
  induction text with
  | nil => rfl
  | cons c cs ih =>
    rw [lines]
    split_ifs
    · rw [List.flatten_cons, ih, List.singleton_append]
    · cases h : lines cs with
      | nil =>
        rw [h, List.flatten_nil] at ih
        rw [← ih]
        rfl
      | cons l ls =>
        rw [h, List.flatten_cons] at ih
        rw [← ih]
        rfl

theorem lines_ended_ne_nil (a : List Char) : lines (a ++ ['\n']) ≠ [] := by
  intro h
  have hnil := flatten_lines (a ++ ['\n'])
  rw [h, List.flatten_nil] at hnil
  exact absurd hnil.symm (List.append_ne_nil_of_right_ne_nil _ (List.cons_ne_nil _ _))

/-- A line feed ends a line. -/
theorem lines_feed (a b : List Char) : lines (a ++ '\n' :: b) = lines (a ++ ['\n']) ++ lines b := by
  induction a with
  | nil => rfl
  | cons c a ih =>
    rw [List.cons_append, List.cons_append, lines, lines]
    split_ifs
    · rw [ih, List.cons_append]
    · rw [ih]
      cases h : lines (a ++ ['\n']) with
      | nil => exact absurd h (lines_ended_ne_nil a)
      | cons l ls => rfl

theorem lines_line {l : List Char} (h : IsLine l) : lines (l ++ ['\n']) = [l ++ ['\n']] := by
  induction l with
  | nil => rfl
  | cons c l ih =>
    rw [IsLine, List.mem_cons, not_or] at h
    rw [List.cons_append, lines, if_neg (Ne.symm h.1), ih h.2]

/-- Lines that are put together are found again. -/
theorem lines_joinLines {ls : List (List Char)} (h : ∀ l ∈ ls, IsLine l) :
    lines (joinLines ls) = ls.map (· ++ ['\n']) := by
  induction ls with
  | nil => rfl
  | cons l ls ih =>
    rw [joinLines, List.map_cons, List.flatten_cons, List.append_assoc, List.singleton_append, lines_feed,
      lines_line (h l List.mem_cons_self), ← joinLines, ih fun l hl => h l (List.mem_cons_of_mem _ hl)]
    rfl

/-- A text that ends in a line feed consists of whole lines. -/
theorem exists_joinLines (a : List Char) :
    ∃ ls : List (List Char), (∀ l ∈ ls, IsLine l) ∧ a ++ ['\n'] = joinLines ls := by
  induction a with
  | nil => exact ⟨[[]], List.forall_mem_singleton.mpr List.not_mem_nil, rfl⟩
  | cons c a ih =>
    obtain ⟨ls, hls, h⟩ := ih
    by_cases hc : c = '\n'
    · refine ⟨[] :: ls, List.forall_mem_cons.mpr ⟨List.not_mem_nil, hls⟩, ?_⟩
      rw [List.cons_append, h, hc]
      rfl
    · cases ls with
      | nil => exact absurd h (List.append_ne_nil_of_right_ne_nil _ (List.cons_ne_nil _ _))
      | cons l ls =>
        rw [List.forall_mem_cons] at hls
        refine ⟨(c :: l) :: ls, List.forall_mem_cons.mpr ⟨?_, hls.2⟩, ?_⟩
        · exact List.not_mem_cons_of_ne_of_not_mem (Ne.symm hc) hls.1
        · rw [List.cons_append, h]
          rfl

theorem tailLines_joinLines {before after : List (List Char)} (hbefore : ∀ l ∈ before, IsLine l)
    (hafter : ∀ l ∈ after, IsLine l) : tailLines after.length (joinLines (before ++ after)) = joinLines after := by
  rw [tailLines, lines_joinLines (List.forall_mem_append.mpr ⟨hbefore, hafter⟩), List.map_append, List.rtake,
    List.length_append, List.length_map, List.length_map, Nat.add_sub_cancel, ← List.length_map (· ++ ['\n']),
    List.drop_left]
  rfl

/-- The first of the last lines. -/
theorem headLine_tailLines {before after : List (List Char)} {l : List Char}
    (h : ∀ l' ∈ before ++ l :: after, IsLine l') :
    headLine (tailLines (after.length + 1) (joinLines (before ++ l :: after))) = l ++ ['\n'] := by
  rw [List.forall_mem_append] at h
  have htail := tailLines_joinLines h.1 h.2
  rw [List.length_cons] at htail
  rw [htail, headLine, lines_joinLines h.2]
  exact List.append_nil _

end Roofline.Library
