import Roofline.Library.TextLines
import Mathlib.Algebra.BigOperators.Group.List.Basic
import Mathlib.Algebra.BigOperators.Fin
import Mathlib.Algebra.BigOperators.Ring.Finset

/-! Stream editors that rewrite a text line by line, as a monoid: one edit after the other is a
single pass over the lines. A line keeps its line feed, and only the last one may be without. -/
namespace Roofline.Library

instance (l : List Char) : Decidable (IsLine l) := inferInstanceAs (Decidable ('\n' ∉ l))

def Ended (l : List Char) : Prop := ∃ a, IsLine a ∧ l = a ++ ['\n']

def Unended (l : List Char) : Prop := IsLine l ∧ l ≠ []

/-- Lines that are those of a text: each of them but the last one is ended. -/
def WholeLines (ls : List (List Char)) : Prop :=
  ls.Pairwise (fun l _ => Ended l) ∧ ∀ l ∈ ls, Ended l ∨ Unended l

def body (l : List Char) : List Char := l.rdropWhile (· = '\n')

section lines
variable {a l text : List Char} {ls ls' : List (List Char)}

theorem IsLine.ended (h : IsLine a) : Ended (a ++ ['\n']) := ⟨a, h, rfl⟩

private theorem body_line (h : IsLine a) : body a = a := by
  rw [body, List.rdropWhile_eq_self_iff]
  intro hne
  rw [decide_eq_true_eq]
  intro hlast
  exact h (hlast ▸ List.getLast_mem hne)

@[simp] theorem body_ended (h : IsLine a) : body (a ++ ['\n']) = a := by
  rw [body, List.rdropWhile_concat_pos (fun c => decide (c = '\n')) _ _ (decide_eq_true rfl)]
  exact body_line h

theorem Ended.body_append (h : Ended l) : body l ++ ['\n'] = l := by
  obtain ⟨a, ha, rfl⟩ := h
  rw [body_ended ha]

private theorem isLine_body (h : Ended l ∨ Unended l) : IsLine (body l) := by
  rcases h with ⟨a, ha, rfl⟩ | h
  · rw [body_ended ha]
    exact ha
  · rw [body_line h.1]
    exact h.1

private theorem Unended.not_ended (h : Unended l) : ¬ Ended l := by
  rintro ⟨a, -, rfl⟩
  exact h.1 (by simp)

private theorem lines_unended (h : Unended l) : lines l = [l] := by
  obtain ⟨hl, hne⟩ := h
  induction l with
  | nil => exact absurd rfl hne
  | cons c l ih =>
    rw [IsLine, List.mem_cons, not_or] at hl
    rw [lines, if_neg (Ne.symm hl.1)]
    by_cases hnil : l = []
    · subst hnil
      rfl
    · rw [ih hl.2 hnil]

private theorem wholeLines_ended (h : ∀ l ∈ ls, Ended l) : WholeLines ls :=
  ⟨List.pairwise_of_forall_mem_list fun l hl _ _ => h l hl, fun l hl => .inl (h l hl)⟩

/-- The lines of a text are found again when they are put together. -/
theorem WholeLines.lines_flatten (h : WholeLines ls) : lines ls.flatten = ls := by
  induction ls with
  | nil => rfl
  | cons l ls ih =>
    obtain ⟨hpairs, hall⟩ := h
    rw [List.pairwise_cons] at hpairs
    have hrest := ih ⟨hpairs.2, fun m hm => hall m (List.mem_cons_of_mem _ hm)⟩
    rcases hall l List.mem_cons_self with ⟨a, ha, rfl⟩ | hopen
    · rw [List.flatten_cons, List.append_assoc, List.singleton_append, lines_feed, lines_line ha, hrest]
      rfl
    · rcases ls with _ | ⟨m, ls⟩
      · rw [List.flatten_singleton, lines_unended hopen]
      · exact absurd (hpairs.1 m List.mem_cons_self) hopen.not_ended

theorem wholeLines_lines (text : List Char) : WholeLines (lines text) := by
  induction text with
  | nil => exact wholeLines_ended fun l hl => absurd hl List.not_mem_nil
  | cons c text ih =>
    rw [lines]
    split_ifs with hc
    · refine ⟨List.pairwise_cons.mpr ⟨fun m _ => ⟨[], List.not_mem_nil, by rw [hc]; rfl⟩, ih.1⟩, ?_⟩
      rw [List.forall_mem_cons]
      exact ⟨.inl ⟨[], List.not_mem_nil, by rw [hc]; rfl⟩, ih.2⟩
    · have hcons {l : List Char} (h : Ended l) : Ended (c :: l) := by
        obtain ⟨a, ha, rfl⟩ := h
        exact ⟨c :: a, List.not_mem_cons_of_ne_of_not_mem (Ne.symm hc) ha, rfl⟩
      cases hlines : lines text with
      | nil =>
        refine ⟨List.pairwise_singleton _ _, List.forall_mem_singleton.mpr (.inr ⟨?_, List.cons_ne_nil _ _⟩)⟩
        exact List.not_mem_cons_of_ne_of_not_mem (Ne.symm hc) List.not_mem_nil
      | cons l ls =>
        rw [hlines] at ih
        obtain ⟨hpairs, hall⟩ := ih
        rw [List.pairwise_cons] at hpairs
        rw [List.forall_mem_cons] at hall
        refine ⟨List.pairwise_cons.mpr ⟨fun m hm => hcons (hpairs.1 m hm), hpairs.2⟩, ?_⟩
        rw [List.forall_mem_cons]
        exact ⟨hall.1.imp hcons fun h => ⟨List.not_mem_cons_of_ne_of_not_mem (Ne.symm hc) h.1,
          List.cons_ne_nil _ _⟩, hall.2⟩

theorem ended_of_mem_lines (h : l ∈ lines (text ++ ['\n'])) : Ended l := by
  obtain ⟨ls, hls, hjoin⟩ := exists_joinLines text
  rw [hjoin, lines_joinLines hls] at h
  obtain ⟨a, ha, rfl⟩ := List.mem_map.mp h
  exact (hls a ha).ended

end lines

/-- What an editor makes of each line. It opens no line in the middle of a text. -/
@[ext] structure Edit where
  rewrite : List Char → List (List Char)
  ended : ∀ {l}, Ended l → ∀ m ∈ rewrite l, Ended m
  unended : ∀ {l}, Unended l → WholeLines (rewrite l)

namespace Edit
variable {ls : List (List Char)}

def run (e : Edit) (text : List Char) : List Char := ((lines text).flatMap e.rewrite).flatten

private theorem wholeLines_flatMap (e : Edit) (h : WholeLines ls) : WholeLines (ls.flatMap e.rewrite) := by
  obtain ⟨hpairs, hall⟩ := h
  refine ⟨List.pairwise_flatMap.mpr ⟨fun l hl => ?_, hpairs.imp ?_⟩, fun m hm => ?_⟩
  · exact (hall l hl).elim (fun h => (wholeLines_ended (e.ended h)).1) fun h => (e.unended h).1
  · intro l _ hl m hm _ _
    exact e.ended hl m hm
  · obtain ⟨l, hl, hm⟩ := List.mem_flatMap.mp hm
    exact (hall l hl).elim (fun h => .inl (e.ended h m hm)) fun h => (e.unended h).2 m hm

/-- The lines of an edited text are those that the editor has made. -/
theorem lines_run (e : Edit) (text : List Char) : lines (e.run text) = (lines text).flatMap e.rewrite :=
  (e.wholeLines_flatMap (wholeLines_lines text)).lines_flatten

instance : One Edit where
  one :=
    { rewrite := fun l => [l]
      ended := fun h => List.forall_mem_singleton.mpr h
      unended := fun h => ⟨List.pairwise_singleton _ _, List.forall_mem_singleton.mpr (.inr h)⟩ }

/-- The first factor comes first. -/
instance : Mul Edit where
  mul e e' :=
    { rewrite := fun l => (e.rewrite l).flatMap e'.rewrite
      ended := by
        intro l h m hm
        obtain ⟨k, hk, hm⟩ := List.mem_flatMap.mp hm
        exact e'.ended (e.ended h k hk) m hm
      unended := fun h => e'.wholeLines_flatMap (e.unended h) }

instance : Monoid Edit where
  mul_assoc e e' e'' := by
    ext1
    funext l
    exact List.flatMap_assoc
  one_mul e := by
    ext1
    funext l
    exact List.flatMap_singleton _ _
  mul_one e := by
    ext1
    funext l
    exact List.flatMap_singleton' _

@[simp] theorem run_one (text : List Char) : (1 : Edit).run text = text := by
  rw [run, show (1 : Edit).rewrite = fun l => [l] from rfl, List.flatMap_singleton', flatten_lines]

/-- Two passes are one pass of the product. -/
theorem run_mul (e e' : Edit) (text : List Char) : (e * e').run text = e'.run (e.run text) := by
  rw [run, run, lines_run, List.flatMap_assoc]
  rfl

theorem run_prod (es : List Edit) (text : List Char) :
    es.prod.run text = es.foldl (fun text e => e.run text) text := by
  induction es generalizing text with
  | nil => exact run_one text
  | cons e es ih => rw [List.prod_cons, run_mul, ih, List.foldl_cons]

/-- What stands behind a line feed is edited on its own. -/
theorem run_append (e : Edit) (a b : List Char) :
    e.run (a ++ '\n' :: b) = e.run (a ++ ['\n']) ++ e.run b := by
  rw [run, lines_feed, List.flatMap_append, List.flatten_append]
  rfl

/-- sed with the command c: another text in place of every line that matches. -/
def change (p : List Char → Bool) (text : List Char) : Edit where
  rewrite l := if p l then lines (text ++ ['\n']) else [l]
  ended := by
    intro l h m hm
    split_ifs at hm
    · exact ended_of_mem_lines hm
    · exact List.mem_singleton.mp hm ▸ h
  unended := by
    intro l h
    split_ifs
    · exact wholeLines_lines _
    · exact (1 : Edit).unended h

/-- sed with the command a: a text behind every line that matches. -/
def appendAfter (p : List Char → Bool) (text : List Char) : Edit where
  rewrite l := if p l then (body l ++ ['\n']) :: lines (text ++ ['\n']) else [l]
  ended := by
    intro l h m hm
    split_ifs at hm
    · rcases List.mem_cons.mp hm with rfl | hm
      · exact h.body_append.symm ▸ h
      · exact ended_of_mem_lines hm
    · exact List.mem_singleton.mp hm ▸ h
  unended := by
    intro l h
    split_ifs
    · refine wholeLines_ended (List.forall_mem_cons.mpr ⟨?_, fun m hm => ended_of_mem_lines hm⟩)
      exact (isLine_body (.inr h)).ended
    · exact (1 : Edit).unended h

/-- sed with the command i: a text before every line that matches. -/
def insertBefore (p : List Char → Bool) (text : List Char) : Edit where
  rewrite l := if p l then lines (text ++ ['\n']) ++ [l] else [l]
  ended := by
    intro l h m hm
    split_ifs at hm
    · rcases List.mem_append.mp hm with hm | hm
      · exact ended_of_mem_lines hm
      · exact List.mem_singleton.mp hm ▸ h
    · exact List.mem_singleton.mp hm ▸ h
  unended := by
    intro l h
    split_ifs
    · refine ⟨List.pairwise_append.mpr ⟨(wholeLines_lines _).1, List.pairwise_singleton _ _, ?_⟩, fun m hm => ?_⟩
      · intro m hm _ _
        exact ended_of_mem_lines hm
      · rcases List.mem_append.mp hm with hm | hm
        · exact .inl (ended_of_mem_lines hm)
        · exact .inr (List.mem_singleton.mp hm ▸ h)
    · exact (1 : Edit).unended h

end Edit

/-- sed with the command d and an address that takes one more line: every line that matches goes,
with the line behind it. -/
def deleteWithNext (p : List Char → Bool) (next : Bool) : List (List Char) → List (List Char)
  | [] => []
  | l :: ls =>
    if next then deleteWithNext p false ls
    else if p l then deleteWithNext p true ls
    else l :: deleteWithNext p false ls

theorem deleteWithNext_sublist (p : List Char → Bool) (next : Bool) (ls : List (List Char)) :
    (deleteWithNext p next ls).Sublist ls := by
  induction ls generalizing next with
  | nil => exact List.nil_sublist _
  | cons l ls ih =>
    rw [deleteWithNext]
    split_ifs
    · exact (ih false).cons l
    · exact (ih true).cons l
    · exact (ih false).cons_cons l

namespace Edit

/-- One text after the other behind the lines that match. -/
def appendAll (p : List Char → Bool) (texts : List (List Char)) : Edit := (texts.map (appendAfter p)).prod

/-- What stands behind a line that matches in the end: the latest text first, and behind each text
that matches itself all later ones once more. -/
def block (p : List Char → Bool) : List (List Char) → List (List Char)
  | [] => []
  | text :: texts =>
    block p texts ++ (lines (text ++ ['\n'])).flatMap fun m => if p m then m :: block p texts else [m]

section inserts
variable {p : List Char → Bool} {texts : List (List Char)} {l m : List Char}

end inserts

section appends
variable {p : List Char → Bool} {texts : List (List Char)} {l m : List Char}

theorem appendAll_nil : appendAll p [] = 1 := rfl

theorem appendAll_cons (text : List Char) : appendAll p (text :: texts) = appendAfter p text * appendAll p texts :=
  List.prod_cons

end appends
end Edit
end Roofline.Library
