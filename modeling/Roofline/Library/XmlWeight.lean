import Roofline.Library.Xml
import Mathlib.Algebra.Order.BigOperators.Group.List
import Mathlib.Algebra.Order.Ring.Nat

/-! How much a document can say. The weight of a tree is the number of characters in its
attribute values and in its texts of a single line, and that of the digits in its other
texts; every character that is read adds at most one to it, and the characters that markup
and line ends need add none. -/
namespace Roofline.Library.Xml

/-- The weight of a text: of one that is broken into lines only the digits count. -/
def textWeight (cs : List Char) : ℕ := if '\n' ∈ cs then cs.countP Char.isDigit else cs.length

def attribWeight (attrib : List (List Char × List Char)) : ℕ := (attrib.map fun a => a.2.length).sum

mutual

def Element.weight : Element → ℕ
  | ⟨_, attrib, text, children⟩ =>
    (attrib.map fun a => a.2.toList.length).sum + text.elim 0 (fun s => textWeight s.toList) +
      weights children

def weights : List Element → ℕ
  | [] => 0
  | e :: es => e.weight + weights es

end

def Frame.weight (f : Frame) : ℕ := attribWeight f.attrib + textWeight f.text + weights f.children

/-- The weight of what is read but not yet part of an open element. -/
def Mode.weight : Mode → ℕ
  | .attrRef tag _ _ value _ => attribWeight tag.attrib + value.length
  | .attrValue tag _ _ value => attribWeight tag.attrib + value.length
  | .inTag tag _ => attribWeight tag.attrib
  | .attrName tag _ => attribWeight tag.attrib
  | .attrEq tag _ => attribWeight tag.attrib
  | .attrQuote tag _ => attribWeight tag.attrib
  | .emptyTag tag => attribWeight tag.attrib
  | .cdata brackets => brackets
  | _ => 0

namespace Parser

def treeWeight (p : Parser) : ℕ := (p.stack.map Frame.weight).sum + p.root.elim 0 Element.weight

def weight (p : Parser) : ℕ := p.treeWeight + p.mode.weight

end Parser

section weights

@[simp] theorem textWeight_nil : textWeight [] = 0 := rfl

theorem textWeight_le_length (cs : List Char) : textWeight cs ≤ cs.length := by
  unfold textWeight
  split_ifs
  · exact List.countP_le_length
  · exact Nat.le_refl _

theorem countP_le_textWeight (cs : List Char) : cs.countP Char.isDigit ≤ textWeight cs := by
  unfold textWeight
  split_ifs
  · exact Nat.le_refl _
  · exact List.countP_le_length

private theorem textWeight_append (cs ds : List Char) : textWeight (cs ++ ds) ≤ textWeight cs + ds.length := by
  by_cases h : '\n' ∈ cs ++ ds
  · have hcs := countP_le_textWeight cs
    have hds : ds.countP Char.isDigit ≤ ds.length := List.countP_le_length
    rw [textWeight, if_pos h, List.countP_append]
    omega
  · have hcs : '\n' ∉ cs := fun hc => h (List.mem_append_left ds hc)
    rw [textWeight, textWeight, if_neg h, if_neg hcs, List.length_append]

private theorem textWeight_lineFeed {cs ds : List Char} (h : '\n' ∈ cs ++ ds) (hds : ds.countP Char.isDigit = 0) :
    textWeight (cs ++ ds) ≤ textWeight cs := by
  rw [textWeight, if_pos h, List.countP_append, hds]
  exact countP_le_textWeight cs

@[simp] theorem weights_nil : weights [] = 0 := rfl

@[simp] theorem weights_cons (e : Element) (es : List Element) : weights (e :: es) = e.weight + weights es := rfl

@[simp] theorem weights_append (es es' : List Element) : weights (es ++ es') = weights es + weights es' := by
  induction es with
  | nil => simp
  | cons e es ih => simp [ih, Nat.add_assoc]

@[simp] theorem attribWeight_nil : attribWeight [] = 0 := rfl

@[simp] theorem attribWeight_snoc (attrib : List (List Char × List Char)) (name value : List Char) :
    attribWeight (attrib ++ [(name, value)]) = attribWeight attrib + value.length := by
  simp [attribWeight]

/-- Closing an element keeps its weight. -/
theorem weight_element (f : Frame) : f.element.weight = f.weight := by
  have hattrib : ((f.attrib.map fun a => (String.ofList a.1, String.ofList a.2)).map
      fun a => a.2.toList.length).sum = attribWeight f.attrib := by
    simp [attribWeight, Function.comp_def]
  rw [Frame.element, Element.weight, Frame.weight, hattrib]
  by_cases htext : f.text = []
  · simp [htext]
  · simp [htext]

/-- Children of different tags weigh no more than all the children. -/
theorem sum_le_weights {α : Type} {ts : List α} {tag : α → String} {size : α → ℕ} {es : List Element}
    (hdistinct : (ts.map tag).Nodup) (hfound : ∀ t ∈ ts, ∃ e ∈ es, e.tag = tag t ∧ size t ≤ e.weight) :
    (ts.map size).sum ≤ weights es := by
  induction ts generalizing es with
  | nil => exact Nat.zero_le _
  | cons t ts ih =>
    rw [List.map_cons, List.nodup_cons] at hdistinct
    obtain ⟨e, he, htag, hsize⟩ := hfound t (by simp)
    obtain ⟨before, behind, rfl⟩ := List.append_of_mem he
    have hrest : (ts.map size).sum ≤ weights (before ++ behind) := by
      refine ih hdistinct.2 fun u hu => ?_
      obtain ⟨e', he', htag', hsize'⟩ := hfound u (by simp [hu])
      rw [List.mem_append, List.mem_cons] at he'
      refine ⟨e', ?_, htag', hsize'⟩
      rcases he' with he' | rfl | he'
      · exact List.mem_append_left behind he'
      · exact absurd (List.mem_map.mpr ⟨u, hu, htag'.symm.trans htag⟩) hdistinct.1
      · exact List.mem_append_right before he'
    rw [weights_append] at hrest
    rw [List.map_cons, List.sum_cons, weights_append, weights_cons]
    omega

theorem sublist_weights {es es' : List Element} (h : es.Sublist es') : weights es ≤ weights es' := by
  induction h with
  | slnil => exact Nat.le_refl _
  | cons e _ ih =>
    rw [weights_cons]
    omega
  | cons_cons e _ ih =>
    rw [weights_cons, weights_cons]
    omega

theorem length_le_attrib {attrib : List (String × String)} {name value : String}
    (h : attrib.lookup name = some value) : value.toList.length ≤ (attrib.map fun a => a.2.toList.length).sum := by
  obtain ⟨before, behind, rfl, -⟩ := List.lookup_eq_some_iff.mp h
  simp only [List.map_append, List.sum_append, List.map_cons, List.sum_cons]
  omega

private theorem weight_addChar (f : Frame) (c : Char) : (f.addChar c).weight ≤ f.weight + 1 := by
  rcases f with ⟨tag, attrib, text, _ | ⟨e, es⟩⟩
  · have htext := textWeight_append text [c]
    rw [List.length_singleton] at htext
    simp only [Frame.addChar, Frame.weight]
    omega
  · exact Nat.le_succ _

end weights

section step
variable {p q : Parser} {c : Char} {cs : List Char}

private theorem treeWeight_addChar (h : p.addChar c = some q) :
    q.treeWeight ≤ p.treeWeight + 1 ∧ q.mode = p.mode := by
  rcases p with ⟨mode, _ | ⟨f, fs⟩, root⟩
  · simp only [Parser.addChar] at h
    split_ifs at h
    obtain rfl := Option.some.inj h
    exact ⟨Nat.le_succ _, rfl⟩
  · obtain rfl := Option.some.inj h
    have hchar := weight_addChar f c
    simp only [Parser.treeWeight, List.map_cons, List.sum_cons, and_true]
    omega

private theorem treeWeight_addChars (h : p.addChars cs = some q) :
    q.treeWeight ≤ p.treeWeight + cs.length ∧ q.mode = p.mode := by
  induction cs generalizing p with
  | nil =>
    obtain rfl := Option.some.inj h
    exact ⟨Nat.le_refl _, rfl⟩
  | cons c cs ih =>
    rw [Parser.addChars, List.foldlM_cons] at h
    obtain ⟨m, hm, hrest⟩ := Option.bind_eq_some_iff.mp h
    obtain ⟨hchar, hmode⟩ := treeWeight_addChar hm
    obtain ⟨hle, hmode'⟩ := ih hrest
    rw [List.length_cons]
    exact ⟨by omega, hmode'.trans hmode⟩

private theorem weight_openElement {tag : Tag} (h : p.openElement tag = some q) :
    q.weight = p.treeWeight + attribWeight tag.attrib := by
  unfold Parser.openElement at h
  split_ifs at h
  obtain rfl := Option.some.inj h
  simp only [Parser.weight, Parser.treeWeight, Mode.weight, List.map_cons, List.sum_cons, Frame.weight,
    textWeight_nil, weights_nil]
  omega

private theorem weight_closeElement {name : List Char} (h : p.closeElement name = some q) :
    q.weight ≤ p.treeWeight := by
  rcases p with ⟨mode, _ | ⟨f, _ | ⟨g, fs⟩⟩, root⟩
  · cases h
  · simp only [Parser.closeElement] at h
    split_ifs at h
    obtain rfl := Option.some.inj h
    simp [Parser.weight, Parser.treeWeight, Mode.weight, weight_element]
  · simp only [Parser.closeElement] at h
    split_ifs at h
    obtain rfl := Option.some.inj h
    simp only [Parser.weight, Parser.treeWeight, Mode.weight, List.map_cons, List.sum_cons, Frame.weight,
      Frame.addChildren, weights_append, weights_cons, weights_nil, weight_element]
    omega

private theorem weight_mode (p : Parser) (mode : Mode) : { p with mode }.weight = p.treeWeight + mode.weight := rfl

private theorem weight_stepText {n : ℕ} (h : p.stepText n c = some q) : q.weight ≤ p.treeWeight + 1 := by
  unfold Parser.stepText at h
  split_ifs at h
  · obtain rfl := Option.some.inj h
    exact Nat.le_succ _
  · obtain rfl := Option.some.inj h
    exact Nat.le_succ _
  all_goals
    obtain ⟨hle, hmode⟩ := treeWeight_addChar h
    rw [Parser.weight, hmode]
    exact hle

private theorem weight_stepCdata {n : ℕ} (h : p.stepCdata n c = some q) (hmode : p.mode = .cdata n) :
    q.weight ≤ p.treeWeight + n + 1 := by
  unfold Parser.stepCdata at h
  split_ifs at h with hend hbracket hfull
  · obtain rfl := Option.some.inj h
    simp only [weight_mode, Mode.weight]
    omega
  · obtain ⟨hle, hmode'⟩ := treeWeight_addChar h
    rw [Parser.weight, hmode', hmode, Mode.weight]
    omega
  · obtain rfl := Option.some.inj h
    simp only [weight_mode, Mode.weight]
    omega
  · obtain ⟨hle, hmode'⟩ := treeWeight_addChars h
    rw [List.length_append, List.length_replicate, List.length_singleton] at hle
    rw [Parser.weight, hmode']
    exact hle

/-- The modes in which a character may become part of a value or of a text. -/
def Mode.collects : Mode → Bool
  | .text _ | .textRef _ | .attrRef _ _ _ _ _ | .cdata _ | .attrValue _ _ _ _ => true
  | _ => false

/-- Characters of markup add nothing. -/
theorem weight_step_markup (hmode : p.mode.collects = false) (h : p.step c = some q) :
    q.weight ≤ p.weight := by
  rcases p with ⟨mode, stack, root⟩
  cases mode with
  | text n => cases hmode
  | cdata n => cases hmode
  | textRef acc => cases hmode
  | attrRef tag name quote value acc => cases hmode
  | attrValue tag name quote value => cases hmode
  | markup =>
    simp only [Parser.step, Parser.stepMarkup] at h
    split_ifs at h <;> obtain rfl := Option.some.inj h <;> exact Nat.le_refl _
  | bang acc =>
    simp only [Parser.step, Parser.stepBang] at h
    split_ifs at h <;> obtain rfl := Option.some.inj h <;> exact Nat.le_refl _
  | comment dashes =>
    simp only [Parser.step] at h
    split_ifs at h <;> obtain rfl := Option.some.inj h <;> exact Nat.le_refl _
  | piTarget acc =>
    simp only [Parser.step, Parser.stepPiTarget] at h
    split_ifs at h <;> obtain rfl := Option.some.inj h <;> exact Nat.le_refl _
  | pi question =>
    simp only [Parser.step] at h
    split_ifs at h <;> obtain rfl := Option.some.inj h <;> exact Nat.le_refl _
  | piEnd =>
    simp only [Parser.step] at h
    split_ifs at h
    obtain rfl := Option.some.inj h
    exact Nat.le_refl _
  | startTag acc =>
    simp only [Parser.step, Parser.stepStartTag] at h
    split_ifs at h
    · exact (weight_openElement h).le
    all_goals
      obtain rfl := Option.some.inj h
      exact Nat.le_refl _
  | inTag tag spaced =>
    simp only [Parser.step, Parser.stepInTag] at h
    split_ifs at h
    · exact (weight_openElement h).le
    all_goals
      obtain rfl := Option.some.inj h
      exact Nat.le_refl _
  | attrName tag acc =>
    simp only [Parser.step, Parser.stepAttrName] at h
    split_ifs at h <;> obtain rfl := Option.some.inj h <;> exact Nat.le_refl _
  | attrEq tag name =>
    simp only [Parser.step] at h
    split_ifs at h <;> obtain rfl := Option.some.inj h <;> exact Nat.le_refl _
  | attrQuote tag name =>
    simp only [Parser.step] at h
    split_ifs at h <;> obtain rfl := Option.some.inj h <;> exact Nat.le_refl _
  | emptyTag tag =>
    simp only [Parser.step] at h
    split_ifs at h
    obtain ⟨m, hm, hclose⟩ := Option.bind_eq_some_iff.mp h
    have hopened := weight_openElement hm
    refine (weight_closeElement hclose).trans (le_trans ?_ hopened.le)
    exact Nat.le_add_right _ _
  | endTag acc =>
    simp only [Parser.step, Parser.stepEndTag] at h
    split_ifs at h
    · exact weight_closeElement h
    all_goals
      obtain rfl := Option.some.inj h
      exact Nat.le_refl _
  | endTagSpace name =>
    simp only [Parser.step] at h
    split_ifs at h
    · exact weight_closeElement h
    · obtain rfl := Option.some.inj h
      exact Nat.le_refl _

private theorem weight_stepAttrValue {tag : Tag} {name value : List Char} {quote : Char}
    (h : p.stepAttrValue tag name quote value c = some q) :
    q.weight ≤ p.treeWeight + (attribWeight tag.attrib + value.length) + 1 := by
  unfold Parser.stepAttrValue at h
  split_ifs at h <;> obtain rfl := Option.some.inj h <;>
    simp only [weight_mode, Mode.weight, attribWeight_snoc, List.length_append, List.length_singleton] <;>
    omega

/-- A character adds at most one to the weight. -/
theorem weight_step (h : p.step c = some q) : q.weight ≤ p.weight + 1 := by
  rcases p with ⟨mode, stack, root⟩
  cases hcollects : mode.collects with
  | false => exact (weight_step_markup hcollects h).trans (Nat.le_succ _)
  | true =>
    cases mode with
    | text n => exact weight_stepText h
    | cdata n => exact weight_stepCdata h rfl
    | attrValue tag name quote value => exact weight_stepAttrValue h
    | textRef acc =>
      simp only [Parser.step] at h
      split_ifs at h
      · obtain ⟨d, -, hd⟩ := Option.bind_eq_some_iff.mp h
        obtain ⟨hle, hmode⟩ := treeWeight_addChar hd
        rw [Parser.weight, hmode]
        exact hle
      · obtain rfl := Option.some.inj h
        exact Nat.le_succ _
    | attrRef tag name quote value acc =>
      simp only [Parser.step] at h
      split_ifs at h
      · obtain ⟨d, -, rfl⟩ := Option.map_eq_some_iff.mp h
        simp only [Parser.weight, Parser.treeWeight, Mode.weight, List.length_append, List.length_singleton]
        omega
      · obtain rfl := Option.some.inj h
        exact Nat.le_succ _
    | _ => cases hcollects

theorem weight_feed (h : feed p cs = some q) : q.weight ≤ p.weight + cs.length := by
  induction cs generalizing p with
  | nil =>
    obtain rfl := Option.some.inj h
    exact Nat.le_refl _
  | cons c cs ih =>
    obtain ⟨m, hm, hrest⟩ := Option.bind_eq_some_iff.mp h
    have hstep := weight_step hm
    have hfeed := ih hrest
    rw [List.length_cons]
    omega

end step

section spent
variable {p q : Parser} {f : Frame} {c : Char} {cs : List Char}

/-- More text in the element has no weight. -/
def Frame.Spent (f : Frame) : Prop := f.children ≠ [] ∨ '\n' ∈ f.text

def Parser.Spent (p : Parser) : Prop := ∀ f ∈ p.stack.head?, f.Spent

private theorem addText_eq (f : Frame) (cs : List Char) :
    f.addText cs = if f.children = [] then { f with text := f.text ++ cs } else f := by
  rcases f with ⟨tag, attrib, text, _ | ⟨e, es⟩⟩
  · exact Frame.addText_fresh attrib text cs
  · have hsome := Frame.addText_addChildren ⟨tag, attrib, text, []⟩ (List.cons_ne_nil e es) cs
    rw [Frame.addChildren, List.nil_append] at hsome
    exact hsome

/-- A line end takes the weight of the text, and that of what follows in it. -/
theorem weight_addText_spent (h : f.Spent ∨ '\n' ∈ cs) (hcs : cs.countP Char.isDigit = 0) :
    (f.addText cs).weight ≤ f.weight ∧ (f.addText cs).Spent := by
  rw [addText_eq]
  split_ifs with hchildren
  · have hline : '\n' ∈ f.text ++ cs := by
      rcases h with (h | h) | h
      · exact absurd hchildren h
      · exact List.mem_append_left cs h
      · exact List.mem_append_right f.text h
    refine ⟨?_, .inr hline⟩
    have htext := textWeight_lineFeed hline hcs
    simp only [Frame.weight]
    omega
  · exact ⟨Nat.le_refl _, .inl hchildren⟩

private theorem addChars_cons (mode : Mode) (f : Frame) (fs : List Frame) (root : Option Element) (cs : List Char) :
    Parser.addChars ⟨mode, f :: fs, root⟩ cs = some ⟨mode, f.addText cs :: fs, root⟩ := by
  induction cs generalizing f with
  | nil => rfl
  | cons c cs ih => exact ih (f.addChar c)

private theorem addChars_spent (hspent : p.Spent ∨ '\n' ∈ cs) (hcs : cs.countP Char.isDigit = 0)
    (h : p.addChars cs = some q) :
    q.treeWeight ≤ p.treeWeight ∧ q.Spent ∧ q.mode = p.mode := by
  rcases p with ⟨mode, _ | ⟨f, fs⟩, root⟩
  · obtain rfl : q = ⟨mode, [], root⟩ := by
      clear hspent hcs
      induction cs with
      | nil => exact (Option.some.inj h).symm
      | cons c cs ih =>
        rw [Parser.addChars, List.foldlM_cons] at h
        obtain ⟨m, hm, hrest⟩ := Option.bind_eq_some_iff.mp h
        simp only [Parser.addChar] at hm
        split_ifs at hm
        obtain rfl := Option.some.inj hm
        exact ih hrest
    exact ⟨Nat.le_refl _, by simp [Parser.Spent], rfl⟩
  · rw [addChars_cons] at h
    obtain rfl := Option.some.inj h
    have hf : f.Spent ∨ '\n' ∈ cs := hspent.imp_left fun h => h f rfl
    obtain ⟨hle, hafter⟩ := weight_addText_spent hf hcs
    refine ⟨?_, ?_, rfl⟩
    · simp only [Parser.treeWeight, List.map_cons, List.sum_cons]
      omega
    · intro g hg
      obtain rfl := Option.some.inj hg
      exact hafter

end spent

/-- Characters that end no comment, no section, no instruction and no reference, and no digits. -/
def isQuiet (c : Char) : Bool := c ≠ ']' && c ≠ ';' && c ≠ '-' && c ≠ '?' && !c.isDigit

/-- The modes that read nothing and recognize no markup. -/
def Mode.isSilent : Mode → Bool
  | .textRef _ | .attrRef _ _ _ _ _ | .comment _ | .pi _ => true
  | _ => false

/-- The silent modes that no quiet character ends. -/
def Mode.isCalm : Mode → Bool
  | .textRef _ | .attrRef _ _ _ _ _ | .comment 0 | .pi false => true
  | _ => false

/-- Text and markup have no weight until the next element is open. -/
inductive Settled (p : Parser) : Prop where
  | text (n : ℕ) (mode : p.mode = .text n) (spent : p.Spent)
  | cdata (mode : p.mode = .cdata 0) (spent : p.Spent)
  | calm (mode : p.mode.isCalm = true)

section quiet
variable {p q : Parser} {c : Char} {cs : List Char}

private theorem isQuiet_ne (h : isQuiet c = true) : c ≠ ']' ∧ c ≠ ';' ∧ c ≠ '-' ∧ c ≠ '?' ∧ c.isDigit = false := by
  simpa [isQuiet, and_assoc] using h

private theorem silent_step (hmode : p.mode.isSilent = true) (hc : isQuiet c = true)
    (hend : c ≠ '>' ∨ p.mode.isCalm = true) (h : p.step c = some q) :
    q.mode.isCalm = true ∧ q.mode.isSilent = true ∧ q.weight ≤ p.weight := by
  obtain ⟨-, hsemi, hdash, hquestion, -⟩ := isQuiet_ne hc
  rcases p with ⟨mode, stack, root⟩
  cases mode with
  | textRef acc =>
    simp only [Parser.step, hsemi, if_false] at h
    obtain rfl := Option.some.inj h
    exact ⟨rfl, rfl, Nat.le_refl _⟩
  | attrRef tag name quote value acc =>
    simp only [Parser.step, hsemi, if_false] at h
    obtain rfl := Option.some.inj h
    exact ⟨rfl, rfl, Nat.le_refl _⟩
  | comment dashes =>
    simp only [Parser.step, hdash, if_false] at h
    split_ifs at h with hdashes hgt
    · subst hdashes
      rcases hend with hend | hend
      · exact absurd hgt hend
      · cases hend
    · obtain rfl := Option.some.inj h
      exact ⟨rfl, rfl, Nat.le_refl _⟩
  | pi question =>
    simp only [Parser.step, hquestion] at h
    split_ifs at h with hgt
    · obtain ⟨rfl, rfl⟩ := hgt
      rcases hend with hend | hend
      · exact absurd rfl hend
      · cases hend
    · obtain rfl := Option.some.inj h
      exact ⟨rfl, rfl, Nat.le_refl _⟩
  | _ => cases hmode

private theorem silent_feed (hmode : p.mode.isSilent = true) (hcs : ∀ c ∈ cs, isQuiet c = true)
    (hend : cs.head? ≠ some '>' ∨ p.mode.isCalm = true) (hne : cs ≠ [] ∨ p.mode.isCalm = true)
    (h : feed p cs = some q) : q.mode.isCalm = true ∧ q.weight ≤ p.weight := by
  induction cs generalizing p with
  | nil =>
    obtain rfl := Option.some.inj h
    exact ⟨hne.resolve_left (fun h => h rfl), Nat.le_refl _⟩
  | cons c cs ih =>
    obtain ⟨m, hm, hrest⟩ := Option.bind_eq_some_iff.mp h
    obtain ⟨hcalm, hsilent, hle⟩ :=
      silent_step hmode (hcs c (by simp)) (hend.imp_left fun h hc => h (by simp [hc])) hm
    obtain ⟨hcalm', hle'⟩ := ih hsilent (fun d hd => hcs d (by simp [hd])) (.inr hcalm) (.inr hcalm) hrest
    exact ⟨hcalm', hle'.trans hle⟩

private theorem feed_cdata (hmode : p.mode = .cdata 0) (hcs : ∀ c ∈ cs, isQuiet c = true) :
    feed p cs = p.addChars cs := by
  induction cs generalizing p with
  | nil => rfl
  | cons c cs ih =>
    have hbracket := (isQuiet_ne (hcs c (by simp))).1
    have hstep : p.step c = p.addChar c := by
      rcases p with ⟨mode, stack, root⟩
      subst hmode
      simp [Parser.step, Parser.stepCdata, hbracket, Parser.addChars]
    rw [feed_cons, hstep, Parser.addChars, List.foldlM_cons]
    cases hm : p.addChar c with
    | none => rfl
    | some m => exact ih ((treeWeight_addChar hm).2.trans hmode) fun d hd => hcs d (by simp [hd])

/-- Inside of a section everything is text. -/
theorem cdata_feed {n : ℕ} (hmode : p.mode = .cdata n) (hcs : ∀ c ∈ cs, isQuiet c = true)
    (hhead : cs.head? ≠ some '>') (hne : cs ≠ []) (hspent : p.Spent ∨ '\n' ∈ cs) (h : feed p cs = some q) :
    q.mode = .cdata 0 ∧ q.Spent ∧ q.weight ≤ p.weight := by
  obtain ⟨c, cs, rfl⟩ := List.exists_cons_of_ne_nil hne
  have hbracket := (isQuiet_ne (hcs c (by simp))).1
  have hgt : c ≠ '>' := fun hc => hhead (by simp [hc])
  have hfeed : feed p (c :: cs) =
      { p with mode := .cdata 0 }.addChars (List.replicate n ']' ++ [c] ++ cs) := by
    have hstep : p.step c = { p with mode := .cdata 0 }.addChars (List.replicate n ']' ++ [c]) := by
      rcases p with ⟨mode, stack, root⟩
      subst hmode
      simp [Parser.step, Parser.stepCdata, hbracket, hgt]
    have hsplit : { p with mode := .cdata 0 }.addChars (List.replicate n ']' ++ [c] ++ cs) =
        ({ p with mode := .cdata 0 }.addChars (List.replicate n ']' ++ [c])).bind fun m => m.addChars cs :=
      List.foldlM_append
    rw [feed_cons, hstep, hsplit]
    cases hm : { p with mode := .cdata 0 }.addChars (List.replicate n ']' ++ [c]) with
    | none => rfl
    | some m => exact feed_cdata (treeWeight_addChars hm).2 fun d hd => hcs d (by simp [hd])
  rw [hfeed] at h
  have hline : { p with mode := .cdata 0 }.Spent ∨ '\n' ∈ List.replicate n ']' ++ [c] ++ cs := by
    refine hspent.imp_right fun h => ?_
    rw [List.append_assoc, List.singleton_append]
    exact List.mem_append_right _ h
  have hdigit : (List.replicate n ']' ++ [c] ++ cs).countP Char.isDigit = 0 := by
    rw [List.countP_eq_zero]
    intro d hd
    rw [List.append_assoc, List.mem_append] at hd
    rcases hd with hd | hd
    · rw [List.eq_of_mem_replicate hd]
      decide
    · exact Bool.eq_false_iff.mp (isQuiet_ne (hcs d hd)).2.2.2.2
  obtain ⟨hle, hafter, hmode'⟩ := addChars_spent hline hdigit h
  refine ⟨hmode', hafter, ?_⟩
  rw [Parser.weight, hmode', Mode.weight]
  exact hle.trans (Nat.le_add_right _ _)

private theorem raw_feed (hraw : p.mode.isSilent = true ∨ ∃ n, p.mode = .cdata n ∧ (p.Spent ∨ '\n' ∈ cs))
    (hcs : ∀ c ∈ cs, isQuiet c = true) (hhead : cs.head? ≠ some '>') (hne : cs ≠ [])
    (h : feed p cs = some q) : Settled q ∧ q.weight ≤ p.weight := by
  rcases hraw with hsilent | ⟨n, hmode, hspent⟩
  · obtain ⟨hcalm, hle⟩ := silent_feed hsilent hcs (.inl hhead) (.inl hne) h
    exact ⟨.calm hcalm, hle⟩
  · obtain ⟨hmode', hspent', hle⟩ := cdata_feed hmode hcs hhead hne hspent h
    exact ⟨.cdata hmode' hspent', hle⟩

/-- Inside of a tag or of a declaration no markup begins, and nothing is quoted. -/
theorem step_none (hmode : p.mode.isSilent = false) (hcollects : p.mode.collects = false)
    (hquote : ∀ tag name, p.mode ≠ .attrQuote tag name) (hc : c = '<' ∨ c = quotationMark) :
    p.step c = none := by
  obtain ⟨hstart, hname, hspace⟩ : isNameStart c = false ∧ isNameChar c = false ∧ isSpace c = false := by
    rcases hc with rfl | rfl <;> decide
  obtain ⟨hbang', hquestion, hslash, hgt, heq⟩ : c ≠ '!' ∧ c ≠ '?' ∧ c ≠ '/' ∧ c ≠ '>' ∧ c ≠ '=' := by
    rcases hc with rfl | rfl <;> decide
  have hbang (acc : List Char) (stack : List Frame) (root : Option Element) :
      Parser.stepBang ⟨.bang acc, stack, root⟩ (acc ++ [c]) = none := by
    obtain ⟨hdashes, hsection⟩ : c ∉ "--".toList ∧ c ∉ "[CDATA[".toList := by
      rcases hc with rfl | rfl <;> decide
    have hprefix (l : List Char) (hl : c ∉ l) : ¬ acc ++ [c] <+: l := fun h => hl (h.subset (by simp))
    have hne (l : List Char) (hl : c ∉ l) : acc ++ [c] ≠ l := fun h => hprefix l hl (h ▸ List.prefix_rfl)
    simp only [Parser.stepBang, hprefix _ hdashes, hprefix _ hsection, hne _ hdashes, hne _ hsection, if_false,
      or_self]
  rcases p with ⟨mode, stack, root⟩
  cases mode with
  | attrQuote tag name => exact absurd rfl (hquote tag name)
  | comment dashes => cases hmode
  | pi question => cases hmode
  | text n => cases hcollects
  | textRef acc => cases hcollects
  | attrRef tag name quote value acc => cases hcollects
  | cdata n => cases hcollects
  | attrValue tag name quote value => cases hcollects
  | bang acc => exact hbang acc stack root
  | _ =>
    simp [Parser.step, Parser.stepMarkup, Parser.stepPiTarget, Parser.stepStartTag, Parser.stepInTag,
      Parser.stepAttrName, Parser.stepEndTag, extendsName, hstart, hname, hspace, hbang', hquestion, hslash,
      hgt, heq]

end quiet

section lines
variable {p q : Parser} {tag name cs : List Char}

/-- Names that are read as they stand in every mode. -/
structure PlainName (tag : List Char) : Prop where
  isName : isName tag = true
  quiet : ∀ c ∈ tag, isQuiet c = true

instance (tag : List Char) : Decidable (PlainName tag) :=
  decidable_of_iff (isName tag = true ∧ tag.all isQuiet = true)
    ⟨fun h => ⟨h.1, List.all_eq_true.mp h.2⟩, fun h => ⟨h.isName, List.all_eq_true.mpr h.quiet⟩⟩

/-- What a less-than sign or a quotation mark finds: text, something raw, or an attribute. -/
theorem mode_of_step {c : Char} (hc : c = '<' ∨ c = quotationMark) (h : p.step c = some q) :
    (∃ n, p.mode = .text n) ∨ (p.mode.isSilent = true ∨ ∃ n, p.mode = .cdata n) ∨
      (∃ tag name, p.mode = .attrQuote tag name) ∨
      ∃ tag name quote value, p.mode = .attrValue tag name quote value := by
  cases hmode : p.mode with
  | text n => exact .inl ⟨n, rfl⟩
  | textRef acc => exact .inr (.inl (.inl rfl))
  | attrRef tag name quote value acc => exact .inr (.inl (.inl rfl))
  | comment dashes => exact .inr (.inl (.inl rfl))
  | pi question => exact .inr (.inl (.inl rfl))
  | cdata n => exact .inr (.inl (.inr ⟨n, rfl⟩))
  | attrQuote tag name => exact .inr (.inr (.inl ⟨tag, name, rfl⟩))
  | attrValue tag name quote value => exact .inr (.inr (.inr ⟨tag, name, quote, value, rfl⟩))
  | _ =>
    rw [step_none (by rw [hmode]; rfl) (by rw [hmode]; rfl) (by rw [hmode]; simp) hc] at h
    cases h

private theorem isCalm_isSilent (h : p.mode.isCalm = true) : p.mode.isSilent = true := by
  cases hmode : p.mode <;> rw [hmode] at h <;> first | rfl | cases h

private theorem Settled.raw (hp : Settled p) (htext : ∀ n, p.mode ≠ .text n) :
    p.mode.isSilent = true ∨ ∃ n, p.mode = .cdata n ∧ (p.Spent ∨ '\n' ∈ cs) := by
  cases hp with
  | text n mode spent => exact absurd mode (htext n)
  | cdata mode spent => exact .inr ⟨0, mode, .inl spent⟩
  | calm mode => exact .inl (isCalm_isSilent mode)

private theorem weight_lineFeed {n : ℕ} (hmode : p.mode = .text n) (h : p.step '\n' = some q) :
    Settled q ∧ q.weight ≤ p.treeWeight := by
  have hstep : p.step '\n' = { p with mode := .text 0 }.addChars ['\n'] := by
    rcases p with ⟨mode, stack, root⟩
    subst hmode
    simp [Parser.stepText, Parser.addChars]
  rw [hstep] at h
  obtain ⟨hle, hspent, hmode'⟩ := addChars_spent (.inr (List.mem_singleton_self _)) (by decide) h
  refine ⟨.text 0 hmode' hspent, ?_⟩
  rw [Parser.weight, hmode']
  exact hle

private theorem plainName_cons (htag : PlainName tag) : ∃ c cs, tag = c :: cs ∧ isNameStart c = true := by
  cases tag with
  | nil => cases htag.isName
  | cons c cs =>
    have hname := htag.isName
    rw [isName, Bool.and_eq_true] at hname
    exact ⟨c, cs, rfl, hname.1⟩

private theorem mode_closeElement {name : List Char} (h : p.closeElement name = some q) : q.mode = .text 0 := by
  rcases p with ⟨mode, _ | ⟨f, _ | ⟨g, fs⟩⟩, root⟩
  · cases h
  all_goals
    simp only [Parser.closeElement] at h
    split_ifs at h
    obtain rfl := Option.some.inj h
    rfl

private theorem mode_openElement {t : Tag} (h : p.openElement t = some q) : q.mode = .text 0 := by
  unfold Parser.openElement at h
  split_ifs at h
  obtain rfl := Option.some.inj h
  rfl

/-- An end tag on a line of its own settles what follows, in whatever mode it is read. -/
theorem settled_closeTag (htag : PlainName tag) (h : feed p ('<' :: '/' :: tag ++ ['>'] ++ ['\n']) = some q) :
    Settled q ∧ q.weight ≤ p.weight := by
  have hquiet : ∀ c ∈ '<' :: '/' :: tag ++ ['>'] ++ ['\n'], isQuiet c = true := by
    simp only [List.cons_append, List.mem_cons, List.mem_append, List.not_mem_nil, or_false]
    rintro c (rfl | rfl | (h | rfl) | rfl)
    · decide
    · decide
    · exact htag.quiet c h
    · decide
    · decide
  obtain ⟨m, hm, -⟩ := Option.bind_eq_some_iff.mp (show (p.step '<').bind _ = some q from h)
  rcases mode_of_step (.inl rfl) hm with ⟨n, hmode⟩ | hraw | ⟨t, name, hmode⟩ | ⟨t, name, quote, value, hmode⟩
  · obtain ⟨m', hclose, hline⟩ := feed_append_some.mp h
    obtain ⟨r, hr, hline⟩ := Option.bind_eq_some_iff.mp hline
    obtain rfl := Option.some.inj hline
    rcases p with ⟨mode, stack, root⟩
    subst hmode
    rw [feed_closeTag htag.isName] at hclose
    obtain ⟨hsettled, hle⟩ := weight_lineFeed (mode_closeElement hclose) hr
    have hclosed := weight_closeElement hclose
    exact ⟨hsettled, hle.trans ((Nat.le_add_right _ _).trans hclosed)⟩
  · have hline : '\n' ∈ '<' :: '/' :: tag ++ ['>'] ++ ['\n'] := by simp
    exact raw_feed (hraw.imp_right fun ⟨n, hmode⟩ => ⟨n, hmode, .inr hline⟩) hquiet (by simp) (by simp) h
  · rcases p with ⟨mode, stack, root⟩
    subst hmode
    cases hm
  · -- no value ends here, and behind one a slash would end the tag
    obtain ⟨c, cs, rfl, hc⟩ := plainName_cons htag
    have hgt : c ≠ '>' := isNameChar_ne (by simp [isNameChar, hc]) (by decide)
    rcases p with ⟨mode, stack, root⟩
    subst hmode
    simp only [List.cons_append, feed_cons, step_attrValue, Parser.stepAttrValue] at h
    split_ifs at h
    · cases h
    · simp [Parser.stepInTag, Parser.step, hgt] at h
    · cases h

/-- A start tag adds nothing behind the end of a line. -/
theorem weight_openTag (htag : PlainName tag) (hp : Settled p) (h : feed p ('<' :: tag ++ ['>']) = some q) :
    q.weight ≤ p.weight := by
  have hquiet : ∀ c ∈ '<' :: tag ++ ['>'], isQuiet c = true := by
    simp only [List.cons_append, List.mem_cons, List.mem_append, List.not_mem_nil, or_false]
    rintro c (rfl | h | rfl)
    · decide
    · exact htag.quiet c h
    · decide
  by_cases htext : ∃ n, p.mode = .text n
  · obtain ⟨n, hmode⟩ := htext
    rcases p with ⟨mode, stack, root⟩
    subst hmode
    rw [feed_append, feed_tagName htag.isName, Option.bind_some, feed_cons] at h
    obtain ⟨m, hm, hmq⟩ := Option.bind_eq_some_iff.mp h
    obtain rfl := Option.some.inj hmq
    exact (weight_openElement hm).le
  · exact (raw_feed (hp.raw fun n hn => htext ⟨n, hn⟩) hquiet (by simp) (by simp) h).2

/-- A start tag adds nothing up to the value of its attribute. -/
theorem weight_openQuote (htag : PlainName tag) (hname : PlainName name) (hp : Settled p)
    (h : feed p (('<' :: tag) ++ (' ' :: name) ++ ['=', quotationMark]) = some q) : q.weight ≤ p.weight := by
  have hquiet : ∀ c ∈ ('<' :: tag) ++ (' ' :: name) ++ ['=', quotationMark], isQuiet c = true := by
    simp only [List.cons_append, List.mem_cons, List.mem_append, List.not_mem_nil, or_false]
    rintro c (rfl | (h | rfl | h) | rfl | rfl)
    · decide
    · exact htag.quiet c h
    · decide
    · exact hname.quiet c h
    · decide
    · decide
  by_cases htext : ∃ n, p.mode = .text n
  · obtain ⟨n, hmode⟩ := htext
    rcases p with ⟨mode, stack, root⟩
    subst hmode
    rw [feed_openQuote htag.isName hname.isName] at h
    obtain rfl := Option.some.inj h
    exact Nat.le_refl _
  · exact (raw_feed (hp.raw fun n hn => htext ⟨n, hn⟩) hquiet (by simp) (by simp) h).2

/-- A value in other quotation marks is not over where the next tag begins. -/
theorem attrValue_none {t : Tag} {value : List Char} {quote c : Char} {stack : List Frame} {root : Option Element}
    (hquote : quotationMark ≠ quote) (hc : isNameStart c = true) :
    feed ⟨.attrValue t name quote value, stack, root⟩
      ([quotationMark, '>', '\n'] ++ ('<' :: (c :: cs) ++ ['>'])) = none := by
  have hname : isNameChar c = true := by simp [isNameChar, hc]
  have hgt := isNameChar_ne hname (d := '>') (by decide)
  have hslash := isNameChar_ne hname (d := '/') (by decide)
  have hspace := isNameChar_not_isSpace hname
  obtain ⟨hlt, hamp⟩ : quotationMark ≠ '<' ∧ quotationMark ≠ '&' := by decide
  have hstart : isNameStart '<' = false ∧ isSpace '<' = false ∧ isSpace '\n' = true := by decide
  rcases eq_or_ne quote '>' with rfl | hclose
  · simp [Parser.stepAttrValue, Parser.stepInTag, hlt, hamp, hquote, hstart]
  rcases eq_or_ne quote '\n' with rfl | hline
  · simp [Parser.stepAttrValue, Parser.stepInTag, hlt, hamp, hquote, hstart]
  rcases eq_or_ne quote '<' with rfl | hbegin
  · simp [Parser.stepAttrValue, Parser.stepInTag, hlt, hamp, hgt, hslash, hspace]
  · simp [Parser.stepAttrValue, hlt, hamp, hquote, Ne.symm hclose, Ne.symm hline, Ne.symm hbegin]

/-- The end of an attribute, and of its tag, adds nothing if another tag follows. -/
theorem weight_closeQuote (htag : PlainName tag)
    (h : feed p ([quotationMark, '>', '\n'] ++ ('<' :: tag ++ ['>'])) = some q) : q.weight ≤ p.weight := by
  obtain ⟨m, hm, hopen⟩ := feed_append_some.mp h
  obtain ⟨r, hr, -⟩ := Option.bind_eq_some_iff.mp (show (p.step quotationMark).bind _ = some m from hm)
  suffices hsettled : Settled m ∧ m.weight ≤ p.weight from (weight_openTag htag hsettled.1 hopen).trans hsettled.2
  rcases mode_of_step (.inr rfl) hr with ⟨n, hmode⟩ | hraw | ⟨t, name, hmode⟩ | ⟨t, name, quote, value, hmode⟩
  · have hfeed : feed p [quotationMark, '>', '\n'] =
        { p with mode := .text 0 }.addChars [quotationMark, '>', '\n'] := by
      rcases p with ⟨mode, _ | ⟨f, fs⟩, root⟩ <;> subst hmode <;> rfl
    rw [hfeed] at hm
    obtain ⟨hle, hspent, hmode'⟩ := addChars_spent (.inr (by decide)) (by decide) hm
    refine ⟨.text 0 hmode' hspent, ?_⟩
    rw [Parser.weight, hmode']
    exact hle.trans (Nat.le_add_right _ _)
  · have hquiet : [quotationMark, '>', '\n'].all isQuiet = true := by decide
    exact raw_feed (hraw.imp_right fun ⟨n, hmode⟩ => ⟨n, hmode, .inr (by decide)⟩) (List.all_eq_true.mp hquiet)
      (by decide) (by decide) hm
  · -- the value that begins here is not over where the tag begins
    rcases p with ⟨mode, stack, root⟩
    subst hmode
    obtain rfl : ⟨.attrValue t name quotationMark ['>', ' '], stack, root⟩ = m := Option.some.inj hm
    cases hopen
  · rcases p with ⟨mode, stack, root⟩
    subst hmode
    by_cases hquote : quote = quotationMark
    · subst hquote
      simp only [feed_cons, step_attrValue, Parser.stepAttrValue, if_true] at hm
      split_ifs at hm with hdup
      · cases hm
      · rw [Option.bind_some] at hm
        obtain ⟨l, hl, hline⟩ := Option.bind_eq_some_iff.mp hm
        obtain ⟨k, hk, hkm⟩ := Option.bind_eq_some_iff.mp hline
        obtain rfl := Option.some.inj hkm
        have hweight := weight_openElement hl
        obtain ⟨hsettled, hle⟩ := weight_lineFeed (mode_openElement hl) hk
        refine ⟨hsettled, hle.trans ((Nat.le_add_right _ _).trans (hweight.le.trans ?_))⟩
        rw [attribWeight_snoc]
        exact Nat.le_refl _
    · -- the other quotation mark could end the value, but then no tag may begin
      obtain ⟨c, cs, rfl, hc⟩ := plainName_cons htag
      rw [attrValue_none (Ne.symm hquote) hc] at h
      cases h

end lines
end Roofline.Library.Xml
