import Roofline.Library.Xml

/-! The texts of an element that is read hold characters that a document may contain, and no
others: characters that are given by references are checked, too. -/
namespace Roofline.Library.Xml

mutual

/-- The texts of an element and of what is in it. -/
def Element.charData : Element → List Char
  | ⟨_, _, text, children⟩ => (text.getD "").toList ++ childrenData children

def childrenData : List Element → List Char
  | [] => []
  | e :: es => e.charData ++ childrenData es

end

def Frame.charData (f : Frame) : List Char := f.text ++ childrenData f.children

namespace Parser

def charData (p : Parser) : List Char := p.stack.flatMap Frame.charData ++ p.root.elim [] Element.charData

/-- What is read so far holds characters of a document. -/
def Valid (p : Parser) : Prop := ∀ c ∈ p.charData, isChar c = true

end Parser

private theorem childrenData_append (es es' : List Element) :
    childrenData (es ++ es') = childrenData es ++ childrenData es' := by
  induction es with
  | nil => rfl
  | cons e es ih => rw [List.cons_append, childrenData, ih, childrenData, List.append_assoc]

theorem mem_childrenData {e : Element} {es : List Element} (he : e ∈ es) {c : Char} (hc : c ∈ e.charData) :
    c ∈ childrenData es := by
  induction es with
  | nil => cases he
  | cons e' es ih =>
    rw [childrenData, List.mem_append]
    rcases List.mem_cons.mp he with rfl | he
    · exact .inl hc
    · exact .inr (ih he)

private theorem charData_element (f : Frame) : f.element.charData = f.charData := by
  rw [Frame.element, Element.charData, Frame.charData]
  split_ifs with hempty
  · rw [hempty]
    rfl
  · rw [Option.getD_some, String.toList_ofList]

private theorem mem_addChar {f : Frame} {c d : Char} (h : d ∈ (f.addChar c).charData) : d = c ∨ d ∈ f.charData := by
  unfold Frame.addChar at h
  split at h
  · simp only [Frame.charData, List.mem_append, List.mem_singleton] at h ⊢
    tauto
  · exact .inr h

section step
variable {p q : Parser} {c : Char} {cs : List Char}

private theorem valid_addChar (hp : p.Valid) (hc : isChar c = true) (h : p.addChar c = some q) : q.Valid := by
  rcases p with ⟨mode, _ | ⟨f, fs⟩, root⟩
  · simp only [Parser.addChar] at h
    split_ifs at h
    obtain rfl := Option.some.inj h
    exact hp
  · obtain rfl := Option.some.inj h
    intro d hd
    simp only [Parser.charData, List.flatMap_cons, List.mem_append] at hd
    rcases hd with (hd | hd) | hd
    · rcases mem_addChar hd with rfl | hd
      · exact hc
      · exact hp d (by simp [Parser.charData, hd])
    · exact hp d (by simp only [Parser.charData, List.flatMap_cons, List.mem_append]; tauto)
    · exact hp d (by simp only [Parser.charData, List.flatMap_cons, List.mem_append]; tauto)

private theorem valid_addChars (hp : p.Valid) (hcs : ∀ c ∈ cs, isChar c = true) (h : p.addChars cs = some q) :
    q.Valid := by
  induction cs generalizing p with
  | nil =>
    obtain rfl := Option.some.inj h
    exact hp
  | cons c cs ih =>
    rw [Parser.addChars, List.foldlM_cons] at h
    obtain ⟨m, hm, hrest⟩ := Option.bind_eq_some_iff.mp h
    rw [List.forall_mem_cons] at hcs
    exact ih (valid_addChar hp hcs.1 hm) hcs.2 hrest

private theorem valid_openElement {tag : Tag} (hp : p.Valid) (h : p.openElement tag = some q) : q.Valid := by
  unfold Parser.openElement at h
  split_ifs at h
  obtain rfl := Option.some.inj h
  exact hp

private theorem valid_closeElement {name : List Char} (hp : p.Valid) (h : p.closeElement name = some q) : q.Valid := by
  rcases p with ⟨mode, _ | ⟨f, _ | ⟨g, fs⟩⟩, root⟩
  · cases h
  · simp only [Parser.closeElement] at h
    split_ifs at h
    obtain rfl := Option.some.inj h
    intro d hd
    apply hp
    simpa [Parser.charData, charData_element] using Or.inl hd
  · simp only [Parser.closeElement] at h
    split_ifs at h
    obtain rfl := Option.some.inj h
    intro d hd
    apply hp
    simp only [Parser.charData, List.flatMap_cons, List.mem_append, Frame.charData, Frame.addChildren,
      childrenData_append, childrenData, charData_element, List.append_nil] at hd ⊢
    tauto

/-- The characters of references are checked. -/
theorem isChar_decodeRef {acc : List Char} (h : decodeRef acc = some c) : isChar c = true := by
  have hreference {n : ℕ} (h : characterReference n = some c) : isChar c = true := by
    unfold characterReference at h
    split_ifs at h with hvalid
    obtain rfl := Option.some.inj h
    exact hvalid.2
  unfold decodeRef at h
  split at h
  · cases h; rfl
  · cases h; rfl
  · cases h; rfl
  · cases h; rfl
  · cases h; rfl
  · obtain ⟨n, -, hn⟩ := Option.bind_eq_some_iff.mp h
    exact hreference hn
  · obtain ⟨n, -, hn⟩ := Option.bind_eq_some_iff.mp h
    exact hreference hn
  · cases h

private theorem valid_stepText {n : ℕ} (hp : p.Valid) (hc : isChar c = true) (h : p.stepText n c = some q) :
    q.Valid := by
  unfold Parser.stepText at h
  split_ifs at h
  · obtain rfl := Option.some.inj h
    exact hp
  · obtain rfl := Option.some.inj h
    exact hp
  all_goals
    refine valid_addChar ?_ hc h
    exact hp

private theorem valid_stepCdata {n : ℕ} (hp : p.Valid) (hc : isChar c = true) (h : p.stepCdata n c = some q) :
    q.Valid := by
  have hbracket : isChar ']' = true := rfl
  unfold Parser.stepCdata at h
  split_ifs at h
  · obtain rfl := Option.some.inj h
    exact hp
  · exact valid_addChar hp hbracket h
  · obtain rfl := Option.some.inj h
    exact hp
  · refine valid_addChars ?_ ?_ h
    · exact hp
    intro d hd
    rcases List.mem_append.mp hd with hd | hd
    · rw [List.eq_of_mem_replicate hd]
      exact hbracket
    · rw [List.mem_singleton.mp hd]
      exact hc

/-- A character of text is kept, and everything else only changes what is being read. -/
theorem valid_step (hp : p.Valid) (hc : isChar c = true) (h : p.step c = some q) : q.Valid := by
  rcases p with ⟨mode, stack, root⟩
  cases mode with
  | text n => exact valid_stepText hp hc h
  | cdata n => exact valid_stepCdata hp hc h
  | textRef acc =>
    simp only [Parser.step] at h
    split_ifs at h
    · obtain ⟨d, hd, hchar⟩ := Option.bind_eq_some_iff.mp h
      refine valid_addChar ?_ (isChar_decodeRef hd) hchar
      exact hp
    · obtain rfl := Option.some.inj h
      exact hp
  | attrRef tag name quote value acc =>
    simp only [Parser.step] at h
    split_ifs at h
    · obtain ⟨d, -, rfl⟩ := Option.map_eq_some_iff.mp h
      exact hp
    · obtain rfl := Option.some.inj h
      exact hp
  | startTag acc =>
    simp only [Parser.step, Parser.stepStartTag] at h
    split_ifs at h
    · exact valid_openElement hp h
    all_goals
      obtain rfl := Option.some.inj h
      exact hp
  | inTag tag spaced =>
    simp only [Parser.step, Parser.stepInTag] at h
    split_ifs at h
    · exact valid_openElement hp h
    all_goals
      obtain rfl := Option.some.inj h
      exact hp
  | emptyTag tag =>
    simp only [Parser.step] at h
    split_ifs at h
    obtain ⟨m, hm, hclose⟩ := Option.bind_eq_some_iff.mp h
    exact valid_closeElement (valid_openElement hp hm) hclose
  | endTag acc =>
    simp only [Parser.step, Parser.stepEndTag] at h
    split_ifs at h
    · exact valid_closeElement hp h
    all_goals
      obtain rfl := Option.some.inj h
      exact hp
  | endTagSpace name =>
    simp only [Parser.step] at h
    split_ifs at h
    · exact valid_closeElement hp h
    · obtain rfl := Option.some.inj h
      exact hp
  | _ =>
    simp only [Parser.step, Parser.stepMarkup, Parser.stepBang, Parser.stepPiTarget, Parser.stepAttrName,
      Parser.stepAttrValue] at h
    split_ifs at h <;> obtain rfl := Option.some.inj h <;> exact hp

private theorem valid_feed (hp : p.Valid) (hcs : ∀ c ∈ cs, isChar c = true) (h : feed p cs = some q) : q.Valid := by
  induction cs generalizing p with
  | nil =>
    obtain rfl := Option.some.inj h
    exact hp
  | cons c cs ih =>
    obtain ⟨m, hm, hrest⟩ := Option.bind_eq_some_iff.mp h
    rw [List.forall_mem_cons] at hcs
    exact ih (valid_step hp hcs.1 hm) hcs.2 hrest

private theorem valid_finish {e : Element} (hp : p.Valid) (h : p.finish = some e) :
    ∀ c ∈ e.charData, isChar c = true := by
  intro c hc
  obtain ⟨mode, stack, root⟩ := p
  unfold Parser.finish at h
  split at h
  · simp only at h
    subst h
    exact hp c (List.mem_append_right _ hc)
  · cases h

end step

/-- The texts of a document that is read hold characters of a document. -/
theorem isChar_charData {doc : String} {e : Element} (h : parse doc = some e) :
    ∀ c ∈ e.charData, isChar c = true := by
  have hread (cs : List Char) (hcs : ∀ c ∈ cs, isChar c = true)
      (h : (feed blank (lineEnds false cs)).bind Parser.finish = some e) : ∀ c ∈ e.charData, isChar c = true := by
    obtain ⟨q, hq, hroot⟩ := Option.bind_eq_some_iff.mp h
    refine valid_finish (valid_feed ?_ ?_ hq) hroot
    · exact fun c hc => absurd hc List.not_mem_nil
    · intro c hc
      by_cases hfeed : c = '\n'
      · subst hfeed
        rfl
      · exact hcs c (mem_lineEnds hfeed hc)
  rw [parse, parseChars] at h
  split_ifs at h with hdoc
  · rw [List.all_eq_true] at hdoc
    exact hread _ (fun c hc => hdoc c (List.mem_of_mem_drop hc)) h
  · rw [List.all_eq_true] at hdoc
    exact hread _ hdoc h

end Roofline.Library.Xml
