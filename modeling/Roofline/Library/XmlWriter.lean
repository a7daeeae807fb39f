import Roofline.Library.XmlNodes
import Roofline.Library.Numerals

/-! Elements written by Python's ElementTree: markup in a string is escaped, and the document is
encoded in ASCII, with references for all other characters. What is read back from an element
without attributes is the element with the line ends of its texts normalized. -/
namespace Roofline.Library.Xml

/-- The error handler xmlcharrefreplace. -/
def asciiChar (c : Char) : List Char :=
  if c.toNat < 128 then [c] else '&' :: '#' :: ((toString c.toNat).toList ++ [';'])

def encodeAscii (cs : List Char) : List Char := cs.flatMap asciiChar

/-- A character of a text. -/
def escapeChar (c : Char) : List Char :=
  if c = '&' then "&amp;".toList
  else if c = '<' then "&lt;".toList
  else if c = '>' then "&gt;".toList
  else [c]

def escapeText (cs : List Char) : List Char := cs.flatMap escapeChar

def escapeAttrChar (c : Char) : List Char :=
  if c = quotationMark then "&quot;".toList
  else if c = '\r' then "&#13;".toList
  else if c = '\n' then "&#10;".toList
  else if c = '\t' then "&#09;".toList
  else escapeChar c

def writeAttrib (attrib : List (String × String)) : List Char :=
  attrib.flatMap fun a =>
    ' ' :: a.1.toList ++ ['=', quotationMark] ++ a.2.toList.flatMap escapeAttrChar ++ [quotationMark]

mutual

/-- An element as it is written; behind each of its children comes a line feed, as in the
documents of record. -/
def Element.write : Element → List Char
  | ⟨tag, attrib, text, children⟩ =>
    '<' :: tag.toList ++ writeAttrib attrib ++
      if text.getD "" = "" ∧ children = [] then [' ', '/', '>']
      else ['>'] ++ escapeText (text.getD "").toList ++ writeChildren children ++ ('<' :: '/' :: tag.toList ++ ['>'])

def writeChildren : List Element → List Char
  | [] => []
  | e :: es => e.write ++ '\n' :: writeChildren es

end

/-- tree.write(path), with the default encoding. -/
def writeTree (root : Element) : String := String.ofList (encodeAscii root.write)

section encoding
variable {cs : List Char} {c : Char}

private theorem encodeAscii_append (a b : List Char) : encodeAscii (a ++ b) = encodeAscii a ++ encodeAscii b :=
  List.flatMap_append

private theorem encodeAscii_ascii (h : cs.all fun c => c.toNat < 128) : encodeAscii cs = cs := by
  induction cs with
  | nil => rfl
  | cons c cs ih =>
    rw [List.all_cons, Bool.and_eq_true, decide_eq_true_eq] at h
    rw [encodeAscii, List.flatMap_cons, asciiChar, if_pos h.1, ← encodeAscii, ih h.2]
    rfl

private theorem foldlM_digits (h : ∀ c ∈ cs, c.isDigit = true) (n : ℕ) :
    cs.foldlM (fun n c => (digitValue 10 c).map (10 * n + ·)) n = some (Nat.ofDigitChars 10 cs n) := by
  induction cs generalizing n with
  | nil => rfl
  | cons c cs ih =>
    rw [List.forall_mem_cons] at h
    have hlow : 48 ≤ c.toNat := (of_decide_eq_true (Bool.and_eq_true_iff.mp h.1).1 : 48 ≤ c.val)
    have hhigh : c.toNat ≤ 57 := (of_decide_eq_true (Bool.and_eq_true_iff.mp h.1).2 : c.val ≤ 57)
    have hvalue : digitValue 10 c = some (c.toNat - 48) := by
      simp only [digitValue, h.1, if_true]
      exact if_pos (by omega)
    rw [List.foldlM_cons, hvalue]
    exact ih h.2 _

private theorem number_numeral (n : ℕ) : number 10 (toString n).toList = some n := by
  rw [number, if_neg (numeral_ne_nil n), foldlM_digits (fun c hc => isDigit_numeral hc), Nat.toString_eq_repr,
    Nat.toList_repr,
    Nat.ofDigitChars_ten_toDigits]

private theorem decodeRef_numeral (hc : isChar c = true) : decodeRef ('#' :: (toString c.toNat).toList) = some c := by
  have hreference : characterReference c.toNat = some c := by
    rw [characterReference, Char.ofNat_toNat]
    exact if_pos ⟨c.valid, hc⟩
  have hnumber := number_numeral c.toNat
  have hdigits : ∀ d ∈ (toString c.toNat).toList, d.isDigit = true := fun d hd => isDigit_numeral hd
  cases h : (toString c.toNat).toList with
  | nil =>
    rw [h] at hnumber
    cases hnumber
  | cons d ds =>
    rw [h] at hnumber hdigits
    have hd : d ≠ 'x' := by
      rintro rfl
      exact absurd (hdigits 'x' List.mem_cons_self) (by decide)
    simp [decodeRef, hd, hnumber, hreference]

end encoding

section texts
variable {f : Frame} {fs : List Frame} {root : Option Element} {n : ℕ} {cs : List Char} {c : Char}

private theorem feed_textRef (acc : List Char) (h : ';' ∉ cs) :
    feed ⟨.textRef acc, f :: fs, root⟩ cs = some ⟨.textRef (acc ++ cs), f :: fs, root⟩ := by
  induction cs generalizing acc with
  | nil => simp
  | cons c cs ih =>
    rw [List.mem_cons, not_or] at h
    have hstep : Parser.step ⟨.textRef acc, f :: fs, root⟩ c = some ⟨.textRef (acc ++ [c]), f :: fs, root⟩ :=
      if_neg (Ne.symm h.1)
    rw [feed_cons, hstep, Option.bind_some, ih _ h.2, List.append_assoc]
    rfl

private theorem feed_reference (hcs : ';' ∉ cs) (hc : decodeRef cs = some c) :
    feed ⟨.text n, f :: fs, root⟩ ('&' :: (cs ++ [';'])) = some ⟨.text 0, f.addChar c :: fs, root⟩ := by
  have hamp : Parser.step ⟨.text n, f :: fs, root⟩ '&' = some ⟨.textRef [], f :: fs, root⟩ := rfl
  have hend : Parser.step ⟨.textRef cs, f :: fs, root⟩ ';' = some ⟨.text 0, f.addChar c :: fs, root⟩ := by
    simp [Parser.step, hc, Parser.addChar]
  rw [feed_cons, hamp, Option.bind_some, feed_append, feed_textRef [] hcs, List.nil_append, Option.bind_some, feed_cons,
    hend]
  rfl

/-- A character of a text is read as it was before it was escaped. -/
theorem feed_escapeChar (n : ℕ) (f : Frame) (fs : List Frame) (root : Option Element) (hc : isChar c = true) :
    ∃ m, feed ⟨.text n, f :: fs, root⟩ (encodeAscii (escapeChar c)) = some ⟨.text m, f.addChar c :: fs, root⟩ := by
  rw [escapeChar]
  split_ifs with hamp hlt hgt
  · subst hamp
    exact ⟨0, feed_reference (by decide : ';' ∉ "amp".toList) rfl⟩
  · subst hlt
    exact ⟨0, feed_reference (by decide : ';' ∉ "lt".toList) rfl⟩
  · subst hgt
    exact ⟨0, feed_reference (by decide : ';' ∉ "gt".toList) rfl⟩
  · rw [encodeAscii, List.flatMap_singleton, asciiChar]
    split_ifs with hascii
    · refine ⟨if c = ']' then n + 1 else 0, ?_⟩
      simp [Parser.stepText, hamp, hlt, hgt, Parser.addChar]
    · have hsemicolon : ';' ∉ '#' :: (toString c.toNat).toList := by
        rw [List.mem_cons, not_or]
        exact ⟨by decide, fun h => absurd (isDigit_numeral h) (by decide)⟩
      exact ⟨0, feed_reference hsemicolon (decodeRef_numeral hc)⟩

private theorem feed_escapeText (n : ℕ) (f : Frame) (fs : List Frame) (root : Option Element)
    (hcs : cs.all isChar = true) :
    ∃ m, feed ⟨.text n, f :: fs, root⟩ (encodeAscii (escapeText cs)) = some ⟨.text m, f.addText cs :: fs, root⟩ := by
  induction cs generalizing n f with
  | nil => exact ⟨n, rfl⟩
  | cons c cs ih =>
    rw [List.all_cons, Bool.and_eq_true] at hcs
    obtain ⟨m, hm⟩ := feed_escapeChar n f fs root hcs.1
    obtain ⟨m', hm'⟩ := ih m (f.addChar c) hcs.2
    refine ⟨m', ?_⟩
    rw [escapeText, List.flatMap_cons, encodeAscii_append, feed_append, hm, Option.bind_some, ← escapeText, hm']
    rfl

end texts

section lineEnds
variable {cs : List Char} {c d : Char}

/-- What is written for a character is the character itself, or a reference, which is on one line. -/
theorem mem_escapeChar (hd : d = '\r' ∨ d = '\n') (h : d ∈ encodeAscii (escapeChar c)) : d = c := by
  have hmarkup : d ∉ "&amp;".toList ∧ d ∉ "&lt;".toList ∧ d ∉ "&gt;".toList := by
    rcases hd with rfl | rfl <;> decide
  have hnumeral : d ∉ '&' :: '#' :: ((toString c.toNat).toList ++ [';']) := by
    rw [List.mem_cons, List.mem_cons, List.mem_append, List.mem_singleton]
    rintro (rfl | rfl | hdigit | rfl)
    · rcases hd with h | h <;> cases h
    · rcases hd with h | h <;> cases h
    · have hdigit := isDigit_numeral hdigit
      rcases hd with rfl | rfl <;> cases hdigit
    · rcases hd with h | h <;> cases h
  rw [escapeChar] at h
  split_ifs at h
  · rw [encodeAscii_ascii (by decide)] at h
    exact absurd h hmarkup.1
  · rw [encodeAscii_ascii (by decide)] at h
    exact absurd h hmarkup.2.1
  · rw [encodeAscii_ascii (by decide)] at h
    exact absurd h hmarkup.2.2
  · rw [encodeAscii, List.flatMap_singleton, asciiChar] at h
    split_ifs at h
    · exact List.mem_singleton.mp h
    · exact absurd h hnumeral

private theorem escapeChar_ne_nil (c : Char) : encodeAscii (escapeChar c) ≠ [] := by
  rw [escapeChar]
  split_ifs
  · decide
  · decide
  · decide
  · rw [encodeAscii, List.flatMap_singleton, asciiChar]
    split_ifs <;> exact List.cons_ne_nil _ _

private theorem lineEnds_word {cr : Bool} (hne : cs ≠ []) (hcr : '\r' ∉ cs) (hfeed : cr = true → '\n' ∉ cs)
    (rest : List Char) :
    lineEnds cr (cs ++ rest) = cs ++ lineEnds false rest := by
  cases cs with
  | nil => exact absurd rfl hne
  | cons c cs =>
    rw [List.mem_cons, not_or] at hcr
    have hc : ¬ (c = '\n' ∧ cr = true) := by
      rintro ⟨rfl, hflag⟩
      exact hfeed hflag List.mem_cons_self
    rw [List.cons_append, lineEnds, if_neg (Ne.symm hcr.1), if_neg hc, lineEnds_clean_append hcr.2]
    rfl

/-- Line ends are normalized in what is written just as in the text. -/
theorem lineEnds_escapeText (cr : Bool) (cs : List Char) :
    lineEnds cr (encodeAscii (escapeText cs)) = encodeAscii (escapeText (lineEnds cr cs)) := by
  induction cs generalizing cr with
  | nil => rfl
  | cons c cs ih =>
    have hcons (c : Char) (cs : List Char) :
        encodeAscii (escapeText (c :: cs)) = encodeAscii (escapeChar c) ++ encodeAscii (escapeText cs) := by
      rw [escapeText, List.flatMap_cons, encodeAscii_append]
      rfl
    rw [hcons]
    by_cases hcr : c = '\r'
    · subst hcr
      rw [lineEnds, if_pos rfl, hcons, ← ih]
      rfl
    · by_cases hfeed : c = '\n' ∧ cr = true
      · obtain ⟨rfl, rfl⟩ := hfeed
        exact ih false
      · rw [lineEnds, if_neg hcr, if_neg hfeed, hcons, ← ih]
        apply lineEnds_word (escapeChar_ne_nil c)
        · exact fun h => hcr (mem_escapeChar (.inl rfl) h).symm
        · exact fun hcr' h => hfeed ⟨(mem_escapeChar (.inr rfl) h).symm, hcr'⟩

end lineEnds

/-- Names in ASCII, which are written as they are. -/
structure AsciiName (tag : List Char) : Prop where
  isName : isName tag = true
  ascii : tag.all (fun c => c.toNat < 128) = true

mutual

/-- An element without attributes that can be written and read back. -/
def Element.Bare : Element → Prop
  | ⟨tag, attrib, text, children⟩ => AsciiName tag.toList ∧ attrib = [] ∧ text ≠ some "" ∧
      (text.getD "").toList.all isChar = true ∧ AllBare children

def AllBare : List Element → Prop
  | [] => True
  | e :: es => e.Bare ∧ AllBare es

end

def normalText (text : String) : String := String.ofList (lineEnds false text.toList)

mutual

/-- An element with the line ends of its texts normalized. -/
def Element.lineEnded : Element → Element
  | ⟨tag, attrib, text, children⟩ => ⟨tag, attrib, text.map normalText, allLineEnded children⟩

def allLineEnded : List Element → List Element
  | [] => []
  | e :: es => e.lineEnded :: allLineEnded es

end

theorem allBare_iff {es : List Element} : AllBare es ↔ ∀ e ∈ es, e.Bare := by
  induction es with
  | nil => simp [AllBare]
  | cons e es ih => rw [AllBare, ih, List.forall_mem_cons]

theorem allLineEnded_eq_map (es : List Element) : allLineEnded es = es.map Element.lineEnded := by
  induction es with
  | nil => rfl
  | cons e es ih => rw [allLineEnded, ih, List.map_cons]

section trees
variable {tag : List Char} {fs : List Frame} {n : ℕ}

def Element.frame (e : Element) : Frame := ⟨e.tag.toList, [], (e.text.getD "").toList, e.children⟩

private theorem frame_element {e : Element} (he : e.Bare) : e.frame.element = e := by
  obtain ⟨tag, attrib, text, children⟩ := e
  obtain ⟨-, rfl, htext, -⟩ := he
  cases text with
  | none => simp [Element.frame, Frame.element]
  | some text =>
    have hne : text ≠ "" := fun h => htext (congrArg some h)
    simp [Element.frame, Frame.element, hne]

private theorem feed_emptyTag (htag : isName tag = true) :
    feed ⟨.text n, fs, none⟩ ('<' :: tag ++ [' ', '/', '>']) =
      Parser.closeElement ⟨.text 0, ⟨tag, [], [], []⟩ :: fs, none⟩ tag := by
  have hspace : Parser.step ⟨.startTag tag, fs, none⟩ ' ' = some ⟨.inTag ⟨tag, []⟩ true, fs, none⟩ := rfl
  have hslash : Parser.step ⟨.inTag ⟨tag, []⟩ true, fs, none⟩ '/' = some ⟨.emptyTag ⟨tag, []⟩, fs, none⟩ := rfl
  have hopen : Parser.openElement ⟨.emptyTag ⟨tag, []⟩, fs, none⟩ ⟨tag, []⟩ =
      some ⟨.text 0, ⟨tag, [], [], []⟩ :: fs, none⟩ := by simp [Parser.openElement]
  have hend : Parser.step ⟨.emptyTag ⟨tag, []⟩, fs, none⟩ '>' =
      Parser.closeElement ⟨.text 0, ⟨tag, [], [], []⟩ :: fs, none⟩ tag := congrArg (Option.bind · _) hopen
  rw [feed_append, feed_tagName htag, Option.bind_some, feed_cons, hspace, Option.bind_some, feed_cons, hslash,
    Option.bind_some, feed_cons, hend]
  simp only [feed_nil, Option.bind_fun_some]

/-- An element is written as an empty tag, or with a start tag and an end tag. -/
theorem encode_write {tag : String} (htag : AsciiName tag.toList) (text : Option String) (children : List Element) :
    encodeAscii (Element.write ⟨tag, [], text, children⟩) =
      if text.getD "" = "" ∧ children = [] then '<' :: tag.toList ++ [' ', '/', '>']
      else ('<' :: tag.toList ++ ['>']) ++ (encodeAscii (escapeText (text.getD "").toList) ++
        (encodeAscii (writeChildren children) ++ ('<' :: '/' :: tag.toList ++ ['>']))) := by
  have hname : encodeAscii tag.toList = tag.toList := encodeAscii_ascii htag.ascii
  have hwrite : Element.write ⟨tag, [], text, children⟩ =
      if text.getD "" = "" ∧ children = [] then ['<'] ++ tag.toList ++ [' ', '/', '>']
      else (['<'] ++ tag.toList ++ ['>']) ++ (escapeText (text.getD "").toList ++
        (writeChildren children ++ (['<', '/'] ++ tag.toList ++ ['>']))) := by
    rw [Element.write]
    split_ifs <;> simp [writeAttrib]
  rw [hwrite]
  split_ifs
  · simp only [encodeAscii_append, hname]
    rfl
  · simp only [encodeAscii_append, hname]
    rfl

private theorem encode_writeChildren (e : Element) (es : List Element) :
    encodeAscii (writeChildren (e :: es)) = encodeAscii e.write ++ (['\n'] ++ encodeAscii (writeChildren es)) := by
  rw [writeChildren, encodeAscii_append]
  rfl

mutual

/-- The reader has the frame of an element when it comes to the element's end. -/
theorem feed_write (e : Element) (he : e.Bare) (n : ℕ) (fs : List Frame) :
    feed ⟨.text n, fs, none⟩ (encodeAscii e.write) =
      Parser.closeElement ⟨.text 0, e.frame :: fs, none⟩ e.tag.toList := by
  obtain ⟨tag, attrib, text, children⟩ := e
  obtain ⟨htag, rfl, htext, hchars, hchildren⟩ := he
  rw [encode_write htag]
  split_ifs with hempty
  · rw [feed_emptyTag htag.isName]
    simp only [Element.frame, hempty]
    rfl
  · obtain ⟨m, hm⟩ := feed_escapeText 0 ⟨tag.toList, [], [], []⟩ fs none hchars
    obtain ⟨m', hm'⟩ := feed_writeChildren children hchildren m ⟨tag.toList, [], (text.getD "").toList, []⟩ fs
    rw [Frame.addText_fresh, List.nil_append] at hm
    rw [feed_append, feed_openTag htag.isName, Option.bind_some, feed_append, hm, Option.bind_some, feed_append, hm',
      Option.bind_some, feed_closeTag htag.isName]
    rfl

private theorem feed_writeChildren (es : List Element) (hes : AllBare es) (n : ℕ) (f : Frame) (fs : List Frame) :
    ∃ m, feed ⟨.text n, f :: fs, none⟩ (encodeAscii (writeChildren es)) =
      some ⟨.text m, f.addChildren es :: fs, none⟩ := by
  cases es with
  | nil => exact ⟨n, by simp [writeChildren, encodeAscii]⟩
  | cons e es =>
    obtain ⟨he, hes⟩ := hes
    obtain ⟨m, hm⟩ := feed_writeChildren es hes 0 (f.addChildren [e]) fs
    refine ⟨m, ?_⟩
    rw [encode_writeChildren, feed_append, feed_write e he, closeElement_child (by rfl), Option.bind_some, feed_append,
      feed_lineFeed, Frame.addText_addChildren f (List.cons_ne_nil _ _), Option.bind_some, frame_element he, hm,
      Frame.addChildren_addChildren]
    rfl

end

private theorem exists_lt (children : List Element) (hchildren : AllBare children) (rest : List Char) :
    ∃ tail, encodeAscii (writeChildren children) ++ '<' :: rest = '<' :: tail := by
  cases children with
  | nil => exact ⟨rest, rfl⟩
  | cons e es =>
    obtain ⟨tag, attrib, text, children⟩ := e
    obtain ⟨⟨htag, rfl, -⟩, -⟩ := hchildren
    rw [encode_writeChildren, encode_write htag]
    split_ifs <;> exact ⟨_, rfl⟩

private theorem cr_not_mem_tag (htag : AsciiName tag) : '\r' ∉ tag := cr_not_mem_of_isClean (isClean_name htag.isName)

private theorem normalText_getD (text : Option String) :
    ((text.map normalText).getD "").toList = lineEnds false (text.getD "").toList := by
  cases text with
  | none => rfl
  | some text => simp [normalText]

theorem lineEnds_eq_nil {cs : List Char} : lineEnds false cs = [] ↔ cs = [] := by
  cases cs with
  | nil => simp [lineEnds]
  | cons c cs =>
    simp only [lineEnds, reduceCtorEq, iff_false]
    split_ifs <;> simp_all

mutual

theorem Element.Bare.lineEnded (e : Element) (he : e.Bare) : e.lineEnded.Bare := by
  obtain ⟨tag, attrib, text, children⟩ := e
  obtain ⟨htag, rfl, htext, hchars, hchildren⟩ := he
  refine ⟨htag, rfl, ?_, ?_, AllBare.lineEnded children hchildren⟩
  · intro h
    obtain ⟨text', rfl, hnormal⟩ := Option.map_eq_some_iff.mp h
    have hnil : lineEnds false text'.toList = [] := by
      rw [← String.toList_ofList (l := lineEnds false text'.toList)]
      exact congrArg String.toList hnormal
    exact htext (congrArg some (String.toList_eq_nil_iff.mp (lineEnds_eq_nil.mp hnil)))
  · rw [normalText_getD, List.all_eq_true]
    intro c hc
    by_cases hfeed : c = '\n'
    · subst hfeed
      rfl
    · exact List.all_eq_true.mp hchars c (mem_lineEnds hfeed hc)

theorem AllBare.lineEnded (es : List Element) (hes : AllBare es) : AllBare (allLineEnded es) := by
  cases es with
  | nil => trivial
  | cons e es => exact ⟨Element.Bare.lineEnded e hes.1, AllBare.lineEnded es hes.2⟩

end

mutual

/-- The line ends of a written element are those of its texts. -/
theorem lineEnds_write (e : Element) (he : e.Bare) (rest : List Char) :
    lineEnds false (encodeAscii e.write ++ rest) = encodeAscii e.lineEnded.write ++ lineEnds false rest := by
  obtain ⟨tag, attrib, text, children⟩ := e
  obtain ⟨htag, rfl, htext, hchars, hchildren⟩ := he
  have hcr := cr_not_mem_tag htag
  have hempty : (text.map normalText).getD "" = "" ∧ allLineEnded children = [] ↔
      text.getD "" = "" ∧ children = [] := by
    rw [← String.toList_eq_nil_iff, normalText_getD, lineEnds_eq_nil, String.toList_eq_nil_iff]
    cases children <;> simp [allLineEnded]
  rw [Element.lineEnded, encode_write htag, encode_write htag]
  simp only [hempty]
  split_ifs
  · exact lineEnds_clean_append (by simp [hcr]) rest
  · obtain ⟨tail, htail⟩ : ∃ tail,
        encodeAscii (writeChildren children) ++ (('<' :: '/' :: tag.toList ++ ['>']) ++ rest) = '<' :: tail :=
      exists_lt children hchildren ('/' :: tag.toList ++ ['>'] ++ rest)
    rw [List.append_assoc, lineEnds_clean_append (by simp [hcr]), List.append_assoc,
      List.append_assoc, List.append_assoc (encodeAscii (writeChildren children)), htail,
      lineEnds_append_cons false _ (by decide), ← htail, lineEnds_writeChildren children hchildren,
      lineEnds_clean_append (by simp [hcr]), lineEnds_escapeText, normalText_getD]
    simp

private theorem lineEnds_writeChildren (es : List Element) (hes : AllBare es) (rest : List Char) :
    lineEnds false (encodeAscii (writeChildren es) ++ rest) =
      encodeAscii (writeChildren (allLineEnded es)) ++ lineEnds false rest := by
  cases es with
  | nil => rfl
  | cons e es =>
    rw [encode_writeChildren, List.append_assoc, lineEnds_write e hes.1, List.append_assoc,
      lineEnds_clean_append (by decide), lineEnds_writeChildren es hes.2, allLineEnded, encode_writeChildren]
    simp

end

private theorem isChar_escapeChar {c : Char} (hc : isChar c = true) :
    (encodeAscii (escapeChar c)).all isChar = true := by
  rw [escapeChar]
  split_ifs
  · decide
  · decide
  · decide
  · rw [encodeAscii, List.flatMap_singleton, asciiChar]
    split_ifs
    · simp [hc]
    · have hdigits : (toString c.toNat).toList.all isChar = true := by
        rw [List.all_eq_true]
        exact fun d hd => isChar_of_isClean (isClean_of_isNameChar (by simp [isNameChar, isDigit_numeral hd]))
      have hmarkup : isChar '&' = true ∧ isChar '#' = true ∧ isChar ';' = true := by decide
      rw [List.all_cons, List.all_cons, List.all_append, hdigits, List.all_cons, hmarkup.1, hmarkup.2.1, hmarkup.2.2]
      rfl

private theorem isChar_escapeText {cs : List Char} (hcs : cs.all isChar = true) :
    (encodeAscii (escapeText cs)).all isChar = true := by
  induction cs with
  | nil => rfl
  | cons c cs ih =>
    rw [List.all_cons, Bool.and_eq_true] at hcs
    rw [escapeText, List.flatMap_cons, encodeAscii_append, List.all_append, isChar_escapeChar hcs.1, ← escapeText,
      ih hcs.2]
    rfl

private theorem isChar_tag (htag : AsciiName tag) : tag.all isChar = true :=
  all_isChar_of_isClean (isClean_name htag.isName)

mutual

private theorem isChar_write (e : Element) (he : e.Bare) : (encodeAscii e.write).all isChar = true := by
  obtain ⟨tag, attrib, text, children⟩ := e
  obtain ⟨htag, rfl, htext, hchars, hchildren⟩ := he
  have hmarkup : isChar '<' = true ∧ isChar '/' = true ∧ isChar '>' = true ∧ isChar ' ' = true := by decide
  rw [encode_write htag]
  split_ifs
  · simp [isChar_tag htag, hmarkup]
  · simp [isChar_tag htag, hmarkup, isChar_escapeText hchars, isChar_writeChildren children hchildren]

private theorem isChar_writeChildren (es : List Element) (hes : AllBare es) :
    (encodeAscii (writeChildren es)).all isChar = true := by
  cases es with
  | nil => rfl
  | cons e es =>
    rw [encode_writeChildren, List.all_append, isChar_write e hes.1, List.all_append, isChar_writeChildren es hes.2]
    rfl

end

/-- A written element is no declaration. -/
theorem not_declaration {e : Element} (he : e.Bare) : ¬ declaration <+: encodeAscii e.write := by
  obtain ⟨tag, attrib, text, children⟩ := e
  obtain ⟨htag, rfl, -⟩ := he
  obtain ⟨c, cs, hcons, hstart⟩ : ∃ c cs, tag.toList = c :: cs ∧ isNameStart c = true := by
    have hname := htag.isName
    cases h : tag.toList with
    | nil =>
      rw [h] at hname
      cases hname
    | cons c cs =>
      rw [h, isName, Bool.and_eq_true] at hname
      exact ⟨c, cs, rfl, hname.1⟩
  have hsecond (rest rest' : List Char) : ¬ ('<' :: '?' :: rest) <+: ('<' :: c :: rest') := by
    rw [List.cons_prefix_cons, List.cons_prefix_cons]
    rintro ⟨-, rfl, -⟩
    exact absurd hstart (by decide)
  rw [encode_write htag, hcons]
  split_ifs
  · exact hsecond _ _
  · exact hsecond _ _

/-- A written element is read as the element with normalized line ends. -/
theorem parse_writeTree {e : Element} (he : e.Bare) : parse (writeTree e) = some e.lineEnded := by
  have hended := Element.Bare.lineEnded e he
  have hlines : lineEnds false (encodeAscii e.write) = encodeAscii e.lineEnded.write := by
    have h := lineEnds_write e he []
    rwa [List.append_nil, lineEnds, List.append_nil] at h
  rw [parse, writeTree, String.toList_ofList, parseChars, if_pos (isChar_write e he), if_neg (not_declaration he),
    hlines,
    blank, feed_write _ hended, closeElement_root (by rfl), frame_element hended]
  rfl

end trees

end Roofline.Library.Xml
