import Mathlib.Data.List.Basic

/-! Documents in XML 1.0, read character by character into a tree of elements. Documents
with a document type declaration or with namespaces (a colon in a name) are not covered:
the reader rejects them. -/
namespace Roofline.Library.Xml

/-- An element; its text is what stands before its first child, none if nothing does. -/
structure Element where
  tag : String
  attrib : List (String × String)
  text : Option String
  children : List Element
  deriving Inhabited, Repr

def quotationMark : Char := Char.ofNat 34
def apostrophe : Char := Char.ofNat 39

/-- The characters that a document may contain. -/
def isChar (c : Char) : Bool :=
  c = '\t' || c = '\n' || c = '\r' || (32 ≤ c.toNat && c.toNat ≠ 0xFFFE && c.toNat ≠ 0xFFFF)

def isSpace (c : Char) : Bool := c = ' ' || c = '\t' || c = '\n' || c = '\r'

/-- White space in an attribute value is read as blanks. -/
def attrChar (c : Char) : Char := if isSpace c then ' ' else c

/-- Beyond ASCII, the ranges of characters that begin a name. -/
def nameStartRanges : List (ℕ × ℕ) :=
  [(0xC0, 0xD6), (0xD8, 0xF6), (0xF8, 0x2FF), (0x370, 0x37D), (0x37F, 0x1FFF), (0x200C, 0x200D), (0x2070, 0x218F),
    (0x2C00, 0x2FEF), (0x3001, 0xD7FF), (0xF900, 0xFDCF), (0xFDF0, 0xFFFD), (0x10000, 0xEFFFF)]

def inRanges (ranges : List (ℕ × ℕ)) (c : Char) : Bool := ranges.any fun r => r.1 ≤ c.toNat && c.toNat ≤ r.2

def isNameStart (c : Char) : Bool := c.isAlpha || c = '_' || inRanges nameStartRanges c

def isNameChar (c : Char) : Bool :=
  isNameStart c || c.isDigit || c = '-' || c = '.' ||
    inRanges [(0xB7, 0xB7), (0x300, 0x36F), (0x203F, 0x2040)] c

/-- The next character of a name that has the given characters so far. -/
def extendsName (acc : List Char) (c : Char) : Bool := if acc = [] then isNameStart c else isNameChar c

/-- A start tag as far as it is read. -/
structure Tag where
  name : List Char
  attrib : List (List Char × List Char)
  deriving DecidableEq, Repr

/-- What the characters read last are part of. -/
inductive Mode where
  /-- Character data, with the number of brackets at its end. -/
  | text (brackets : ℕ)
  /-- A reference, in character data or in an attribute value. -/
  | textRef (acc : List Char)
  | attrRef (tag : Tag) (name : List Char) (quote : Char) (value acc : List Char)
  /-- Markup of which only the first character is read. -/
  | markup
  | bang (acc : List Char)
  | comment (dashes : ℕ)
  | cdata (brackets : ℕ)
  | piTarget (acc : List Char)
  | pi (question : Bool)
  | piEnd
  | startTag (acc : List Char)
  | inTag (tag : Tag) (spaced : Bool)
  | attrName (tag : Tag) (acc : List Char)
  | attrEq (tag : Tag) (name : List Char)
  | attrQuote (tag : Tag) (name : List Char)
  | attrValue (tag : Tag) (name : List Char) (quote : Char) (value : List Char)
  | emptyTag (tag : Tag)
  | endTag (acc : List Char)
  | endTagSpace (name : List Char)
  deriving DecidableEq, Repr

/-- An element whose end tag is not read yet. -/
structure Frame where
  tag : List Char
  attrib : List (List Char × List Char)
  text : List Char
  children : List Element

namespace Frame

/-- Character data behind the first child is not part of the text. -/
def addChar (f : Frame) (c : Char) : Frame :=
  match f.children with
  | [] => { f with text := f.text ++ [c] }
  | _ :: _ => f

def addText (f : Frame) (cs : List Char) : Frame := cs.foldl addChar f

def addChildren (f : Frame) (es : List Element) : Frame := { f with children := f.children ++ es }

def element (f : Frame) : Element :=
  ⟨String.ofList f.tag, f.attrib.map fun a => (String.ofList a.1, String.ofList a.2),
    if f.text = [] then none else some (String.ofList f.text), f.children⟩

end Frame

/-- The state of the reader: the open elements, innermost first, and the document's element
once it is complete. -/
structure Parser where
  mode : Mode
  stack : List Frame
  root : Option Element

namespace Parser

/-- Outside of the document's element there is only white space. -/
def addChar (p : Parser) (c : Char) : Option Parser :=
  match p.stack with
  | [] => if isSpace c then some p else none
  | f :: fs => some { p with stack := f.addChar c :: fs }

def addChars (p : Parser) (cs : List Char) : Option Parser := cs.foldlM addChar p

def openElement (p : Parser) (tag : Tag) : Option Parser :=
  if p.stack = [] ∧ p.root.isSome then none
  else some { p with mode := .text 0, stack := ⟨tag.name, tag.attrib, [], []⟩ :: p.stack }

def closeElement (p : Parser) (name : List Char) : Option Parser :=
  match p.stack with
  | [] => none
  | [f] => if f.tag = name then some ⟨.text 0, [], some f.element⟩ else none
  | f :: g :: fs => if f.tag = name then some ⟨.text 0, g.addChildren [f.element] :: fs, p.root⟩ else none

end Parser

def digitValue (base : ℕ) (c : Char) : Option ℕ :=
  let v := if c.isDigit then c.toNat - 48
    else if 97 ≤ c.toNat ∧ c.toNat ≤ 102 then c.toNat - 87
    else if 65 ≤ c.toNat ∧ c.toNat ≤ 70 then c.toNat - 55
    else base
  if v < base then some v else none

def number (base : ℕ) (cs : List Char) : Option ℕ :=
  if cs = [] then none else cs.foldlM (fun n c => (digitValue base c).map (base * n + ·)) 0

def characterReference (n : ℕ) : Option Char :=
  if n.isValidChar ∧ isChar (Char.ofNat n) then some (Char.ofNat n) else none

def decodeRef (acc : List Char) : Option Char :=
  match acc with
  | ['l', 't'] => some '<'
  | ['g', 't'] => some '>'
  | ['a', 'm', 'p'] => some '&'
  | ['q', 'u', 'o', 't'] => some quotationMark
  | ['a', 'p', 'o', 's'] => some apostrophe
  | '#' :: 'x' :: cs => (number 16 cs).bind characterReference
  | '#' :: cs => (number 10 cs).bind characterReference
  | _ => none

/-- The targets that are not reserved. -/
def isTarget (acc : List Char) : Bool := acc ≠ [] && acc.map Char.toLower ≠ ['x', 'm', 'l']

namespace Parser

def stepText (p : Parser) (brackets : ℕ) (c : Char) : Option Parser :=
  if c = '<' then some { p with mode := .markup }
  else if c = '&' then if p.stack = [] then none else some { p with mode := .textRef [] }
  else if c = '>' ∧ 2 ≤ brackets then none
  else { p with mode := .text (if c = ']' then brackets + 1 else 0) }.addChar c

def stepMarkup (p : Parser) (c : Char) : Option Parser :=
  if c = '!' then some { p with mode := .bang [] }
  else if c = '?' then some { p with mode := .piTarget [] }
  else if c = '/' then some { p with mode := .endTag [] }
  else if isNameStart c then some { p with mode := .startTag [c] }
  else none

/-- Behind an exclamation mark comes a comment or a section of character data. -/
def stepBang (p : Parser) (acc : List Char) : Option Parser :=
  if acc = "--".toList then some { p with mode := .comment 0 }
  else if acc = "[CDATA[".toList then if p.stack = [] then none else some { p with mode := .cdata 0 }
  else if acc <+: "--".toList ∨ acc <+: "[CDATA[".toList then some { p with mode := .bang acc }
  else none

def stepCdata (p : Parser) (brackets : ℕ) (c : Char) : Option Parser :=
  if c = '>' ∧ brackets = 2 then some { p with mode := .text 0 }
  else if c = ']' then
    if brackets = 2 then p.addChar ']' else some { p with mode := .cdata (brackets + 1) }
  else { p with mode := .cdata 0 }.addChars (List.replicate brackets ']' ++ [c])

def stepPiTarget (p : Parser) (acc : List Char) (c : Char) : Option Parser :=
  if c = '?' then if isTarget acc then some { p with mode := .piEnd } else none
  else if isSpace c then if isTarget acc then some { p with mode := .pi false } else none
  else if extendsName acc c then some { p with mode := .piTarget (acc ++ [c]) }
  else none

def stepStartTag (p : Parser) (acc : List Char) (c : Char) : Option Parser :=
  if c = '>' then p.openElement ⟨acc, []⟩
  else if c = '/' then some { p with mode := .emptyTag ⟨acc, []⟩ }
  else if isSpace c then some { p with mode := .inTag ⟨acc, []⟩ true }
  else if isNameChar c then some { p with mode := .startTag (acc ++ [c]) }
  else none

/-- Attributes are separated by white space. -/
def stepInTag (p : Parser) (tag : Tag) (spaced : Bool) (c : Char) : Option Parser :=
  if c = '>' then p.openElement tag
  else if c = '/' then some { p with mode := .emptyTag tag }
  else if isSpace c then some { p with mode := .inTag tag true }
  else if spaced ∧ isNameStart c then some { p with mode := .attrName tag [c] }
  else none

def stepAttrName (p : Parser) (tag : Tag) (acc : List Char) (c : Char) : Option Parser :=
  if c = '=' then some { p with mode := .attrQuote tag acc }
  else if isSpace c then some { p with mode := .attrEq tag acc }
  else if isNameChar c then some { p with mode := .attrName tag (acc ++ [c]) }
  else none

/-- No attribute is given twice. -/
def stepAttrValue (p : Parser) (tag : Tag) (name : List Char) (quote : Char) (value : List Char)
    (c : Char) :
    Option Parser :=
  if c = quote then
    if name ∈ tag.attrib.map Prod.fst then none
    else some { p with mode := .inTag ⟨tag.name, tag.attrib ++ [(name, value)]⟩ false }
  else if c = '<' then none
  else if c = '&' then some { p with mode := .attrRef tag name quote value [] }
  else some { p with mode := .attrValue tag name quote (value ++ [attrChar c]) }

def stepEndTag (p : Parser) (acc : List Char) (c : Char) : Option Parser :=
  if c = '>' then p.closeElement acc
  else if isSpace c then if acc = [] then none else some { p with mode := .endTagSpace acc }
  else if extendsName acc c then some { p with mode := .endTag (acc ++ [c]) }
  else none

/-- One character, after the normalization of line ends. -/
def step (p : Parser) (c : Char) : Option Parser :=
  match p.mode with
  | .text brackets => p.stepText brackets c
  | .textRef acc =>
    if c = ';' then (decodeRef acc).bind fun d => { p with mode := .text 0 }.addChar d
    else some { p with mode := .textRef (acc ++ [c]) }
  | .attrRef tag name quote value acc =>
    if c = ';' then (decodeRef acc).map fun d => { p with mode := .attrValue tag name quote (value ++ [d]) }
    else some { p with mode := .attrRef tag name quote value (acc ++ [c]) }
  | .markup => p.stepMarkup c
  | .bang acc => p.stepBang (acc ++ [c])
  | .comment dashes =>
    if dashes = 2 then if c = '>' then some { p with mode := .text 0 } else none
    else some { p with mode := .comment (if c = '-' then dashes + 1 else 0) }
  | .cdata brackets => p.stepCdata brackets c
  | .piTarget acc => p.stepPiTarget acc c
  | .pi question =>
    if question ∧ c = '>' then some { p with mode := .text 0 } else some { p with mode := .pi (c = '?') }
  | .piEnd => if c = '>' then some { p with mode := .text 0 } else none
  | .startTag acc => p.stepStartTag acc c
  | .inTag tag spaced => p.stepInTag tag spaced c
  | .attrName tag acc => p.stepAttrName tag acc c
  | .attrEq tag name =>
    if c = '=' then some { p with mode := .attrQuote tag name } else if isSpace c then some p else none
  | .attrQuote tag name =>
    if c = quotationMark ∨ c = apostrophe then some { p with mode := .attrValue tag name c [] }
    else if isSpace c then some p
    else none
  | .attrValue tag name quote value => p.stepAttrValue tag name quote value c
  | .emptyTag tag => if c = '>' then (p.openElement tag).bind fun p => p.closeElement tag.name else none
  | .endTag acc => p.stepEndTag acc c
  | .endTagSpace name => if c = '>' then p.closeElement name else if isSpace c then some p else none

end Parser

/-- Line ends are read as line feeds: a carriage return, with a line feed behind it or not.
The flag is whether the last character was a carriage return. -/
def lineEnds (cr : Bool) : List Char → List Char
  | [] => []
  | c :: cs =>
    if c = '\r' then '\n' :: lineEnds true cs
    else if c = '\n' ∧ cr = true then lineEnds false cs
    else c :: lineEnds false cs

def feed (p : Parser) (cs : List Char) : Option Parser := cs.foldlM Parser.step p

/-- The declaration, in its form without an encoding, which is the one that is covered. -/
def declaration : List Char := "<?xml version=\"1.0\"?>".toList

def blank : Parser := ⟨.text 0, [], none⟩

def Parser.finish (p : Parser) : Option Element :=
  match p.mode, p.stack with
  | .text _, [] => p.root
  | _, _ => none

def parseChars (doc : List Char) : Option Element :=
  if doc.all isChar then
    (feed blank (lineEnds false
      (if declaration <+: doc then doc.drop declaration.length else doc))).bind Parser.finish
  else none

def parse (doc : String) : Option Element := parseChars doc.toList

/-- The names that a written element can have. -/
def isName : List Char → Bool
  | [] => false
  | c :: cs => isNameStart c && cs.all isNameChar

section lineEnds

theorem lineEnds_clean {cs : List Char} (h : '\r' ∉ cs) : lineEnds false cs = cs := by
  induction cs with
  | nil => rfl
  | cons c cs ih =>
    rw [List.mem_cons, not_or] at h
    simp [lineEnds, Ne.symm h.1, ih h.2]

theorem lineEnds_clean_append {a : List Char} (h : '\r' ∉ a) (b : List Char) :
    lineEnds false (a ++ b) = a ++ lineEnds false b := by
  induction a with
  | nil => rfl
  | cons c a ih =>
    rw [List.mem_cons, not_or] at h
    simp [lineEnds, Ne.symm h.1, ih h.2]

/-- A line end does not reach beyond a character that is no line feed. -/
theorem lineEnds_append_cons (cr : Bool) (a : List Char) {c : Char} (hc : c ≠ '\n') (b : List Char) :
    lineEnds cr (a ++ c :: b) = lineEnds cr a ++ lineEnds false (c :: b) := by
  induction a generalizing cr with
  | nil => cases cr <;> simp [lineEnds, hc]
  | cons d a ih =>
    generalize lineEnds false (c :: b) = rest at ih ⊢
    simp only [List.cons_append, lineEnds, ih]
    split_ifs <;> rfl

theorem mem_lineEnds {c : Char} (hc : c ≠ '\n') {cr : Bool} {cs : List Char} (h : c ∈ lineEnds cr cs) :
    c ∈ cs := by
  induction cs generalizing cr with
  | nil => cases h
  | cons d cs ih =>
    rw [lineEnds] at h
    split_ifs at h
    · rcases List.mem_cons.mp h with rfl | h
      · exact absurd rfl hc
      · exact List.mem_cons_of_mem d (ih h)
    · exact List.mem_cons_of_mem d (ih h)
    · rcases List.mem_cons.mp h with rfl | h
      · exact List.mem_cons_self
      · exact List.mem_cons_of_mem d (ih h)

end lineEnds

section reading
variable {p q : Parser} {f g : Frame} {fs : List Frame} {root : Option Element} {n : ℕ}
  {cs tag name : List Char}

@[simp] theorem step_text (c : Char) :
    Parser.step ⟨.text n, fs, root⟩ c = Parser.stepText ⟨.text n, fs, root⟩ n c := rfl

@[simp] theorem step_markup (c : Char) :
    Parser.step ⟨.markup, fs, root⟩ c = Parser.stepMarkup ⟨.markup, fs, root⟩ c := rfl

@[simp] theorem step_startTag (acc : List Char) (c : Char) :
    Parser.step ⟨.startTag acc, fs, root⟩ c = Parser.stepStartTag ⟨.startTag acc, fs, root⟩ acc c := rfl

@[simp] theorem step_inTag (t : Tag) (spaced : Bool) (c : Char) :
    Parser.step ⟨.inTag t spaced, fs, root⟩ c =
      Parser.stepInTag ⟨.inTag t spaced, fs, root⟩ t spaced c := rfl

@[simp] theorem step_attrName (t : Tag) (acc : List Char) (c : Char) :
    Parser.step ⟨.attrName t acc, fs, root⟩ c =
      Parser.stepAttrName ⟨.attrName t acc, fs, root⟩ t acc c := rfl

@[simp] theorem step_attrValue (t : Tag) (quote : Char) (value : List Char) (c : Char) :
    Parser.step ⟨.attrValue t name quote value, fs, root⟩ c =
      Parser.stepAttrValue ⟨.attrValue t name quote value, fs, root⟩ t name quote value c := rfl

@[simp] theorem step_endTag (acc : List Char) (c : Char) :
    Parser.step ⟨.endTag acc, fs, root⟩ c = Parser.stepEndTag ⟨.endTag acc, fs, root⟩ acc c := rfl

@[simp] theorem feed_cons (p : Parser) (c : Char) (cs : List Char) :
    feed p (c :: cs) = (p.step c).bind fun m => feed m cs := rfl

@[simp] theorem feed_nil (p : Parser) : feed p [] = some p := rfl

theorem feed_append (p : Parser) (a b : List Char) : feed p (a ++ b) = (feed p a).bind fun m => feed m b :=
  List.foldlM_append

theorem feed_append_some {a b : List Char} :
    feed p (a ++ b) = some q ↔ ∃ m, feed p a = some m ∧ feed m b = some q := by
  rw [feed_append, Option.bind_eq_some_iff]

theorem isNameChar_not_isSpace {c : Char} (h : isNameChar c = true) : isSpace c = false := by
  by_contra hspace
  simp only [isSpace, Bool.not_eq_false, Bool.or_eq_true, decide_eq_true_eq] at hspace
  rcases hspace with ((rfl | rfl) | rfl) | rfl <;> exact absurd h (by decide)

theorem isNameChar_ne {c d : Char} (h : isNameChar c = true) (hd : isNameChar d = false) : c ≠ d := by
  rintro rfl
  rw [h] at hd
  cases hd

/-- Character data without markup is added to the innermost open element. -/
theorem feed_text (hlt : '<' ∉ cs) (hamp : '&' ∉ cs) (h : feed ⟨.text n, f :: fs, root⟩ cs = some q) :
    ∃ m, q = ⟨.text m, f.addText cs :: fs, root⟩ := by
  induction cs generalizing n f with
  | nil => exact ⟨n, (Option.some.inj h).symm⟩
  | cons c cs ih =>
    rw [List.mem_cons, not_or] at hlt hamp
    simp only [feed_cons, step_text, Parser.stepText, Ne.symm hlt.1, Ne.symm hamp.1, if_false,
      Parser.addChar] at h
    split_ifs at h
    · cases h
    · exact ih hlt.2 hamp.2 h
    · exact ih hlt.2 hamp.2 h

private theorem feed_startTag (acc : List Char) (h : cs.all isNameChar = true) :
    feed ⟨.startTag acc, fs, root⟩ cs = some ⟨.startTag (acc ++ cs), fs, root⟩ := by
  induction cs generalizing acc with
  | nil => simp
  | cons c cs ih =>
    rw [List.all_cons, Bool.and_eq_true] at h
    have hgt := isNameChar_ne h.1 (d := '>') (by decide)
    have hslash := isNameChar_ne h.1 (d := '/') (by decide)
    simp [Parser.stepStartTag, hgt, hslash, isNameChar_not_isSpace h.1, h.1, ih _ h.2]

/-- A tag of a valid name is read up to the character behind the name. -/
theorem feed_tagName (htag : isName tag = true) :
    feed ⟨.text n, fs, root⟩ ('<' :: tag) = some ⟨.startTag tag, fs, root⟩ := by
  cases tag with
  | nil => cases htag
  | cons c cs =>
    rw [isName, Bool.and_eq_true] at htag
    have hname : isNameChar c = true := by simp [isNameChar, htag.1]
    have hbang := isNameChar_ne hname (d := '!') (by decide)
    have hquestion := isNameChar_ne hname (d := '?') (by decide)
    have hslash := isNameChar_ne hname (d := '/') (by decide)
    simp [Parser.stepText, Parser.stepMarkup, hbang, hquestion, hslash, htag.1,
      feed_startTag [c] htag.2]

theorem feed_openTag (htag : isName tag = true) :
    feed ⟨.text n, fs, none⟩ ('<' :: tag ++ ['>']) = some ⟨.text 0, ⟨tag, [], [], []⟩ :: fs, none⟩ := by
  rw [feed_append, feed_tagName htag]
  simp [Parser.stepStartTag, Parser.openElement]

private theorem feed_attrName (tag : Tag) (acc : List Char) (h : cs.all isNameChar = true) :
    feed ⟨.attrName tag acc, fs, root⟩ cs = some ⟨.attrName tag (acc ++ cs), fs, root⟩ := by
  induction cs generalizing acc with
  | nil => simp
  | cons c cs ih =>
    rw [List.all_cons, Bool.and_eq_true] at h
    have heq := isNameChar_ne h.1 (d := '=') (by decide)
    simp [Parser.stepAttrName, heq, isNameChar_not_isSpace h.1, h.1, ih _ h.2]

private theorem feed_attrValue (tag : Tag) (value : List Char) (hlt : '<' ∉ cs) (hamp : '&' ∉ cs)
    (hquote : quotationMark ∉ cs) :
    feed ⟨.attrValue tag name quotationMark value, fs, root⟩ cs =
      some ⟨.attrValue tag name quotationMark (value ++ cs.map attrChar), fs, root⟩ := by
  induction cs generalizing value with
  | nil => simp
  | cons c cs ih =>
    rw [List.mem_cons, not_or] at hlt hamp hquote
    simp [Parser.stepAttrValue, Ne.symm hlt.1, Ne.symm hamp.1, Ne.symm hquote.1,
      ih _ hlt.2 hamp.2 hquote.2]

private theorem feed_attrStart (tag : Tag) (hname : isName name = true) :
    feed ⟨.inTag tag true, fs, root⟩ name = some ⟨.attrName tag name, fs, root⟩ := by
  cases name with
  | nil => cases hname
  | cons c cs =>
    rw [isName, Bool.and_eq_true] at hname
    have hc : isNameChar c = true := by simp [isNameChar, hname.1]
    have hgt := isNameChar_ne hc (d := '>') (by decide)
    have hslash := isNameChar_ne hc (d := '/') (by decide)
    simp [Parser.stepInTag, hgt, hslash, isNameChar_not_isSpace hc, hname.1,
      feed_attrName _ [c] hname.2]

/-- A start tag is read up to the value of its attribute. -/
theorem feed_openQuote (htag : isName tag = true) (hname : isName name = true) :
    feed ⟨.text n, fs, root⟩ (('<' :: tag) ++ (' ' :: name) ++ ['=', quotationMark]) =
      some ⟨.attrValue ⟨tag, []⟩ name quotationMark [], fs, root⟩ := by
  have hattr :
      feed ⟨.startTag tag, fs, root⟩ (' ' :: name) = some ⟨.attrName ⟨tag, []⟩ name, fs, root⟩ :=
    feed_attrStart ⟨tag, []⟩ hname
  rw [feed_append, feed_append, feed_tagName htag, Option.bind_some, hattr]
  rfl

/-- A start tag with one attribute whose value has no markup. -/
theorem feed_openTagAttr (htag : isName tag = true) (hname : isName name = true) (hlt : '<' ∉ cs)
    (hamp : '&' ∉ cs) (hquote : quotationMark ∉ cs) :
    feed ⟨.text n, fs, none⟩
        (('<' :: tag) ++ (' ' :: name) ++ ['=', quotationMark] ++ cs ++ [quotationMark, '>']) =
      some ⟨.text 0, ⟨tag, [(name, cs.map attrChar)], [], []⟩ :: fs, none⟩ := by
  have hclose (value : List Char) :
      feed ⟨.attrValue ⟨tag, []⟩ name quotationMark value, fs, none⟩ [quotationMark, '>'] =
        some ⟨.text 0, ⟨tag, [(name, value)], [], []⟩ :: fs, none⟩ := by
    simp [Parser.stepAttrValue, Parser.stepInTag, Parser.openElement]
  rw [feed_append, feed_append, feed_openQuote htag hname, Option.bind_some,
    feed_attrValue ⟨tag, []⟩ [] hlt hamp hquote, Option.bind_some, hclose]
  rfl

private theorem feed_endTag (acc : List Char) (hacc : acc ≠ []) (h : cs.all isNameChar = true) :
    feed ⟨.endTag acc, fs, root⟩ cs = some ⟨.endTag (acc ++ cs), fs, root⟩ := by
  induction cs generalizing acc with
  | nil => simp
  | cons c cs ih =>
    rw [List.all_cons, Bool.and_eq_true] at h
    have hgt := isNameChar_ne h.1 (d := '>') (by decide)
    have ih := ih (acc ++ [c]) (by simp) h.2
    simp [Parser.stepEndTag, hgt, isNameChar_not_isSpace h.1, extendsName, hacc, h.1, ih]

theorem feed_closeTag (htag : isName tag = true) :
    feed ⟨.text n, fs, root⟩ ('<' :: '/' :: tag ++ ['>']) =
      Parser.closeElement ⟨.endTag tag, fs, root⟩ tag := by
  cases tag with
  | nil => cases htag
  | cons c cs =>
    rw [isName, Bool.and_eq_true] at htag
    have hc : isNameChar c = true := by simp [isNameChar, htag.1]
    have hgt := isNameChar_ne hc (d := '>') (by decide)
    have hfirst : feed ⟨.endTag [], fs, root⟩ [c] = some ⟨.endTag [c], fs, root⟩ := by
      simp [Parser.stepEndTag, hgt, isNameChar_not_isSpace hc, extendsName, htag.1]
    have hrest : feed ⟨.endTag [c], fs, root⟩ cs = some ⟨.endTag (c :: cs), fs, root⟩ :=
      feed_endTag [c] (by simp) htag.2
    have hmarkup : feed ⟨.text n, fs, root⟩ ['<', '/'] = some ⟨.endTag [], fs, root⟩ := rfl
    have hsplit : '<' :: '/' :: (c :: cs) ++ ['>'] = ['<', '/'] ++ [c] ++ cs ++ ['>'] := by simp
    rw [hsplit, feed_append, feed_append, feed_append, hmarkup, Option.bind_some, hfirst,
      Option.bind_some, hrest, Option.bind_some, feed_cons]
    simp [Parser.stepEndTag]

theorem closeElement_root {mode : Mode} (hf : f.tag = name) :
    Parser.closeElement ⟨mode, [f], root⟩ name = some ⟨.text 0, [], some f.element⟩ := if_pos hf

theorem closeElement_child {mode : Mode} (hf : f.tag = name) :
    Parser.closeElement ⟨mode, f :: g :: fs, root⟩ name =
      some ⟨.text 0, g.addChildren [f.element] :: fs, root⟩ := if_pos hf

namespace Frame

@[simp] theorem addChildren_nil (f : Frame) : f.addChildren [] = f := by simp [addChildren]

@[simp] theorem addChildren_addChildren (f : Frame) (es es' : List Element) :
    (f.addChildren es).addChildren es' = f.addChildren (es ++ es') := by simp [addChildren]

/-- Character data behind a child leaves no trace. -/
theorem addText_addChildren (f : Frame) {es : List Element} (hes : es ≠ []) (cs : List Char) :
    (f.addChildren es).addText cs = f.addChildren es := by
  induction cs with
  | nil => rfl
  | cons c cs ih =>
    have hchar : (f.addChildren es).addChar c = f.addChildren es := by
      unfold addChar
      cases hf : (f.addChildren es).children with
      | nil => simp [addChildren, hes] at hf
      | cons d ds => rfl
    rwa [addText, List.foldl_cons, hchar]

theorem addText_fresh (attrib : List (List Char × List Char)) (text cs : List Char) :
    addText ⟨tag, attrib, text, []⟩ cs = ⟨tag, attrib, text ++ cs, []⟩ := by
  induction cs generalizing text with
  | nil => simp [addText]
  | cons c cs ih =>
    have hchar : addChar ⟨tag, attrib, text, []⟩ c = ⟨tag, attrib, text ++ [c], []⟩ := rfl
    rw [addText, List.foldl_cons, hchar, ← addText, ih, List.append_assoc, List.singleton_append]

end Frame

def leafText (tag cs : List Char) : List Char :=
  ('<' :: tag ++ ['>']) ++ cs ++ ('<' :: '/' :: tag ++ ['>']) ++ ['\n']

def leaf (tag cs : List Char) : Element := Frame.element ⟨tag, [], cs, []⟩

private theorem feed_leafText (htag : isName tag = true) (hlt : '<' ∉ cs) (hamp : '&' ∉ cs)
    (h : feed ⟨.text n, f :: fs, none⟩ (leafText tag cs) = some q) :
    ∃ m, q = ⟨.text m, f.addChildren [leaf tag cs] :: fs, none⟩ := by
  rw [leafText, feed_append, feed_append, feed_append, feed_openTag htag, Option.bind_some] at h
  obtain ⟨p, hp, h⟩ := Option.bind_eq_some_iff.mp h
  obtain ⟨p', hp', hp⟩ := Option.bind_eq_some_iff.mp hp
  obtain ⟨m, rfl⟩ := feed_text hlt hamp hp'
  rw [feed_closeTag htag, Frame.addText_fresh, closeElement_child rfl] at hp
  obtain rfl := Option.some.inj hp
  obtain ⟨m, rfl⟩ := feed_text (by decide) (by decide) h
  rw [Frame.addText_addChildren f (by simp)]
  exact ⟨m, rfl⟩

/-- Elements without children, one after the other. -/
theorem feed_leafTexts {leaves : List (List Char × List Char)}
    (hleaves : ∀ l ∈ leaves, isName l.1 = true ∧ '<' ∉ l.2 ∧ '&' ∉ l.2)
    (h : feed ⟨.text n, f :: fs, none⟩ (leaves.flatMap fun l => leafText l.1 l.2) = some q) :
    ∃ m, q = ⟨.text m, f.addChildren (leaves.map fun l => leaf l.1 l.2) :: fs, none⟩ := by
  induction leaves generalizing n f with
  | nil =>
    obtain rfl := Option.some.inj h
    exact ⟨n, by simp⟩
  | cons l leaves ih =>
    obtain ⟨htag, hlt, hamp⟩ := hleaves l (by simp)
    rw [List.flatMap_cons, feed_append_some] at h
    obtain ⟨p, hp, h⟩ := h
    obtain ⟨m, rfl⟩ := feed_leafText htag hlt hamp hp
    obtain ⟨m, rfl⟩ := ih (fun l hl => hleaves l (by simp [hl])) h
    exact ⟨m, by simp⟩

end reading

end Roofline.Library.Xml
