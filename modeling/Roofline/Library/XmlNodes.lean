import Roofline.Library.XmlWeight

/-! Elements with an attribute and children of text, written without any escaping. A document
of such elements is read as it was meant if none of its strings looks like markup; otherwise
it says less than its strings. -/
namespace Roofline.Library.Xml

/-- Strings that stand for themselves in an attribute. -/
structure PlainValue (cs : List Char) : Prop where
  lt : '<' ∉ cs
  amp : '&' ∉ cs
  quotation : quotationMark ∉ cs

/-- Strings that stand for themselves between two tags. -/
structure PlainContent (cs : List Char) : Prop where
  lt : '<' ∉ cs
  amp : '&' ∉ cs
  sectionEnd : ¬ [']', ']', '>'] <:+: cs

theorem plainContent_of_not_mem {cs : List Char} (hlt : '<' ∉ cs) (hamp : '&' ∉ cs) (hend : ']' ∉ cs) :
    PlainContent cs :=
  ⟨hlt, hamp, fun h => hend (h.subset List.mem_cons_self)⟩

/-- Characters that a document may contain and that are read one by one. -/
def isClean (c : Char) : Bool := isChar c && c ≠ '\r'

/-- An element to be written; the leaves are tags with their contents. -/
structure Node where
  tag : List Char
  name : List Char
  value : List Char
  leaves : List (List Char × List Char)

def contentLength (leaves : List (List Char × List Char)) : ℕ := (leaves.map fun l => l.2.length).sum

def closeLine (tag : List Char) : List Char := '<' :: '/' :: tag ++ ['>'] ++ ['\n']

namespace Node

def writeTail (x : Node) : List Char :=
  [quotationMark, '>', '\n'] ++ (x.leaves.flatMap (fun l => leafText l.1 l.2) ++ closeLine x.tag)

def write (x : Node) : List Char :=
  ('<' :: x.tag) ++ (' ' :: x.name) ++ ['=', quotationMark] ++ (x.value ++ x.writeTail)

def element (x : Node) : Element :=
  Frame.element ⟨x.tag, [(x.name, x.value.map attrChar)], ['\n'], x.leaves.map fun l => leaf l.1 l.2⟩

def cost (x : Node) : ℕ := x.value.length + contentLength x.leaves

structure Named (x : Node) : Prop where
  tag : PlainName x.tag
  name : PlainName x.name
  leaves : ∀ l ∈ x.leaves, PlainName l.1
  leaves_ne_nil : x.leaves ≠ []

structure Plain (x : Node) : Prop where
  value : PlainValue x.value
  leaves : ∀ l ∈ x.leaves, PlainContent l.2

structure Clean (x : Node) : Prop where
  value : x.value.all isClean = true
  leaves : ∀ l ∈ x.leaves, l.2.all isClean = true

end Node

@[simp] theorem contentLength_nil : contentLength [] = 0 := rfl

@[simp] theorem contentLength_cons (l : List Char × List Char) (leaves : List (List Char × List Char)) :
    contentLength (l :: leaves) = l.2.length + contentLength leaves := rfl

section plain
variable {f : Frame} {fs : List Frame} {root : Option Element} {n : ℕ} {cs tag : List Char}

/-- Text is read to its end if no section seems to end in it. -/
theorem isSome_feed_text (hlt : '<' ∉ cs) (hamp : '&' ∉ cs)
    (hend : ¬ [']', ']', '>'] <:+: List.replicate n ']' ++ cs) :
    (feed ⟨.text n, f :: fs, root⟩ cs).isSome = true := by
  induction cs generalizing n f with
  | nil => rfl
  | cons c cs ih =>
    rw [List.mem_cons, not_or] at hlt hamp
    simp only [feed_cons, step_text, Parser.stepText, Ne.symm hlt.1, Ne.symm hamp.1, if_false, Parser.addChar]
    by_cases hbracket : c = ']'
    · subst hbracket
      rw [if_neg fun h => absurd h.1 (by decide), if_pos rfl, Option.bind_some]
      refine ih hlt.2 hamp.2 ?_
      rwa [List.replicate_succ', List.append_assoc, List.singleton_append]
    · have hgt : ¬ (c = '>' ∧ 2 ≤ n) := by
        rintro ⟨rfl, hn⟩
        refine hend ⟨List.replicate (n - 2) ']', cs, ?_⟩
        rw [show n = n - 2 + 2 by omega, List.replicate_add]
        simp [List.replicate_succ]
      rw [if_neg hgt, if_neg hbracket, Option.bind_some]
      refine ih hlt.2 hamp.2 fun h => hend (h.trans ?_)
      exact (List.suffix_append (List.replicate n ']' ++ [c]) cs).isInfix.trans (by simp)

private theorem feed_plainContent (hcs : PlainContent cs) (f : Frame) (fs : List Frame) (root : Option Element) :
    ∃ m, feed ⟨.text 0, f :: fs, root⟩ cs = some ⟨.text m, f.addText cs :: fs, root⟩ := by
  have hsome : (feed ⟨.text 0, f :: fs, root⟩ cs).isSome = true := isSome_feed_text hcs.lt hcs.amp hcs.sectionEnd
  obtain ⟨q, hq⟩ := Option.isSome_iff_exists.mp hsome
  obtain ⟨m, rfl⟩ := feed_text hcs.lt hcs.amp hq
  exact ⟨m, hq⟩

theorem feed_lineFeed : feed ⟨.text n, f :: fs, root⟩ ['\n'] = some ⟨.text 0, f.addText ['\n'] :: fs, root⟩ := rfl

theorem feed_closeLine {g : Frame} (htag : isName tag = true) (hf : f.tag = tag) :
    feed ⟨.text n, f :: g :: fs, none⟩ (closeLine tag) =
      some ⟨.text 0, g.addChildren [f.element] :: fs, none⟩ := by
  rw [closeLine, feed_append, feed_closeTag htag, closeElement_child hf, Option.bind_some, feed_lineFeed,
    Frame.addText_addChildren g (by simp)]

private theorem feed_leafText_plain (htag : isName tag = true) (hcs : PlainContent cs) :
    feed ⟨.text n, f :: fs, none⟩ (leafText tag cs) = some ⟨.text 0, f.addChildren [leaf tag cs] :: fs, none⟩ := by
  obtain ⟨m, hm⟩ := feed_plainContent hcs ⟨tag, [], [], []⟩ (f :: fs) none
  rw [leafText, List.append_assoc, ← closeLine, feed_append, feed_append, feed_openTag htag, Option.bind_some, hm,
    Option.bind_some, feed_closeLine htag (by rw [Frame.addText_fresh]), Frame.addText_fresh]
  rfl

theorem feed_leafTexts_plain {leaves : List (List Char × List Char)}
    (hleaves : ∀ l ∈ leaves, isName l.1 = true ∧ PlainContent l.2) :
    feed ⟨.text 0, f :: fs, none⟩ (leaves.flatMap fun l => leafText l.1 l.2) =
      some ⟨.text 0, f.addChildren (leaves.map fun l => leaf l.1 l.2) :: fs, none⟩ := by
  induction leaves generalizing f with
  | nil => simp
  | cons l leaves ih =>
    obtain ⟨htag, hcs⟩ := hleaves l (by simp)
    rw [List.flatMap_cons, feed_append, feed_leafText_plain htag hcs, Option.bind_some,
      ih fun l hl => hleaves l (by simp [hl])]
    simp

private theorem write_eq (x : Node) : x.write = (('<' :: x.tag) ++ (' ' :: x.name) ++ ['=', quotationMark] ++ x.value ++
    [quotationMark, '>']) ++ (['\n'] ++ (x.leaves.flatMap (fun l => leafText l.1 l.2) ++ closeLine x.tag)) := by
  simp [Node.write, Node.writeTail]

private theorem feed_node {x : Node} (hnamed : x.Named) (hx : x.Plain) :
    feed ⟨.text 0, f :: fs, none⟩ x.write = some ⟨.text 0, f.addChildren [x.element] :: fs, none⟩ := by
  rw [write_eq, feed_append, feed_openTagAttr hnamed.tag.isName hnamed.name.isName hx.value.lt hx.value.amp
    hx.value.quotation, Option.bind_some, feed_append, feed_lineFeed, Option.bind_some, feed_append,
    feed_leafTexts_plain fun l hl => ⟨(hnamed.leaves l hl).isName, hx.leaves l hl⟩, Option.bind_some,
    Frame.addText_fresh, feed_closeLine hnamed.tag.isName (by rfl)]
  rfl

private theorem feed_nodes {xs : List Node} (hxs : ∀ x ∈ xs, x.Named ∧ x.Plain) :
    feed ⟨.text 0, f :: fs, none⟩ (xs.flatMap Node.write) =
      some ⟨.text 0, f.addChildren (xs.map Node.element) :: fs, none⟩ := by
  induction xs generalizing f with
  | nil => simp
  | cons x xs ih =>
    obtain ⟨hnamed, hx⟩ := hxs x (by simp)
    rw [List.flatMap_cons, feed_append, feed_node hnamed hx, Option.bind_some, ih fun x hx => hxs x (by simp [hx])]
    simp

end plain

section weight
variable {p q : Parser} {f : Frame} {fs : List Frame} {root : Option Element} {n : ℕ} {cs tag : List Char}
  {leaves : List (List Char × List Char)}

private theorem settled_leafText (htag : PlainName tag) (hp : Settled p) (h : feed p (leafText tag cs) = some q) :
    Settled q ∧ q.weight ≤ p.weight + cs.length := by
  rw [leafText, List.append_assoc, ← closeLine, feed_append_some] at h
  obtain ⟨m, hm, hclose⟩ := h
  obtain ⟨o, hopen, hcs⟩ := feed_append_some.mp hm
  have hstart := weight_openTag htag hp hopen
  have hcontent := weight_feed hcs
  obtain ⟨hsettled, hend⟩ := settled_closeTag htag hclose
  exact ⟨hsettled, by omega⟩

private theorem settled_leafTexts (htags : ∀ l ∈ leaves, PlainName l.1) (hp : Settled p)
    (h : feed p (leaves.flatMap fun l => leafText l.1 l.2) = some q) :
    Settled q ∧ q.weight ≤ p.weight + contentLength leaves := by
  induction leaves generalizing p with
  | nil =>
    obtain rfl := Option.some.inj h
    exact ⟨hp, Nat.le_refl _⟩
  | cons l leaves ih =>
    rw [List.flatMap_cons, feed_append_some] at h
    obtain ⟨m, hm, hrest⟩ := h
    obtain ⟨hsettled, hle⟩ := settled_leafText (htags l (by simp)) hp hm
    obtain ⟨hsettled', hle'⟩ := ih (fun l hl => htags l (by simp [hl])) hsettled hrest
    rw [contentLength_cons]
    exact ⟨hsettled', by omega⟩

/-- Behind the value of an attribute only the contents of the leaves add to the weight. -/
theorem settled_writeTail {x : Node} (hnamed : x.Named) (h : feed p x.writeTail = some q) :
    Settled q ∧ q.weight ≤ p.weight + contentLength x.leaves := by
  obtain ⟨l, leaves, hleaves⟩ := List.exists_cons_of_ne_nil hnamed.leaves_ne_nil
  have htags := hnamed.leaves
  rw [hleaves] at htags
  have hsplit : x.writeTail = ([quotationMark, '>', '\n'] ++ ('<' :: l.1 ++ ['>'])) ++ (l.2 ++ (closeLine l.1 ++
      (leaves.flatMap (fun l => leafText l.1 l.2) ++ closeLine x.tag))) := by
    simp [Node.writeTail, hleaves, leafText, closeLine]
  rw [hsplit, feed_append_some] at h
  obtain ⟨p₁, h₁, h⟩ := h
  obtain ⟨p₂, h₂, h⟩ := feed_append_some.mp h
  obtain ⟨p₃, h₃, h⟩ := feed_append_some.mp h
  obtain ⟨p₄, h₄, h⟩ := feed_append_some.mp h
  have hquote := weight_closeQuote (htags l (by simp)) h₁
  have hcontent := weight_feed h₂
  obtain ⟨hsettled, hclose⟩ := settled_closeTag (htags l (by simp)) h₃
  obtain ⟨-, hrest⟩ := settled_leafTexts (fun l hl => htags l (by simp [hl])) hsettled h₄
  obtain ⟨hend, hle⟩ := settled_closeTag hnamed.tag h
  rw [hleaves, contentLength_cons]
  exact ⟨hend, by omega⟩

private theorem settled_node {x : Node} (hnamed : x.Named) (hp : Settled p) (h : feed p x.write = some q) :
    Settled q ∧ q.weight ≤ p.weight + x.cost := by
  obtain ⟨p₁, h₁, h⟩ := feed_append_some.mp h
  obtain ⟨p₂, h₂, h⟩ := feed_append_some.mp h
  have hopen := weight_openQuote hnamed.tag hnamed.name hp h₁
  have hvalue := weight_feed h₂
  obtain ⟨hsettled, htail⟩ := settled_writeTail hnamed h
  rw [Node.cost]
  exact ⟨hsettled, by omega⟩

private theorem settled_nodes {xs : List Node} (hxs : ∀ x ∈ xs, x.Named) (hp : Settled p)
    (h : feed p (xs.flatMap Node.write) = some q) : Settled q ∧ q.weight ≤ p.weight + (xs.map Node.cost).sum := by
  induction xs generalizing p with
  | nil =>
    obtain rfl := Option.some.inj h
    exact ⟨hp, Nat.le_refl _⟩
  | cons x xs ih =>
    rw [List.flatMap_cons, feed_append_some] at h
    obtain ⟨m, hm, hrest⟩ := h
    obtain ⟨hsettled, hle⟩ := settled_node (hxs x (by simp)) hp hm
    obtain ⟨hsettled', hle'⟩ := ih (fun x hx => hxs x (by simp [hx])) hsettled hrest
    rw [List.map_cons, List.sum_cons]
    exact ⟨hsettled', by omega⟩

/-- The first character that is read as markup is lost. -/
theorem weight_value_lt {t : Tag} {name value : List Char} (hcs : ¬ PlainValue cs)
    (h : feed ⟨.attrValue t name quotationMark value, fs, root⟩ cs = some q) :
    q.weight < (⟨.attrValue t name quotationMark value, fs, root⟩ : Parser).weight + cs.length := by
  induction cs generalizing value with
  | nil => exact absurd ⟨by simp, by simp, by simp⟩ hcs
  | cons c cs ih =>
    obtain ⟨m, hm, hrest⟩ := Option.bind_eq_some_iff.mp h
    have hfeed := weight_feed hrest
    rw [step_attrValue, Parser.stepAttrValue] at hm
    rw [List.length_cons]
    split_ifs at hm with hquote hdup hlt hamp
    · obtain rfl : ⟨.inTag ⟨t.name, t.attrib ++ [(name, value)]⟩ false, fs, root⟩ = m := Option.some.inj hm
      have hlost : (⟨.inTag ⟨t.name, t.attrib ++ [(name, value)]⟩ false, fs, root⟩ : Parser).weight =
          (⟨.attrValue t name quotationMark value, fs, root⟩ : Parser).weight := by
        simp [Parser.weight, Parser.treeWeight, Mode.weight]
      omega
    · obtain rfl : ⟨.attrRef t name quotationMark value [], fs, root⟩ = m := Option.some.inj hm
      have hlost : (⟨.attrRef t name quotationMark value [], fs, root⟩ : Parser).weight =
          (⟨.attrValue t name quotationMark value, fs, root⟩ : Parser).weight := rfl
      omega
    · obtain rfl : ⟨.attrValue t name quotationMark (value ++ [attrChar c]), fs, root⟩ = m := Option.some.inj hm
      have hrest' : ¬ PlainValue cs := fun hcs' => hcs
        ⟨by simp [hcs'.lt, Ne.symm hlt], by simp [hcs'.amp, Ne.symm hamp], by simp [hcs'.quotation, Ne.symm hquote]⟩
      have hread : (⟨.attrValue t name quotationMark (value ++ [attrChar c]), fs, root⟩ : Parser).weight =
          (⟨.attrValue t name quotationMark value, fs, root⟩ : Parser).weight + 1 := by
        simp [Parser.weight, Parser.treeWeight, Mode.weight, Nat.add_assoc]
      have hlost := ih hrest' hrest
      omega

private theorem weight_markup_lt (hcs : '<' ∈ cs ∨ '&' ∈ cs) (h : feed ⟨.text n, f :: fs, root⟩ cs = some q) :
    q.weight < (⟨.text n, f :: fs, root⟩ : Parser).weight + cs.length := by
  induction cs generalizing n f with
  | nil => simp at hcs
  | cons c cs ih =>
    obtain ⟨m, hm, hrest⟩ := Option.bind_eq_some_iff.mp h
    have hfeed := weight_feed hrest
    have hstep := weight_step hm
    rw [step_text, Parser.stepText] at hm
    rw [List.length_cons]
    split_ifs at hm with hlt hamp hempty hend hbracket
    · obtain rfl : ⟨.markup, f :: fs, root⟩ = m := Option.some.inj hm
      have hlost : (⟨.markup, f :: fs, root⟩ : Parser).weight = (⟨.text n, f :: fs, root⟩ : Parser).weight := rfl
      omega
    · obtain rfl : ⟨.textRef [], f :: fs, root⟩ = m := Option.some.inj hm
      have hlost : (⟨.textRef [], f :: fs, root⟩ : Parser).weight = (⟨.text n, f :: fs, root⟩ : Parser).weight := rfl
      omega
    all_goals
      obtain rfl : ⟨.text _, f.addChar c :: fs, root⟩ = m := Option.some.inj hm
      have hrest' : '<' ∈ cs ∨ '&' ∈ cs := by simpa [Ne.symm hlt, Ne.symm hamp] using hcs
      have hlost := ih hrest' hrest
      omega

private theorem feed_sectionEnd (hlt : '<' ∉ cs) (hamp : '&' ∉ cs) (hcs : [']', ']', '>'] <:+: cs) :
    feed ⟨.text n, f :: fs, root⟩ cs = none := by
  obtain ⟨a, b, rfl⟩ := hcs
  simp only [List.mem_append, not_or] at hlt hamp
  cases h : feed ⟨.text n, f :: fs, root⟩ (a ++ [']', ']', '>'] ++ b) with
  | none => rfl
  | some q =>
    obtain ⟨m, hm, -⟩ := feed_append_some.mp h
    obtain ⟨o, ho, hend⟩ := feed_append_some.mp hm
    obtain ⟨k, rfl⟩ := feed_text hlt.1.1 hamp.1.1 ho
    simp [Parser.stepText, Parser.addChar] at hend

private theorem weight_content_lt (hcs : ¬ PlainContent cs) (h : feed ⟨.text n, f :: fs, root⟩ cs = some q) :
    q.weight < (⟨.text n, f :: fs, root⟩ : Parser).weight + cs.length := by
  by_cases hmarkup : '<' ∈ cs ∨ '&' ∈ cs
  · exact weight_markup_lt hmarkup h
  · rw [not_or] at hmarkup
    have hend : [']', ']', '>'] <:+: cs := by
      by_contra hend
      exact hcs ⟨hmarkup.1, hmarkup.2, hend⟩
    rw [feed_sectionEnd hmarkup.1 hmarkup.2 hend] at h
    cases h

private theorem weight_leaf (tag cs : List Char) : (leaf tag cs).weight = textWeight cs := by
  rw [leaf, weight_element]
  simp [Frame.weight]

private theorem weight_leaves (leaves : List (List Char × List Char)) :
    weights (leaves.map fun l => leaf l.1 l.2) ≤ contentLength leaves := by
  induction leaves with
  | nil => exact Nat.le_refl _
  | cons l leaves ih =>
    have hl := textWeight_le_length l.2
    rw [List.map_cons, weights_cons, contentLength_cons, weight_leaf]
    omega

private theorem weight_node (x : Node) : x.element.weight ≤ x.cost := by
  have hleaves := weight_leaves x.leaves
  have htext : textWeight ['\n'] = 0 := rfl
  rw [Node.element, weight_element, Node.cost]
  simp only [Frame.weight, attribWeight, List.map_cons, List.map_nil, List.length_map, List.sum_cons, List.sum_nil,
    htext]
  omega

private theorem weight_addChildren (f : Frame) (es : List Element) (fs : List Frame) (root : Option Element) (n m : ℕ) :
    (⟨.text m, f.addChildren es :: fs, root⟩ : Parser).weight =
      (⟨.text n, f :: fs, root⟩ : Parser).weight + weights es := by
  simp only [Parser.weight, Parser.treeWeight, Mode.weight, Frame.weight, Frame.addChildren, List.map_cons,
    List.sum_cons, weights_append]
  omega

/-- The first leaf that has markup in it loses a character. -/
theorem weight_leafTexts_lt (htags : ∀ l ∈ leaves, PlainName l.1) (hleaves : ∃ l ∈ leaves, ¬ PlainContent l.2)
    (h : feed ⟨.text 0, f :: fs, none⟩ (leaves.flatMap fun l => leafText l.1 l.2) = some q) :
    Settled q ∧ q.weight < (⟨.text 0, f :: fs, none⟩ : Parser).weight + contentLength leaves := by
  induction leaves generalizing f with
  | nil => simp at hleaves
  | cons l leaves ih =>
    have htag := htags l (by simp)
    have htags' : ∀ l ∈ leaves, PlainName l.1 := fun l hl => htags l (by simp [hl])
    rw [List.flatMap_cons, feed_append_some] at h
    obtain ⟨m, hm, hrest⟩ := h
    rw [contentLength_cons]
    by_cases hl : PlainContent l.2
    · have hleaves' := ((List.exists_mem_cons_iff _ _ _).mp hleaves).resolve_left (not_not_intro hl)
      rw [feed_leafText_plain htag.isName hl] at hm
      obtain rfl := Option.some.inj hm
      obtain ⟨hsettled, hlt⟩ := ih htags' hleaves' hrest
      have hread := weight_addChildren f [leaf l.1 l.2] fs none 0 0
      have hleaf := textWeight_le_length l.2
      rw [weights_cons, weight_leaf, weights_nil] at hread
      exact ⟨hsettled, by omega⟩
    · rw [leafText, List.append_assoc, ← closeLine, feed_append_some] at hm
      obtain ⟨o, ho, hclose⟩ := hm
      obtain ⟨o', ho', hcontent⟩ := feed_append_some.mp ho
      rw [feed_openTag htag.isName] at ho'
      obtain rfl := Option.some.inj ho'
      have hlt := weight_content_lt hl hcontent
      have hopen : (⟨.text 0, ⟨l.1, [], [], []⟩ :: f :: fs, none⟩ : Parser).weight =
          (⟨.text 0, f :: fs, none⟩ : Parser).weight := by
        simp [Parser.weight, Parser.treeWeight, Mode.weight, Frame.weight]
      obtain ⟨hsettled, hle⟩ := settled_closeTag htag hclose
      obtain ⟨hsettled', hle'⟩ := settled_leafTexts htags' hsettled hrest
      exact ⟨hsettled', by omega⟩

/-- An element with markup in one of its strings loses a character. -/
theorem weight_node_lt {x : Node} (hnamed : x.Named) (hx : ¬ x.Plain)
    (h : feed ⟨.text 0, f :: fs, none⟩ x.write = some q) :
    Settled q ∧ q.weight < (⟨.text 0, f :: fs, none⟩ : Parser).weight + x.cost := by
  by_cases hvalue : PlainValue x.value
  · have hleaves : ∃ l ∈ x.leaves, ¬ PlainContent l.2 := by
      by_contra hleaves
      exact hx ⟨hvalue, fun l hl => by_contra fun hbad => hleaves ⟨l, hl, hbad⟩⟩
    rw [write_eq, feed_append, feed_openTagAttr hnamed.tag.isName hnamed.name.isName hvalue.lt hvalue.amp
      hvalue.quotation, Option.bind_some, feed_append, feed_lineFeed, Option.bind_some, feed_append_some] at h
    obtain ⟨m, hm, hclose⟩ := h
    have hopen : (⟨.text 0, (⟨x.tag, [(x.name, x.value.map attrChar)], [], []⟩ : Frame).addText ['\n'] :: f :: fs,
        none⟩ : Parser).weight = (⟨.text 0, f :: fs, none⟩ : Parser).weight + x.value.length := by
      have htext : textWeight ['\n'] = 0 := rfl
      simp [Parser.weight, Parser.treeWeight, Mode.weight, Frame.weight, Frame.addText_fresh, attribWeight, htext,
        Nat.add_comm]
    obtain ⟨-, hlt⟩ := weight_leafTexts_lt hnamed.leaves hleaves hm
    obtain ⟨hsettled, hle⟩ := settled_closeTag hnamed.tag hclose
    rw [Node.cost]
    exact ⟨hsettled, by omega⟩
  · rw [Node.write, feed_append, feed_openQuote hnamed.tag.isName hnamed.name.isName, Option.bind_some,
      feed_append_some] at h
    obtain ⟨m, hm, htail⟩ := h
    have hopen : (⟨.attrValue ⟨x.tag, []⟩ x.name quotationMark [], f :: fs, none⟩ : Parser).weight =
        (⟨.text 0, f :: fs, none⟩ : Parser).weight := rfl
    have hlt := weight_value_lt hvalue hm
    obtain ⟨hsettled, hle⟩ := settled_writeTail hnamed htail
    rw [Node.cost]
    exact ⟨hsettled, by omega⟩

private theorem weight_nodes_lt {xs : List Node} (hnamed : ∀ x ∈ xs, x.Named) (hxs : ∃ x ∈ xs, ¬ x.Plain)
    (h : feed ⟨.text 0, f :: fs, none⟩ (xs.flatMap Node.write) = some q) :
    q.weight < (⟨.text 0, f :: fs, none⟩ : Parser).weight + (xs.map Node.cost).sum := by
  induction xs generalizing f with
  | nil => simp at hxs
  | cons x xs ih =>
    have hnamed' : ∀ x ∈ xs, x.Named := fun x hx => hnamed x (by simp [hx])
    rw [List.flatMap_cons, feed_append_some] at h
    obtain ⟨m, hm, hrest⟩ := h
    rw [List.map_cons, List.sum_cons]
    by_cases hx : x.Plain
    · have hxs' := ((List.exists_mem_cons_iff _ _ _).mp hxs).resolve_left (not_not_intro hx)
      rw [feed_node (hnamed x (by simp)) hx] at hm
      obtain rfl := Option.some.inj hm
      have hlt := ih hnamed' hxs' hrest
      have hread := weight_addChildren f [x.element] fs none 0 0
      have hnode := weight_node x
      rw [weights_cons, weights_nil] at hread
      omega
    · obtain ⟨hsettled, hlt⟩ := weight_node_lt (hnamed x (by simp)) hx hm
      obtain ⟨-, hle⟩ := settled_nodes hnamed' hsettled hrest
      omega

end weight

section document
variable {tag : List Char} {xs : List Node}

def writeDocument (tag : List Char) (xs : List Node) : List Char :=
  declaration ++ (['\n'] ++ (('<' :: tag ++ ['>']) ++ (['\n'] ++ (xs.flatMap Node.write ++ closeLine tag))))

def documentElement (tag : List Char) (xs : List Node) : Element :=
  Frame.element ⟨tag, [], ['\n'], xs.map Node.element⟩

theorem isChar_of_isClean {c : Char} (h : isClean c = true) : isChar c = true := (Bool.and_eq_true_iff.mp h).1

theorem all_isChar_of_isClean {cs : List Char} (h : cs.all isClean = true) : cs.all isChar = true := by
  rw [List.all_eq_true] at h ⊢
  exact fun c hc => isChar_of_isClean (h c hc)

theorem cr_not_mem_of_isClean {cs : List Char} (h : cs.all isClean = true) : '\r' ∉ cs :=
  fun hcr => absurd (List.all_eq_true.mp h _ hcr) (by decide)

theorem isClean_of_isNameChar {c : Char} (h : isNameChar c = true) : isClean c = true := by
  have hcr : c ≠ '\r' := isNameChar_ne h (by decide)
  have hcode : 32 ≤ c.toNat ∧ c.toNat ≠ 0xFFFE ∧ c.toNat ≠ 0xFFFF := by
    have hletter (h : c.isAlpha = true) : 65 ≤ c.toNat ∧ c.toNat ≤ 122 := by
      rcases Bool.or_eq_true_iff.mp (show (c.isUpper || c.isLower) = true from h) with h | h
      · have hupper : 'A'.val ≤ c.val ∧ c.val ≤ 'Z'.val := of_decide_eq_true h
        have hlow : 65 ≤ c.toNat := hupper.1
        have hhigh : c.toNat ≤ 90 := hupper.2
        omega
      · have hlower := Bool.and_eq_true_iff.mp
          (show (decide ('a'.val ≤ c.val) && decide (c.val ≤ 'z'.val)) = true from h)
        have hlow : 97 ≤ c.toNat := of_decide_eq_true hlower.1
        have hhigh : c.toNat ≤ 122 := of_decide_eq_true hlower.2
        omega
    simp only [isNameChar, isNameStart, Char.isDigit, inRanges,
      nameStartRanges, List.any_cons, List.any_nil, Bool.or_eq_true, Bool.and_eq_true, decide_eq_true_eq,
      Bool.false_eq_true, or_false] at h
    rcases h with (((((h | h) | h) | h) | h) | h) | h
    · have hcodes := hletter h
      omega
    · subst h
      decide
    · omega
    · have hlow : 48 ≤ c.toNat := h.1
      have hhigh : c.toNat ≤ 57 := h.2
      omega
    · subst h
      decide
    · subst h
      decide
    · omega
  simp [isClean, isChar, hcr, hcode]

theorem isClean_name (h : isName tag = true) : tag.all isClean = true := by
  cases tag with
  | nil => rfl
  | cons c cs =>
    rw [isName, Bool.and_eq_true, List.all_eq_true] at h
    have hfirst : isNameChar c = true := by simp [isNameChar, h.1]
    rw [List.all_cons, isClean_of_isNameChar hfirst, Bool.true_and, List.all_eq_true]
    exact fun d hd => isClean_of_isNameChar (h.2 d hd)

private theorem all_isClean_write {x : Node} (hnamed : x.Named) (hx : x.Clean) : x.write.all isClean = true := by
  have hchars : isClean '<' = true ∧ isClean '/' = true ∧ isClean '>' = true ∧ isClean ' ' = true ∧
      isClean '=' = true ∧ isClean quotationMark = true ∧ isClean '\n' = true := by decide
  have htexts : (x.leaves.flatMap fun l => leafText l.1 l.2).all isClean = true := by
    rw [List.all_flatMap, List.all_eq_true]
    intro l hl
    simp [leafText, isClean_name (hnamed.leaves l hl).isName, hx.leaves l hl, hchars]
  simp [Node.write, Node.writeTail, closeLine, hx.value, htexts, isClean_name hnamed.tag.isName,
    isClean_name hnamed.name.isName, hchars]

/-- A document of clean strings is clean. -/
theorem all_isClean_writeDocument (htag : PlainName tag) (hxs : ∀ x ∈ xs, x.Named ∧ x.Clean) :
    (writeDocument tag xs).all isClean = true := by
  have hchars : isClean '<' = true ∧ isClean '/' = true ∧ isClean '>' = true ∧ isClean '\n' = true := by decide
  have hdeclaration : declaration.all isClean = true := by decide
  have hnodes : (xs.flatMap Node.write).all isClean = true := by
    rw [List.all_flatMap, List.all_eq_true]
    exact fun x hx => all_isClean_write (hxs x hx).1 (hxs x hx).2
  simp [writeDocument, closeLine, hdeclaration, hnodes, isClean_name htag.isName, hchars]

private theorem feed_document (htag : isName tag = true) (hclean : (writeDocument tag xs).all isClean = true) :
    parseChars (writeDocument tag xs) =
      (feed ⟨.text 0, [⟨tag, [], ['\n'], []⟩], none⟩ (xs.flatMap Node.write ++ closeLine tag)).bind Parser.finish := by
  have hchars := all_isChar_of_isClean hclean
  have hcr := cr_not_mem_of_isClean hclean
  have hblank : feed blank ['\n'] = some ⟨.text 0, [], none⟩ := rfl
  unfold writeDocument at hcr
  rw [parseChars, if_pos hchars, writeDocument, if_pos (List.prefix_append _ _), List.drop_left,
    lineEnds_clean fun h => hcr (List.mem_append_right _ h), feed_append, hblank, Option.bind_some, feed_append,
    feed_openTag htag, Option.bind_some, feed_append, feed_lineFeed, Option.bind_some, Frame.addText_fresh]
  rfl

/-- A document of plain strings is read as it was meant. -/
theorem parse_plain (htag : isName tag = true) (hclean : (writeDocument tag xs).all isClean = true)
    (hxs : ∀ x ∈ xs, x.Named ∧ x.Plain) : parseChars (writeDocument tag xs) = some (documentElement tag xs) := by
  have hspace : feed ⟨.text 0, [], some (documentElement tag xs)⟩ ['\n'] =
      some ⟨.text 0, [], some (documentElement tag xs)⟩ := rfl
  have hclose : feed ⟨.text 0, [⟨tag, [], ['\n'], xs.map Node.element⟩], none⟩ (closeLine tag) =
      some ⟨.text 0, [], some (documentElement tag xs)⟩ := by
    rw [closeLine, feed_append, feed_closeTag htag, closeElement_root (by rfl), Option.bind_some]
    exact hspace
  rw [feed_document htag hclean, feed_append, feed_nodes hxs, Option.bind_some]
  simp only [Frame.addChildren, List.nil_append]
  rw [hclose]
  rfl

/-- A declaration is no markup that may follow the element of a document: of two documents one
behind the other not even the first one can be read. -/
theorem parse_two (htag : isName tag = true) (hclean : (writeDocument tag xs).all isClean = true)
    (hxs : ∀ x ∈ xs, x.Named ∧ x.Plain) (rest : List Char) :
    parseChars (writeDocument tag xs ++ (declaration ++ rest)) = none := by
  have hread := parse_plain htag hclean hxs
  rw [parseChars, if_pos (all_isChar_of_isClean hclean)] at hread
  obtain ⟨p, hp, hfinish⟩ := Option.bind_eq_some_iff.mp hread
  have hstop : feed p (declaration ++ lineEnds false rest) = none := by
    rcases p with ⟨mode, stack, root⟩
    unfold Parser.finish at hfinish
    split at hfinish
    · next n hmode hstack =>
      simp only at hmode hstack
      subst hmode hstack
      rfl
    · cases hfinish
  have hstart : declaration <+: writeDocument tag xs := List.prefix_append _ _
  have hdrop : (writeDocument tag xs ++ (declaration ++ rest)).drop declaration.length =
      (writeDocument tag xs).drop declaration.length ++ (declaration ++ rest) :=
    List.drop_append_of_le_length hstart.length_le
  have hcr : '\r' ∉ (writeDocument tag xs).drop declaration.length :=
    fun h => cr_not_mem_of_isClean hclean (List.mem_of_mem_drop h)
  rw [if_pos hstart, lineEnds_clean hcr] at hp
  rw [parseChars, if_pos (hstart.trans (List.prefix_append _ _)), hdrop, lineEnds_clean_append hcr,
    lineEnds_clean_append (by decide), feed_append, hp, Option.bind_some, hstop]
  split_ifs <;> rfl

/-- The element at the end of the document is all that is left. -/
theorem weight_finish {q : Parser} {e : Element} (h : q.finish = some e) : e.weight ≤ q.weight := by
  rcases q with ⟨mode, stack, root⟩
  unfold Parser.finish at h
  split at h
  · next hmode hstack =>
    simp only at h hstack
    subst h
    simp only [Parser.weight, Parser.treeWeight, Option.elim_some]
    omega
  · cases h

/-- A document with markup in one of its strings says less than its strings. -/
theorem weight_parse_lt (htag : PlainName tag) (hclean : (writeDocument tag xs).all isClean = true)
    (hnamed : ∀ x ∈ xs, x.Named) (hxs : ∃ x ∈ xs, ¬ x.Plain) {root : Element}
    (h : parseChars (writeDocument tag xs) = some root) : root.weight < (xs.map Node.cost).sum := by
  rw [feed_document htag.isName hclean] at h
  obtain ⟨q, hq, hroot⟩ := Option.bind_eq_some_iff.mp h
  obtain ⟨m, hm, hclose⟩ := feed_append_some.mp hq
  have hlt := weight_nodes_lt hnamed hxs hm
  obtain ⟨-, hle⟩ := settled_closeTag htag hclose
  have hstart : (⟨.text 0, [⟨tag, [], ['\n'], []⟩], none⟩ : Parser).weight = 0 := rfl
  have hfinish := weight_finish hroot
  omega

end document
end Roofline.Library.Xml
