import Roofline.Correctness.JoinByLabel
import Roofline.Library.XmlNodes

/-! Reading a written file back. The strings of the points go through printf formats as they
are, and the file says what it was meant to say if and only if they need no escaping. -/
namespace Roofline.Correctness
open Client Library.Xml Report
variable {τ : Type}

def isPrintable (c : Char) : Bool := 32 ≤ c.toNat && c.toNat ≤ 126

def Printable (s : String) : Prop := s.toList.all isPrintable = true

structure PrintablePoint (p : Client.Point τ) : Prop where
  label : Printable p.label
  fileStart : Printable p.srcFileStart
  fileEnd : Printable p.srcFileEnd

/-- An element tells the name of a point and what dump_info writes of it. -/
structure Recovered (e : Element) (p : Client.Point τ) (name : String) : Prop where
  label : attribOf e "label" = .ok name
  flops : intOf e "flops" = .ok p.flops.toNat
  bytes : intOf e "bytes" = .ok p.bytes.toNat
  readBytes : intOf e "read_bytes" = .ok p.readBytes.toNat
  writeBytes : intOf e "write_bytes" = .ok p.writeBytes.toNat
  startSrc : textOf e "src_file_start" = .ok (textIn p.srcFileStart)
  endSrc : textOf e "src_file_end" = .ok (textIn p.srcFileEnd)
  startLine : intOf e "line_n_start" = .ok p.lineNumberStart.toNat
  endLine : intOf e "line_n_end" = .ok p.lineNumberEnd.toNat

/-- The file is well formed, and its points are those that were written, in order. -/
def RoundTrip [Sub τ] (opts : Options) (fmtF : τ → String) (ps : List (Client.Point τ)) : Prop :=
  ∃ root, parse (document opts fmtF ps) = some root ∧
    List.Forall₂ (fun e q => Recovered e q.1 q.2) (pointsOf root) (outputNames ps)

/-- The strings of a point need no escaping. -/
structure UnescapedPoint (p : Client.Point τ) : Prop where
  label : PlainValue p.label.toList
  fileStart : PlainContent p.srcFileStart.toList
  fileEnd : PlainContent p.srcFileEnd.toList

section node
variable [Sub τ] (opts : Options) (fmtF : τ → String)

def pointNode (q : Client.Point τ × String) : Node :=
  ⟨"point".toList, "label".toList, q.2.toList, (fields opts fmtF q.1).map fun l => (l.1.toList, l.2.toList)⟩

theorem document_eq_write (ps : List (Client.Point τ)) :
    (document opts fmtF ps).toList =
      writeDocument "roofline".toList ((outputNames ps).map (pointNode opts fmtF)) := by
  have hnode (q : Client.Point τ × String) :
      (q.1.dumpInfo opts fmtF q.2).toList = (pointNode opts fmtF q).write := by
    rw [dumpInfo_toList]
    simp [pointNode, Node.write, Node.writeTail, closeLine, dumpHead, dumpTail, List.flatMap_map]
  rw [document_toList, writeDocument, List.flatMap_map]
  simp only [hnode]
  rfl

variable {opts fmtF}

theorem named_pointNode (q : Client.Point τ × String) : (pointNode opts fmtF q).Named := by
  have htags : ∀ tag ∈ fieldTags, PlainName tag.toList := by decide
  have hpoint : PlainName "point".toList := by decide
  have hlabel : PlainName "label".toList := by decide
  refine ⟨hpoint, hlabel, ?_, ?_⟩
  · intro t ht
    obtain ⟨l, hl, rfl⟩ := List.mem_map.mp ht
    exact htags l.1 (tag_mem_fieldTags hl)
  · unfold pointNode fields
    split_ifs <;> simp

theorem plain_pointNode {q : Client.Point τ × String} :
    (pointNode opts fmtF q).Plain ↔
      PlainValue q.2.toList ∧ ∀ l ∈ fields opts fmtF q.1, PlainContent l.2.toList := by
  constructor
  · rintro ⟨hvalue, hleaves⟩
    exact ⟨hvalue, fun l hl => hleaves _ (List.mem_map_of_mem hl)⟩
  · rintro ⟨hvalue, hfields⟩
    refine ⟨hvalue, fun t ht => ?_⟩
    obtain ⟨l, hl, rfl⟩ := List.mem_map.mp ht
    exact hfields l hl

theorem clean_pointNode {q : Client.Point τ × String} :
    (pointNode opts fmtF q).Clean ↔
      q.2.toList.all isClean = true ∧ ∀ l ∈ fields opts fmtF q.1, l.2.toList.all isClean = true := by
  constructor
  · rintro ⟨hvalue, hleaves⟩
    exact ⟨hvalue, fun l hl => hleaves _ (List.mem_map_of_mem hl)⟩
  · rintro ⟨hvalue, hfields⟩
    refine ⟨hvalue, fun t ht => ?_⟩
    obtain ⟨l, hl, rfl⟩ := List.mem_map.mp ht
    exact hfields l hl

private theorem element_pointNode {q : Client.Point τ × String} (hclean : (pointNode opts fmtF q).Clean) :
    (pointNode opts fmtF q).element = pointElement opts fmtF q.1 q.2 := by
  have hname : '\r' ∉ q.2.toList := cr_not_mem_of_isClean hclean.value
  have hchildren : leafOf = fun l => leaf l.1.toList l.2.toList := rfl
  simp [Node.element, pointNode, pointElement, Frame.element, nameValue, lineEnds_clean hname, hchildren,
    Function.comp_def]

variable {ps : List (Client.Point τ)}

/-- A file of clean strings without markup is read as the written points, in order. -/
theorem parse_document (hclean : ∀ q ∈ outputNames ps, (pointNode opts fmtF q).Clean)
    (hplain : ∀ q ∈ outputNames ps, (pointNode opts fmtF q).Plain) :
    ∃ root, parse (document opts fmtF ps) = some root ∧
      pointsOf root = (outputNames ps).map fun q => pointElement opts fmtF q.1 q.2 := by
  have htag : PlainName "roofline".toList := by decide
  have hread := all_isClean_writeDocument htag
    (List.forall_mem_map.mpr fun q hq => ⟨named_pointNode q, hclean q hq⟩)
  have helements : ((outputNames ps).map (pointNode opts fmtF)).map Node.element =
      (outputNames ps).map fun q => pointElement opts fmtF q.1 q.2 := by
    rw [List.map_map]
    exact List.map_congr_left fun q hq => element_pointNode (hclean q hq)
  refine ⟨documentElement "roofline".toList ((outputNames ps).map (pointNode opts fmtF)), ?_, ?_⟩
  · rw [parse, document_eq_write]
    exact parse_plain htag.isName hread (List.forall_mem_map.mpr fun q hq => ⟨named_pointNode q, hplain q hq⟩)
  · rw [pointsOf, documentElement, Frame.element, helements, List.filter_eq_self]
    intro e he
    obtain ⟨q, -, rfl⟩ := List.mem_map.mp he
    rfl

end node

section printable

private theorem isClean_of_isPrintable {c : Char} (h : isPrintable c = true) : isClean c = true := by
  simp only [isPrintable, Bool.and_eq_true, decide_eq_true_eq] at h
  have hcr : c ≠ '\r' := by
    rintro rfl
    exact absurd h.1 (by decide)
  have hcode : 32 ≤ c.toNat ∧ c.toNat ≠ 0xFFFE ∧ c.toNat ≠ 0xFFFF := by omega
  simp [isClean, isChar, hcr, hcode]

theorem Printable.clean {s : String} (h : Printable s) : s.toList.all isClean = true := by
  rw [Printable, List.all_eq_true] at h
  rw [List.all_eq_true]
  exact fun c hc => isClean_of_isPrintable (h c hc)

theorem Printable.not_mem {s : String} (h : Printable s) {c : Char} (hc : isPrintable c = false) : c ∉ s.toList := by
  intro hmem
  rw [List.all_eq_true.mp h c hmem] at hc
  cases hc

private theorem isPrintable_of_isDigit {c : Char} (h : c.isDigit = true) : isPrintable c = true := by
  simp only [Char.isDigit, Bool.and_eq_true, decide_eq_true_eq] at h
  have hlow : 48 ≤ c.toNat := h.1
  have hhigh : c.toNat ≤ 57 := h.2
  simp only [isPrintable, Bool.and_eq_true, decide_eq_true_eq]
  omega

theorem printable_toString (n : ℕ) : Printable (toString n) :=
  List.all_eq_true.mpr fun _ hc => isPrintable_of_isDigit (Library.isDigit_numeral hc)

theorem plainContent_toString (n : ℕ) : PlainContent (toString n).toList :=
  plainContent_of_not_mem (not_mem_toString (by decide) n) (not_mem_toString (by decide) n)
    (not_mem_toString (by decide) n)

/-- The value of a printable name is the name. -/
theorem nameValue_printable {name : String} (h : Printable name) : nameValue name = name := by
  have hchar : ∀ c ∈ name.toList, attrChar c = id c := by
    intro c hc
    rw [attrChar]
    split_ifs with hspace
    · simp only [isSpace, Bool.or_eq_true, decide_eq_true_eq] at hspace
      rcases hspace with ((rfl | rfl) | rfl) | rfl
      · rfl
      all_goals exact absurd hc (h.not_mem (by decide))
    · rfl
  have hattr : name.toList.map attrChar = name.toList := (List.map_congr_left hchar).trans (List.map_id _)
  rw [nameValue, lineEnds_clean (h.not_mem (by decide)), hattr, String.ofList_toList]

variable {ps : List (Client.Point τ)} {q : Client.Point τ × String}

theorem printable_outputNames (hps : ∀ p ∈ ps, PrintablePoint p) (hq : q ∈ outputNames ps) : Printable q.2 := by
  refine forall_outputNames (fun s n hs => ?_) (fun p hp => (hps p hp).label) q hq
  rw [Printable, String.toList_append, List.all_append, Bool.and_eq_true]
  exact ⟨hs, printable_toString n⟩

/-- A name needs escaping if the label of its point does. -/
theorem plainValue_outputNames (hq : q ∈ outputNames ps) : PlainValue q.2.toList ↔ PlainValue q.1.label.toList := by
  have happ {c : Char} (n : ℕ) (hc : c.isDigit = false) :
      c ∉ (q.1.label ++ toString n).toList ↔ c ∉ q.1.label.toList := by
    rw [String.toList_append, List.mem_append, not_or]
    exact and_iff_left (not_mem_toString hc n)
  obtain ⟨-, hname | ⟨n, hname⟩⟩ := mem_outputNames hq
  · rw [hname]
  · rw [hname]
    constructor
    · rintro ⟨hlt, hamp, hquotation⟩
      exact ⟨(happ n (by decide)).mp hlt, (happ n (by decide)).mp hamp, (happ n (by decide)).mp hquotation⟩
    · rintro ⟨hlt, hamp, hquotation⟩
      exact ⟨(happ n (by decide)).mpr hlt, (happ n (by decide)).mpr hamp, (happ n (by decide)).mpr hquotation⟩

end printable

section recovered
variable [Sub τ] {opts : Options} {fmtF : τ → String} {p : Client.Point τ} {name : String}

theorem toString_ne_empty (n : ℕ) : toString n ≠ "" :=
  fun hempty => Library.numeral_ne_nil n (String.toList_eq_nil_iff.mpr hempty)

theorem intOf_numeral {e : Element} {tag : String} {n : ℕ} (h : textOf e tag = .ok (textIn (toString n))) :
    intOf e tag = .ok n := by
  rw [intOf, h, textIn, if_neg (toString_ne_empty n), ok_bind]
  simp only [pyInt_toString]
  rfl

/-- The element of a point tells what was written. -/
theorem recovered_pointElement (ht : opts.timeRun = false) (hname : Printable name) :
    Recovered (pointElement opts fmtF p name) p name := by
  have hlabel : attribOf (pointElement opts fmtF p name) "label" = .ok name := by
    rw [attribOf_pointElement, nameValue_printable hname]
  exact {
    label := hlabel
    flops := intOf_numeral (textOf_pointElement (by simp [fields, ht]))
    bytes := intOf_numeral (textOf_pointElement (by simp [fields, ht]))
    readBytes := intOf_numeral (textOf_pointElement (by simp [fields, ht]))
    writeBytes := intOf_numeral (textOf_pointElement (by simp [fields, ht]))
    startSrc := textOf_pointElement (by simp [fields, ht])
    endSrc := textOf_pointElement (by simp [fields, ht])
    startLine := intOf_numeral (textOf_pointElement (by simp [fields, ht]))
    endLine := intOf_numeral (textOf_pointElement (by simp [fields, ht])) }

/-- A text that is found has its weight in a child of its tag. -/
theorem child_of_textOf {e : Element} {tag : String} {text : Option String} (h : textOf e tag = .ok text) :
    ∃ c ∈ e.children, c.tag = tag ∧ text.elim 0 (fun s => textWeight s.toList) ≤ c.weight := by
  unfold textOf at h
  split at h
  · next c hc =>
    obtain rfl := Except.ok.inj h
    have htag := List.find?_some hc
    refine ⟨c, List.mem_of_find?_eq_some hc, of_decide_eq_true htag, ?_⟩
    rcases c with ⟨tag, attrib, text, children⟩
    rw [Element.weight]
    simp only
    omega
  · cases h

private theorem child_of_intOf {e : Element} {tag : String} {n : ℕ} (h : intOf e tag = .ok n) :
    ∃ c ∈ e.children, c.tag = tag ∧ (toString n).toList.length ≤ c.weight := by
  unfold intOf at h
  obtain ⟨text, htext, hint⟩ := bind_eq_ok.mp h
  cases text with
  | none => cases hint
  | some text =>
    obtain ⟨c, hc, htag, hweight⟩ := child_of_textOf htext
    have hdigits := length_le_of_pyInt (orRaise_eq_ok.mp hint)
    exact ⟨c, hc, htag, hdigits.trans ((countP_le_textWeight _).trans hweight)⟩

private theorem child_of_file {e : Element} {tag file : String} (hfile : Printable file)
    (h : textOf e tag = .ok (textIn file)) : ∃ c ∈ e.children, c.tag = tag ∧ file.toList.length ≤ c.weight := by
  obtain ⟨c, hc, htag, hweight⟩ := child_of_textOf h
  refine ⟨c, hc, htag, le_trans ?_ hweight⟩
  unfold textIn
  split_ifs with hempty
  · rw [hempty]
    exact Nat.le_refl _
  · rw [Option.elim_some, textWeight, if_neg (hfile.not_mem (by decide))]

/-- An element that tells a point has the weight of its strings. -/
theorem cost_le_weight (ht : opts.timeRun = false) (hp : PrintablePoint p) {e : Element} (h : Recovered e p name) :
    (pointNode opts fmtF (p, name)).cost ≤ e.weight := by
  have hdistinct : ((fields opts fmtF p).map Prod.fst).Nodup := by
    unfold fields
    rw [if_pos ht]
    simp
  have hleaves : contentLength (pointNode opts fmtF (p, name)).leaves ≤ weights e.children := by
    have hsum : ((fields opts fmtF p).map fun l => l.2.toList.length).sum ≤ weights e.children := by
      refine sum_le_weights hdistinct fun l hl => ?_
      unfold fields at hl
      rw [if_pos ht] at hl
      simp only [List.mem_cons, List.not_mem_nil, or_false] at hl
      rcases hl with rfl | rfl | rfl | rfl | rfl | rfl | rfl | rfl
      · exact child_of_intOf h.flops
      · exact child_of_intOf h.bytes
      · exact child_of_intOf h.readBytes
      · exact child_of_intOf h.writeBytes
      · exact child_of_file hp.fileStart h.startSrc
      · exact child_of_file hp.fileEnd h.endSrc
      · exact child_of_intOf h.startLine
      · exact child_of_intOf h.endLine
    simpa [contentLength, pointNode, Function.comp_def] using hsum
  have hlookup : e.attrib.lookup "label" = some name := by
    have hlabel := h.label
    unfold attribOf at hlabel
    split at hlabel
    · next value hvalue =>
      obtain rfl := Except.ok.inj hlabel
      exact hvalue
    · cases hlabel
  have hvalue := length_le_attrib hlookup
  rcases e with ⟨tag, attrib, text, children⟩
  rw [Element.weight, Node.cost]
  simp only [pointNode] at hleaves hvalue ⊢
  omega

end recovered

section roundTrip
variable [Sub τ] {opts : Options} {fmtF : τ → String} {ps : List (Client.Point τ)}

/-- Numerals apart, the contents of a point are its files. -/
theorem forall_fields (ht : opts.timeRun = false) {P : String → Prop} (hnumeral : ∀ n : ℕ, P (toString n))
    {p : Client.Point τ} : (∀ l ∈ fields opts fmtF p, P l.2) ↔ P p.srcFileStart ∧ P p.srcFileEnd := by
  unfold fields
  rw [if_pos ht]
  simp only [List.forall_mem_cons, List.not_mem_nil, hnumeral, true_and, and_true, false_imp_iff, implies_true]

private theorem clean_of_printable (ht : opts.timeRun = false) (hps : ∀ p ∈ ps, PrintablePoint p)
    {q : Client.Point τ × String} (hq : q ∈ outputNames ps) : (pointNode opts fmtF q).Clean := by
  have hp := hps q.1 (mem_outputNames hq).1
  have hfields : ∀ l ∈ fields opts fmtF q.1, Printable l.2 :=
    (forall_fields ht printable_toString).mpr ⟨hp.fileStart, hp.fileEnd⟩
  exact clean_pointNode.mpr ⟨(printable_outputNames hps hq).clean, fun l hl => (hfields l hl).clean⟩

private theorem plain_iff_unescaped (ht : opts.timeRun = false) {q : Client.Point τ × String}
    (hq : q ∈ outputNames ps) :
    (pointNode opts fmtF q).Plain ↔ UnescapedPoint q.1 := by
  rw [plain_pointNode, plainValue_outputNames hq,
    forall_fields (P := fun s => PlainContent s.toList) ht plainContent_toString]
  constructor
  · rintro ⟨hlabel, hstart, hend⟩
    exact ⟨hlabel, hstart, hend⟩
  · rintro ⟨hlabel, hstart, hend⟩
    exact ⟨hlabel, hstart, hend⟩

private theorem sum_cost_le (ht : opts.timeRun = false) {es : List Element} {qs : List (Client.Point τ × String)}
    (hqs : ∀ q ∈ qs, PrintablePoint q.1) (h : List.Forall₂ (fun e q => Recovered e q.1 q.2) es qs) :
    ((qs.map (pointNode opts fmtF)).map Node.cost).sum ≤ weights es := by
  induction h with
  | nil => exact Nat.le_refl _
  | @cons e q es qs hhead _ ih =>
    have hcost : (pointNode opts fmtF q).cost ≤ e.weight := cost_le_weight ht (hqs q (by simp)) hhead
    have hrest := ih fun q hq => hqs q (by simp [hq])
    rw [List.map_cons, List.map_cons, List.sum_cons, weights_cons]
    omega

/-- A file of printable strings is read back as it was written if and only if none of its
strings needs to be escaped. -/
theorem roundTrip_iff (ht : opts.timeRun = false) (hps : ∀ p ∈ ps, PrintablePoint p) :
    RoundTrip opts fmtF ps ↔ ∀ p ∈ ps, UnescapedPoint p := by
  have hclean : ∀ q ∈ outputNames ps, (pointNode opts fmtF q).Clean := fun q hq => clean_of_printable ht hps hq
  constructor
  · rintro ⟨root, hroot, hall⟩ p hp
    by_contra hbad
    have htag : PlainName "roofline".toList := by decide
    obtain ⟨i, hi⟩ := List.getElem?_of_mem hp
    obtain ⟨name, hname⟩ := exists_name hi
    have hq := List.mem_of_getElem? hname
    have hmarked : ∃ x ∈ (outputNames ps).map (pointNode opts fmtF), ¬ x.Plain :=
      ⟨_, List.mem_map_of_mem hq, fun hplain => hbad ((plain_iff_unescaped ht hq).mp hplain)⟩
    have hnamed : ∀ x ∈ (outputNames ps).map (pointNode opts fmtF), x.Named ∧ x.Clean :=
      List.forall_mem_map.mpr fun q hq => ⟨named_pointNode q, hclean q hq⟩
    rw [parse, document_eq_write] at hroot
    have hlt := weight_parse_lt htag (all_isClean_writeDocument htag hnamed) (fun x hx => (hnamed x hx).1) hmarked
      hroot
    have hle : (((outputNames ps).map (pointNode opts fmtF)).map Node.cost).sum ≤ weights (pointsOf root) :=
      sum_cost_le ht (fun q hq => hps q.1 (mem_outputNames hq).1) hall
    have hpoints : weights (pointsOf root) ≤ weights root.children := sublist_weights List.filter_sublist
    have hchildren : weights root.children ≤ root.weight := by
      rcases root with ⟨tag, attrib, text, children⟩
      rw [Element.weight]
      exact Nat.le_add_left _ _
    omega
  · intro hunescaped
    obtain ⟨root, hroot, hpoints⟩ := parse_document hclean fun q hq =>
      (plain_iff_unescaped ht hq).mpr (hunescaped q.1 (mem_outputNames hq).1)
    refine ⟨root, hroot, ?_⟩
    rw [hpoints, List.forall₂_map_left_iff, List.forall₂_same]
    exact fun q hq => recovered_pointElement ht (printable_outputNames hps hq)

end roundTrip

def pointLabelled (label : String) : Client.Point ℕ := ⟨label, "a.c", "a.c", 10, 12, 2, 8, 8, 0, 0, 0⟩

private theorem printable_pointLabelled {labels : List String} (h : ∀ l ∈ labels, Printable l) :
    ∀ p ∈ labels.map pointLabelled, PrintablePoint p := by
  rw [List.forall_mem_map]
  intro label hlabel
  have hfile : Printable "a.c" := by
    unfold Printable
    decide
  exact ⟨h label hlabel, hfile, hfile⟩

/-- Neither a quotation mark of this kind nor a closing bracket is markup, and a label may repeat. -/
theorem roundTrip_iff_plainLabel :
    RoundTrip {} wholeSeconds (["it's", "a>b", "a>b"].map pointLabelled) := by
  have hprintable : ∀ l ∈ ["it's", "a>b", "a>b"], Printable l := by
    unfold Printable
    decide
  refine (roundTrip_iff rfl (printable_pointLabelled hprintable)).mpr ?_
  have hfile : PlainContent "a.c".toList := plainContent_of_not_mem (by decide) (by decide) (by decide)
  rw [List.forall_mem_map]
  intro label hlabel
  have hplain : '<' ∉ label.toList ∧ '&' ∉ label.toList ∧ quotationMark ∉ label.toList := by
    revert label
    decide
  exact ⟨⟨hplain.1, hplain.2.1, hplain.2.2⟩, hfile, hfile⟩

/-- The label of a template instance ends the file for its reader. -/
theorem templateLabel_not_roundTrip :
    (∀ p ∈ [pointLabelled "f<int>"], PrintablePoint p) ∧ ¬ RoundTrip {} wholeSeconds [pointLabelled "f<int>"] := by
  constructor
  · have hprintable : ∀ l ∈ ["f<int>"], Printable l := by
      unfold Printable
      decide
    exact printable_pointLabelled hprintable
  · have hnone : (parse (document {} wholeSeconds [pointLabelled "f<int>"])).isNone = true := by
      rw [parse, document_toList]
      simp only [dumpInfo_toList]
      decide +kernel
    rintro ⟨root, hroot, -⟩
    rw [hroot] at hnone
    cases hnone

end Roofline.Correctness
