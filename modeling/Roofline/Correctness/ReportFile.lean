import Roofline.Correctness.UniqueNames
import Roofline.Library.Xml

/-! What a reader of XML finds in a file that the client has written. Nothing is escaped,
so the strings of the application have to be free of markup. -/
namespace Roofline.Correctness
open Client Library.Xml
variable {τ : Type}

/-- Text that is read as it stands if it can be read at all. -/
structure PlainText (s : String) : Prop where
  lt : '<' ∉ s.toList
  amp : '&' ∉ s.toList
  cr : '\r' ∉ s.toList

/-- Labels without markup and quotation marks of either kind. -/
structure PlainLabel (s : String) : Prop where
  lt : '<' ∉ s.toList
  amp : '&' ∉ s.toList
  quotation : quotationMark ∉ s.toList
  apos : apostrophe ∉ s.toList

/-- The strings of a point that its report contains. -/
structure PlainPoint (p : Point τ) : Prop where
  label : PlainLabel p.label
  fileStart : PlainText p.srcFileStart
  fileEnd : PlainText p.srcFileEnd

def fields [Sub τ] (opts : Options) (fmtF : τ → String) (p : Point τ) : List (String × String) :=
  if opts.timeRun = false then
    [("flops", toString p.flops.toNat), ("bytes", toString p.bytes.toNat),
      ("read_bytes", toString p.readBytes.toNat), ("write_bytes", toString p.writeBytes.toNat),
      ("src_file_start", p.srcFileStart), ("src_file_end", p.srcFileEnd),
      ("line_n_start", toString p.lineNumberStart.toNat), ("line_n_end", toString p.lineNumberEnd.toNat)]
  else [("time", fmtF p.elapsed)]

/-- The value that the attribute of a written name has. -/
def nameValue (name : String) : String := String.ofList ((lineEnds false name.toList).map attrChar)

def leafOf (field : String × String) : Element := leaf field.1.toList field.2.toList

def pointElement [Sub τ] (opts : Options) (fmtF : τ → String) (p : Point τ) (name : String) : Element :=
  ⟨"point", [("label", nameValue name)], some "\n", (fields opts fmtF p).map leafOf⟩

/-- What event_thread_exit writes for the given points. -/
def document [Sub τ] (opts : Options) (fmtF : τ → String) (ps : List (Point τ)) : String :=
  "<?xml version=\"1.0\"?>\n" ++ "<roofline>\n" ++ saveToFile opts fmtF ps ++ "</roofline>\n"

section dump
variable [Sub τ] (opts : Options) (fmtF : τ → String) (p : Point τ) (name : String)

def dumpTail : List Char :=
  '>' :: '\n' :: (fields opts fmtF p).flatMap (fun l => leafText l.1.toList l.2.toList) ++
    ('<' :: '/' :: "point".toList ++ ['>']) ++ ['\n']

def dumpHead : List Char := ('<' :: "point".toList) ++ (' ' :: "label".toList) ++ ['=', quotationMark]

set_option maxRecDepth 4000 in
theorem dumpInfo_toList :
    (p.dumpInfo opts fmtF name).toList = dumpHead ++ name.toList ++ quotationMark :: dumpTail opts fmtF p := by
  unfold Point.dumpInfo dumpHead dumpTail fields
  split_ifs <;> simp [leafText, quotationMark]

end dump

section plain

theorem not_mem_toString {c : Char} (hc : c.isDigit = false) (n : ℕ) : c ∉ (toString n).toList := by
  intro h
  rw [Library.isDigit_numeral h] at hc
  cases hc

private theorem plainText_toString (n : ℕ) : PlainText (toString n) :=
  ⟨not_mem_toString (by decide) n, not_mem_toString (by decide) n, not_mem_toString (by decide) n⟩

private theorem PlainLabel.append_numeral {s : String} (h : PlainLabel s) (n : ℕ) :
    PlainLabel (s ++ toString n) := by
  have happ {c : Char} (hs : c ∉ s.toList) (hc : c.isDigit = false) : c ∉ (s ++ toString n).toList := by
    rw [String.toList_append, List.mem_append, not_or]
    exact ⟨hs, not_mem_toString hc n⟩
  exact ⟨happ h.lt (by decide), happ h.amp (by decide), happ h.quotation (by decide), happ h.apos (by decide)⟩

/-- A written name is the label of its point, or that label with a numeral. -/
theorem mem_outputNames {ps : List (Point τ)} {q : Point τ × String} (h : q ∈ outputNames ps) :
    q.1 ∈ ps ∧ (q.2 = q.1.label ∨ ∃ n : ℕ, q.2 = q.1.label ++ toString n) := by
  obtain ⟨i, hi⟩ := List.mem_iff_getElem?.mp h
  rw [outputNames_getElem, Option.map_eq_some_iff] at hi
  obtain ⟨p, hp, rfl⟩ := hi
  refine ⟨List.mem_of_getElem? hp, ?_⟩
  cases ((ps.map (·.label)).take i).count p.label with
  | zero => exact .inl rfl
  | succ t => exact .inr ⟨t + 1, rfl⟩

/-- What holds of the labels, and of them with a numeral, holds of the names. -/
theorem forall_outputNames {P : String → Prop} (hnumeral : ∀ s (n : ℕ), P s → P (s ++ toString n))
    {ps : List (Point τ)} (hps : ∀ p ∈ ps, P p.label) : ∀ q ∈ outputNames ps, P q.2 := by
  intro q hq
  obtain ⟨hp, hname | ⟨n, hname⟩⟩ := mem_outputNames hq
  · rw [hname]
    exact hps q.1 hp
  · rw [hname]
    exact hnumeral q.1.label n (hps q.1 hp)

theorem plainLabel_outputNames {ps : List (Point τ)} (hps : ∀ p ∈ ps, PlainPoint p)
    {q : Point τ × String} (h : q ∈ outputNames ps) : PlainLabel q.2 :=
  forall_outputNames (fun _ n hs => hs.append_numeral n) (fun p hp => (hps p hp).label) q h

def fieldTags : List String :=
  ["flops", "bytes", "read_bytes", "write_bytes", "src_file_start", "src_file_end", "line_n_start", "line_n_end",
    "time"]

theorem tag_mem_fieldTags [Sub τ] {opts : Options} {fmtF : τ → String} {p : Point τ} {l : String × String}
    (hl : l ∈ fields opts fmtF p) : l.1 ∈ fieldTags := by
  unfold fields at hl
  split_ifs at hl
  · simp only [List.mem_cons, List.not_mem_nil, or_false] at hl
    rcases hl with rfl | rfl | rfl | rfl | rfl | rfl | rfl | rfl <;> simp [fieldTags]
  · obtain rfl := List.mem_singleton.mp hl
    simp [fieldTags]

private theorem tag_fields [Sub τ] {opts : Options} {fmtF : τ → String} {p : Point τ} {l : String × String}
    (hl : l ∈ fields opts fmtF p) : isName l.1.toList = true ∧ '\r' ∉ l.1.toList := by
  have htags : ∀ tag ∈ fieldTags, isName tag.toList = true ∧ '\r' ∉ tag.toList := by decide
  exact htags l.1 (tag_mem_fieldTags hl)

private theorem plainText_fields [Sub τ] {opts : Options} {fmtF : τ → String} (hfmt : ∀ t, PlainText (fmtF t))
    {p : Point τ}
    (hp : PlainPoint p) {l : String × String} (hl : l ∈ fields opts fmtF p) : PlainText l.2 := by
  unfold fields at hl
  split_ifs at hl
  · simp only [List.mem_cons, List.not_mem_nil, or_false] at hl
    rcases hl with rfl | rfl | rfl | rfl | rfl | rfl | rfl | rfl
    · exact plainText_toString _
    · exact plainText_toString _
    · exact plainText_toString _
    · exact plainText_toString _
    · exact hp.fileStart
    · exact hp.fileEnd
    · exact plainText_toString _
    · exact plainText_toString _
  · obtain rfl := List.mem_singleton.mp hl
    exact hfmt _

end plain

section reading
variable [Sub τ] {opts : Options} {fmtF : τ → String} (hfmt : ∀ t, PlainText (fmtF t))

include hfmt in
private theorem cr_dumpTail {p : Point τ} (hp : PlainPoint p) : '\r' ∉ dumpTail opts fmtF p := by
  have hleaves : '\r' ∉ (fields opts fmtF p).flatMap fun l => leafText l.1.toList l.2.toList := by
    intro h
    obtain ⟨l, hl, h⟩ := List.mem_flatMap.mp h
    have htag := (tag_fields hl).2
    have hcr := (plainText_fields hfmt hp hl).cr
    simp [leafText, hcr, htag] at h
  simp [dumpTail, hleaves]

include hfmt in
private theorem lineEnds_dumpInfo {p : Point τ} (hp : PlainPoint p) (name : String) (rest : List Char) :
    lineEnds false ((p.dumpInfo opts fmtF name).toList ++ rest) =
      dumpHead ++ lineEnds false name.toList ++ quotationMark :: dumpTail opts fmtF p ++ lineEnds false rest := by
  have hhead : '\r' ∉ dumpHead := by decide
  have htail : '\r' ∉ quotationMark :: dumpTail opts fmtF p := by
    rw [List.mem_cons, not_or]
    exact ⟨by decide, cr_dumpTail hfmt hp⟩
  rw [dumpInfo_toList, List.append_assoc, List.append_assoc, lineEnds_clean_append hhead,
    List.cons_append,
    lineEnds_append_cons false _ (by decide), ← List.cons_append, lineEnds_clean_append htail]
  simp

include hfmt in
/-- Reading a written point adds its element to the one that is open. -/
theorem feed_dumpInfo {p : Point τ} (hp : PlainPoint p) {name : String} (hname : PlainLabel name)
    {n : ℕ} {f : Frame} {fs : List Frame} {q : Parser} (h : feed ⟨.text n, f :: fs, none⟩
      (dumpHead ++ lineEnds false name.toList ++ quotationMark :: dumpTail opts fmtF p) = some q) :
    ∃ m, q = ⟨.text m, f.addChildren [pointElement opts fmtF p name] :: fs, none⟩ := by
  have hlt : '<' ∉ lineEnds false name.toList := fun h => hname.lt (mem_lineEnds (by decide) h)
  have hamp : '&' ∉ lineEnds false name.toList := fun h => hname.amp (mem_lineEnds (by decide) h)
  have hquote : quotationMark ∉ lineEnds false name.toList :=
    fun h => hname.quotation (mem_lineEnds (by decide) h)
  have hleaves : ∀ l ∈ (fields opts fmtF p).map fun l => (l.1.toList, l.2.toList),
      isName l.1 = true ∧ '<' ∉ l.2 ∧ '&' ∉ l.2 := by
    intro t ht
    obtain ⟨l, hl, rfl⟩ := List.mem_map.mp ht
    have hplain := plainText_fields hfmt hp hl
    exact ⟨(tag_fields hl).1, hplain.lt, hplain.amp⟩
  have hsplit : dumpHead ++ lineEnds false name.toList ++ quotationMark :: dumpTail opts fmtF p =
      (dumpHead ++ lineEnds false name.toList ++ [quotationMark, '>']) ++ (['\n'] ++
        (((fields opts fmtF p).map fun l => (l.1.toList, l.2.toList)).flatMap (fun l => leafText l.1 l.2) ++
          (('<' :: '/' :: "point".toList ++ ['>']) ++ ['\n']))) := by
    simp [dumpTail, List.flatMap_map]
  rw [hsplit, feed_append, dumpHead, feed_openTagAttr (by decide) (by decide) hlt hamp hquote,
    Option.bind_some, feed_append_some] at h
  obtain ⟨p₁, h₁, h⟩ := h
  obtain ⟨m, rfl⟩ := feed_text (by decide) (by decide) h₁
  obtain ⟨p₂, h₂, h⟩ := feed_append_some.mp h
  obtain ⟨m, rfl⟩ := feed_leafTexts hleaves h₂
  rw [Frame.addText_fresh, feed_append, feed_closeTag (by decide), closeElement_child (by rfl),
    Option.bind_some] at h
  obtain ⟨m, rfl⟩ := feed_text (by decide) (by decide) h
  refine ⟨m, ?_⟩
  rw [Frame.addText_addChildren f (by simp)]
  have hchildren : leafOf = fun l => leaf l.1.toList l.2.toList := rfl
  simp [pointElement, Frame.element, Frame.addChildren, hchildren, nameValue, Function.comp_def]

include hfmt in
/-- All written points are read as elements, in order. -/
theorem feed_points {qs : List (Point τ × String)} (hqs : ∀ q ∈ qs, PlainPoint q.1 ∧ PlainLabel q.2)
    {n : ℕ} {f : Frame} {fs : List Frame} {rest : List Char} {q : Parser}
    (h : feed ⟨.text n, f :: fs, none⟩
      (lineEnds false (qs.flatMap (fun q => (q.1.dumpInfo opts fmtF q.2).toList) ++ rest)) = some q) :
    ∃ m, feed ⟨.text m, f.addChildren (qs.map fun q => pointElement opts fmtF q.1 q.2) :: fs, none⟩
      (lineEnds false rest) = some q := by
  induction qs generalizing n f with
  | nil => exact ⟨n, by simpa using h⟩
  | cons s qs ih =>
    obtain ⟨hp, hname⟩ := hqs s (by simp)
    rw [List.flatMap_cons, List.append_assoc, lineEnds_dumpInfo hfmt hp, feed_append_some] at h
    obtain ⟨p, hread, h⟩ := h
    obtain ⟨m, rfl⟩ := feed_dumpInfo hfmt hp hname hread
    obtain ⟨m, h⟩ := ih (fun q hq => hqs q (by simp [hq])) h
    exact ⟨m, by simpa using h⟩

theorem document_toList (ps : List (Point τ)) :
    (document opts fmtF ps).toList =
      declaration ++ (['\n'] ++ (('<' :: "roofline".toList ++ ['>']) ++ (['\n'] ++
        ((outputNames ps).flatMap (fun q => (q.1.dumpInfo opts fmtF q.2).toList) ++
          ('<' :: '/' :: "roofline".toList ++ ['>'] ++ ['\n']))))) := by
  have hjoin :
      (String.join ((outputNames ps).map fun q => q.1.dumpInfo opts fmtF q.2)).toList =
        (outputNames ps).flatMap fun q => (q.1.dumpInfo opts fmtF q.2).toList := by
    rw [String.toList_join, List.flatMap_map]
  have hdeclaration : "<?xml version=\"1.0\"?>\n".toList = declaration ++ ['\n'] := rfl
  have hopen : "<roofline>\n".toList = ('<' :: "roofline".toList ++ ['>']) ++ ['\n'] := rfl
  have hclose : "</roofline>\n".toList = '<' :: '/' :: "roofline".toList ++ ['>'] ++ ['\n'] := rfl
  unfold document saveToFile
  simp only [String.toList_append, hjoin, hdeclaration, hopen, hclose]
  simp only [List.append_assoc]

theorem outputFile_document [Zero τ] (es : List (Event τ)) :
    outputFile opts fmtF es = document opts fmtF (finalPoints opts es) := rfl

/-- What the reader gets to see of a written file. -/
theorem parse_eq [Zero τ] (es : List (Event τ)) :
    parse (outputFile opts fmtF es) =
      parseChars (declaration ++ (['\n'] ++ (('<' :: "roofline".toList ++ ['>']) ++ (['\n'] ++
        ((outputNames (finalPoints opts es)).flatMap
            (fun q => dumpHead ++ q.2.toList ++ quotationMark :: dumpTail opts fmtF q.1) ++
          ('<' :: '/' :: "roofline".toList ++ ['>'] ++ ['\n'])))))) := by
  rw [parse, outputFile_document, document_toList]
  simp only [dumpInfo_toList]

include hfmt in
/-- Whatever is read from a file of plain strings are the written points, in order. -/
theorem parse_outputFile [Zero τ] {es : List (Event τ)} (hps : ∀ p ∈ finalPoints opts es, PlainPoint p)
    {root : Element} (h : parse (outputFile opts fmtF es) = some root) :
    root = ⟨"roofline", [], some "\n",
      (outputNames (finalPoints opts es)).map fun q => pointElement opts fmtF q.1 q.2⟩ := by
  have hqs : ∀ q ∈ outputNames (finalPoints opts es), PlainPoint q.1 ∧ PlainLabel q.2 := by
    intro q hq
    exact ⟨hps q.1 (mem_outputNames hq).1, plainLabel_outputNames hps hq⟩
  rw [parse, parseChars, outputFile_document, document_toList, if_pos (List.prefix_append _ _), List.drop_left] at h
  split_ifs at h
  obtain ⟨q, hq, hroot⟩ := Option.bind_eq_some_iff.mp h
  have hblank : feed blank ['\n'] = some ⟨.text 0, [], none⟩ := rfl
  rw [lineEnds_clean_append (by decide), lineEnds_clean_append (by decide),
    lineEnds_clean_append (by decide),
    feed_append, hblank, Option.bind_some, feed_append, feed_openTag (by decide), Option.bind_some,
    feed_append_some] at hq
  obtain ⟨p, hp, hq⟩ := hq
  obtain ⟨m, rfl⟩ := feed_text (by decide) (by decide) hp
  obtain ⟨m, hq⟩ := feed_points hfmt hqs hq
  rw [lineEnds_clean (by decide), Frame.addText_fresh, feed_append, feed_closeTag (by decide),
    closeElement_root (by rfl),
    Option.bind_some] at hq
  obtain rfl := Option.some.inj hq
  obtain rfl := Option.some.inj hroot
  simp [Frame.element, Frame.addChildren]

end reading
end Roofline.Correctness
