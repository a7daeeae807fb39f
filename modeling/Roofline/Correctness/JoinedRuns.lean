import Roofline.Correctness.ReportFile
import Roofline.Correctness.Accounting
import Roofline.Report.GetPoints

/-! The two runs of a recording. The callbacks alone determine the names that are written,
so that joining the two files by name pairs their points by position. -/
namespace Roofline.Correctness
open Client Library.Xml Report
variable {τ : Type}

/-- What is written of a point apart from its counters and its time. -/
structure Outline where
  label : String
  srcFileStart : String
  srcFileEnd : String
  lineNumberStart : UInt32
  lineNumberEnd : UInt32
  deriving DecidableEq, Repr

def outline (p : Client.Point τ) : Outline :=
  ⟨p.label, p.srcFileStart, p.srcFileEnd, p.lineNumberStart, p.lineNumberEnd⟩

/-- The part of the client's state that the names depend on. -/
structure Shape where
  id : Int32
  lastSeenDelimiter : String
  newPointOnlyOnce : Bool
  pointList : List Outline
  curPoint : Outline
  deriving DecidableEq, Repr

def shape (σ : ClientState τ) : Shape :=
  ⟨σ.id, σ.lastSeenDelimiter, σ.newPointOnlyOnce, σ.data.pointList.map outline, outline σ.data.curPoint⟩

/-- Two runs trace the same regions, whatever else they record. -/
structure SameMode (opts opts' : Options) : Prop where
  roiStart : opts.roiStart = opts'.roiStart
  roiEnd : opts.roiEnd = opts'.roiEnd
  traceF : opts.traceF = opts'.traceF
  callsAsSeparateRoi : opts.callsAsSeparateRoi = opts'.callsAsSeparateRoi

/-- What a callback is called with, apart from the clock. -/
def callbackArgs : Event τ → Option (Bool × WrapCxt)
  | .roiInit cxt _ => some (true, cxt)
  | .roiEnd cxt _ => some (false, cxt)
  | _ => none

section shape
variable {opts opts' : Options} (hmode : SameMode opts opts')

private theorem outline_stampStart (opts : Options) (now : τ) (p : Client.Point τ) :
    outline (p.stampStart opts now) = outline p := by
  rw [Point.stampStart_eq]
  rfl

private theorem outline_stampEnd (opts : Options) (now : τ) (p : Client.Point τ) :
    outline (p.stampEnd opts now) = outline p := by
  rw [Point.stampEnd_eq]
  rfl

private theorem outline_of_region {p q : Client.Point τ} (h : p.region = q.region) : outline p = outline q := by
  simp only [Point.region, Region.mk.injEq] at h
  simp [outline, h]

include hmode in
private theorem SameMode.merged_eq : opts.merged = opts'.merged := by
  rw [Options.merged, Options.merged, hmode.callsAsSeparateRoi, hmode.traceF]

include hmode in
private theorem SameMode.startDelimiter_eq : opts.startDelimiter = opts'.startDelimiter := by
  rw [Options.startDelimiter, Options.startDelimiter, hmode.traceF, hmode.roiStart]

include hmode in
private theorem SameMode.endDelimiter_eq : opts.endDelimiter = opts'.endDelimiter := by
  rw [Options.endDelimiter, Options.endDelimiter, hmode.traceF, hmode.roiEnd]

variable [Zero τ]

private theorem outline_opened (opts : Options) (label : String) (cxt : WrapCxt) (now : τ)
    (p : Client.Point τ) :
    outline (p.opened opts label cxt now) =
      ⟨label, getSrcFileName cxt opts.startDelimiter, "", getLineN cxt opts.startDelimiter, 0⟩ := by
  rw [Point.opened_eq]
  rfl

omit [Zero τ] in
private theorem outline_ended (opts : Options) (cxt : WrapCxt) (now : τ) (p : Client.Point τ) :
    outline (p.ended opts cxt now) = { outline p with
      srcFileEnd := getSrcFileName cxt opts.endDelimiter
      lineNumberEnd := getLineN cxt opts.endDelimiter } := by
  rw [Point.ended_eq]
  rfl

private theorem outline_reset (p : Client.Point τ) : outline p.reset = ⟨"", "", "", 0, 0⟩ := rfl

/-- Only callbacks change the shape. -/
theorem shape_step_quiet (opts : Options) (σ : ClientState τ) {ev : Event τ}
    (hev : ev.isCallback = false) :
    shape (step opts σ ev) = shape σ := by
  cases ev with
  | roiInit cxt now => cases hev
  | roiEnd cxt now => cases hev
  | saveRef r => rfl
  | cleanCall n =>
    rw [step_cleanCall]
    have hdrained : outline (σ.data.curPoint.drained n σ.data.buf) = outline σ.data.curPoint :=
      outline_of_region (Point.region_drained n σ.data.buf σ.data.curPoint)
    split_ifs <;> simp [shape, hdrained]

include hmode in
/-- The same callback changes equal shapes in the same way. -/
theorem shape_step_callback {σ σ' : ClientState τ} (h : shape σ = shape σ') {ev ev' : Event τ}
    (hev : ev.isCallback = true) (hargs : callbackArgs ev = callbackArgs ev') :
    shape (step opts σ ev) = shape (step opts' σ' ev') := by
  simp only [shape, Shape.mk.injEq] at h
  obtain ⟨hid, hlast, honce, hlist, hcur⟩ := h
  have hlabel (cxt : WrapCxt) : roiLabel opts σ cxt = roiLabel opts' σ' cxt := by
    rw [roiLabel, roiLabel, hmode.callsAsSeparateRoi, hmode.traceF, hid, hmode.startDelimiter_eq]
  have hassign : (σ.getLabelAndAssignId opts).2.id = (σ'.getLabelAndAssignId opts').2.id ∧
      (σ.getLabelAndAssignId opts).2.lastSeenDelimiter =
        (σ'.getLabelAndAssignId opts').2.lastSeenDelimiter := by
    simp only [ClientState.getLabelAndAssignId, hmode.traceF, hid, hlast]
    split_ifs
    · exact ⟨rfl, rfl⟩
    · exact ⟨rfl, rfl⟩
  cases ev with
  | saveRef r => cases hev
  | cleanCall n => cases hev
  | roiInit cxt now =>
    cases ev' with
    | saveRef r => cases hargs
    | cleanCall n => cases hargs
    | roiEnd cxt' now' => cases hargs
    | roiInit cxt' now' =>
      obtain rfl : cxt = cxt' := by simpa [callbackArgs] using hargs
      rw [step_roiInit, step_roiInit]
      simp only [shape, Shape.mk.injEq, hmode.callsAsSeparateRoi, hmode.merged_eq, honce, hassign, hid,
        hlast, hlist, true_and]
      split_ifs
      · rw [outline_stampStart, outline_stampStart, hcur]
      · rw [outline_opened, outline_opened, hlabel, hmode.startDelimiter_eq]
  | roiEnd cxt now =>
    cases ev' with
    | saveRef r => cases hargs
    | cleanCall n => cases hargs
    | roiInit cxt' now' => cases hargs
    | roiEnd cxt' now' =>
      obtain rfl : cxt = cxt' := by simpa [callbackArgs] using hargs
      rw [step_roiEnd, step_roiEnd]
      simp only [shape, Shape.mk.injEq, hmode.callsAsSeparateRoi, hmode.merged_eq, honce, hassign, hid,
        hlast, true_and]
      cases hm : opts'.merged with
      | true => simp [outline_stampEnd, hcur, hlist]
      | false => simp [outline_ended, outline_reset, hcur, hlist, hmode.endDelimiter_eq]

/-- Events other than callbacks can be left out. -/
theorem shape_foldl_filter (opts : Options) (es : List (Event τ)) {σ σ' : ClientState τ}
    (h : shape σ = shape σ') :
    shape (es.foldl (step opts) σ) = shape ((es.filter Event.isCallback).foldl (step opts) σ') := by
  induction es generalizing σ σ' with
  | nil => exact h
  | cons ev es ih =>
    cases hev : ev.isCallback with
    | false =>
      rw [List.filter_cons_of_neg (by simp [hev])]
      exact ih ((shape_step_quiet opts σ hev).trans h)
    | true =>
      rw [List.filter_cons_of_pos hev]
      exact ih (shape_step_callback ⟨rfl, rfl, rfl, rfl⟩ h hev rfl)

omit [Zero τ] in
private theorem filterMap_callbackArgs (es : List (Event τ)) :
    es.filterMap callbackArgs = (es.filter Event.isCallback).filterMap callbackArgs := by
  rw [List.filterMap_filter]
  apply List.filterMap_congr
  intro ev _
  cases ev <;> rfl

omit [Zero τ] in
private theorem callbackArgs_isSome {ev : Event τ} (hev : ev.isCallback = true) :
    ∃ a, callbackArgs ev = some a := by
  cases ev with
  | roiInit cxt now => exact ⟨_, rfl⟩
  | roiEnd cxt now => exact ⟨_, rfl⟩
  | saveRef r => cases hev
  | cleanCall n => cases hev

include hmode in
private theorem shape_foldl_callbacks {es es' : List (Event τ)} (hes : ∀ ev ∈ es, ev.isCallback = true)
    (hes' : ∀ ev ∈ es', ev.isCallback = true) (hargs : es.filterMap callbackArgs = es'.filterMap callbackArgs)
    {σ σ' : ClientState τ} (h : shape σ = shape σ') :
    shape (es.foldl (step opts) σ) = shape (es'.foldl (step opts') σ') := by
  induction es generalizing es' σ σ' with
  | nil =>
    cases es' with
    | nil => exact h
    | cons ev' es' =>
      obtain ⟨a, ha⟩ := callbackArgs_isSome (hes' ev' (by simp))
      simp [ha] at hargs
  | cons ev es ih =>
    obtain ⟨a, ha⟩ := callbackArgs_isSome (hes ev (by simp))
    cases es' with
    | nil => simp [ha] at hargs
    | cons ev' es' =>
      obtain ⟨a', ha'⟩ := callbackArgs_isSome (hes' ev' (by simp))
      rw [List.filterMap_cons_some ha, List.filterMap_cons_some ha', List.cons.injEq] at hargs
      have hsame : callbackArgs ev = callbackArgs ev' := by rw [ha, ha', hargs.1]
      exact ih (fun e he => hes e (by simp [he])) (fun e he => hes' e (by simp [he])) hargs.2
        (shape_step_callback hmode h (hes ev (by simp)) hsame)

include hmode in
private theorem shape_run {es es' : List (Event τ)}
    (hargs : es.filterMap callbackArgs = es'.filterMap callbackArgs) :
    shape (run opts es) = shape (run opts' es') := by
  rw [filterMap_callbackArgs es, filterMap_callbackArgs es'] at hargs
  calc
    shape (run opts es) = shape ((es.filter Event.isCallback).foldl (step opts) .init) :=
      shape_foldl_filter opts es rfl
    _ = shape ((es'.filter Event.isCallback).foldl (step opts') .init) :=
      shape_foldl_callbacks hmode (by simp) (by simp) hargs rfl
    _ = shape (run opts' es') := (shape_foldl_filter opts' es' rfl).symm

include hmode in
/-- The points of two runs with the same callbacks have equal outlines, one by one. -/
theorem outline_finalPoints {es es' : List (Event τ)}
    (hargs : es.filterMap callbackArgs = es'.filterMap callbackArgs) :
    (finalPoints opts es).map outline = (finalPoints opts' es').map outline := by
  have h := shape_run hmode hargs
  simp only [shape, Shape.mk.injEq] at h
  obtain ⟨-, -, -, hlist, hcur⟩ := h
  have hend (p : Client.Point τ) : outline ((p.setLineEnd 0).setSrcFileEnd "") =
      { outline p with srcFileEnd := "", lineNumberEnd := 0 } := rfl
  rw [finalPoints_eq, finalPoints_eq, List.map_append, List.map_append, hlist, hmode.merged_eq]
  split_ifs
  · simp [hend, hcur]
  · rfl

include hmode in
/-- Two runs with the same callbacks write the same names in the same order. -/
theorem outputNames_run {es es' : List (Event τ)}
    (hargs : es.filterMap callbackArgs = es'.filterMap callbackArgs) :
    (outputNames (finalPoints opts es)).map Prod.snd =
      (outputNames (finalPoints opts' es')).map Prod.snd := by
  have hlabels : (finalPoints opts es).map (·.label) = (finalPoints opts' es').map (·.label) := by
    have h := congrArg (List.map Outline.label) (outline_finalPoints hmode hargs)
    simpa [outline, Function.comp_def] using h
  apply List.ext_getElem?
  intro i
  have hi := congrArg (fun ls : List String => ls[i]?) hlabels
  simp only [List.getElem?_map] at hi ⊢
  rw [outputNames_getElem, outputNames_getElem, hlabels]
  cases hp : (finalPoints opts es)[i]? with
  | none => cases hp' : (finalPoints opts' es')[i]? <;> simp_all
  | some p => cases hp' : (finalPoints opts' es')[i]? <;> simp_all

end shape

def textIn (s : String) : Option String := if s = "" then none else some s

/-- A point of the report that combines a point of the first run with one of the time run. -/
structure Combined {F : Type} [Sub τ] (py : Python F) (fmtF : τ → String) (P : Report.Point F)
    (p q : Client.Point τ) : Prop where
  flops : py.float (toString p.flops.toNat) = some P.totalFlops
  bytes : py.float (toString p.bytes.toNat) = some P.totalBytes
  readBytes : py.float (toString p.readBytes.toNat) = some P.readBytes
  writeBytes : py.float (toString p.writeBytes.toNat) = some P.writeBytes
  startSrc : P.startSrc = textIn p.srcFileStart
  endSrc : P.endSrc = textIn p.srcFileEnd
  startLine : P.startLine = p.lineNumberStart.toNat
  endLine : P.endLine = p.lineNumberEnd.toNat
  time : py.float (fmtF q.elapsed) = some P.totalTime

theorem PlainPoint.of_outline {p q : Client.Point τ} (h : PlainPoint p) (heq : outline p = outline q) :
    PlainPoint q := by
  simp only [outline, Outline.mk.injEq] at heq
  obtain ⟨hlabel, hstart, hend, -, -⟩ := heq
  exact ⟨hlabel ▸ h.label, hstart ▸ h.fileStart, hend ▸ h.fileEnd⟩

theorem exists_name {ps : List (Client.Point τ)} {i : ℕ} {p : Client.Point τ} (h : ps[i]? = some p) :
    ∃ name, (outputNames ps)[i]? = some (p, name) := by
  rw [outputNames_getElem, h]
  exact ⟨_, rfl⟩

private theorem map_fst_outputNames (ps : List (Client.Point τ)) : (outputNames ps).map Prod.fst = ps := by
  apply List.ext_getElem?
  intro i
  rw [List.getElem?_map, outputNames_getElem]
  cases ps[i]? <;> rfl

theorem length_outputNames (ps : List (Client.Point τ)) : (outputNames ps).length = ps.length := by
  rw [← congrArg List.length (map_fst_outputNames ps), List.length_map]

theorem getElem?_of_outputNames {ps : List (Client.Point τ)} {i : ℕ} {p : Client.Point τ} {name : String}
    (h : (outputNames ps)[i]? = some (p, name)) : ps[i]? = some p := by
  rw [← map_fst_outputNames ps, List.getElem?_map, h]
  rfl

section positions
variable [Zero τ] {opts opts' : Options} (hmode : SameMode opts opts') {es es' : List (Event τ)}
  (hargs : es.filterMap callbackArgs = es'.filterMap callbackArgs)
include hmode hargs

/-- The points of the other run differ in their counters and times only. -/
theorem exists_outline {q : Client.Point τ} (hq : q ∈ finalPoints opts' es') :
    ∃ p ∈ finalPoints opts es, outline p = outline q := by
  have hmem := List.mem_map_of_mem (f := outline) hq
  rw [← outline_finalPoints hmode hargs] at hmem
  exact List.mem_map.mp hmem

/-- The point of the other run that has the same position has the same name. -/
theorem exists_sameName {i : ℕ} {p : Client.Point τ} {name : String}
    (h : (outputNames (finalPoints opts es))[i]? = some (p, name)) :
    ∃ q, (outputNames (finalPoints opts' es'))[i]? = some (q, name) ∧ (finalPoints opts' es')[i]? = some q := by
  have hi := congrArg (fun ns : List String => ns[i]?) (outputNames_run hmode hargs)
  simp only [List.getElem?_map, h, Option.map_some] at hi
  obtain ⟨⟨q, n⟩, hq, rfl⟩ := Option.map_eq_some_iff.mp hi.symm
  exact ⟨q, hq, getElem?_of_outputNames hq⟩

end positions

section join
variable [Sub τ] {opts opts' : Options} {fmtF : τ → String} {F : Type} {py : Python F}
  {p q : Client.Point τ} {name tag s : String}

private theorem text_leafOf (tag s : String) : (leafOf (tag, s)).text = textIn s := by
  simp only [leafOf, leaf, Frame.element, textIn, String.ofList_toList]
  split_ifs with h1 h2 h2
  · rfl
  · exact absurd (String.toList_eq_nil_iff.mp h1) h2
  · exact absurd (by rw [h2]; rfl) h1
  · rfl

private theorem tag_leafOf (l : String × String) : (leafOf l).tag = l.1 := by simp [leafOf, leaf, Frame.element]

private theorem find_fields (h : (tag, s) ∈ fields opts fmtF p) :
    ((fields opts fmtF p).find? fun l => l.1 = tag) = some (tag, s) := by
  unfold fields at h ⊢
  split_ifs at h ⊢
  · simp only [List.mem_cons, List.not_mem_nil, or_false, Prod.mk.injEq] at h
    rcases h with h | h | h | h | h | h | h | h <;>
    · obtain ⟨rfl, rfl⟩ := h
      simp
  · simp only [List.mem_cons, List.not_mem_nil, or_false, Prod.mk.injEq] at h
    obtain ⟨rfl, rfl⟩ := h
    simp

/-- Every field of a point is found under its tag. -/
theorem textOf_pointElement (h : (tag, s) ∈ fields opts fmtF p) :
    textOf (pointElement opts fmtF p name) tag = .ok (textIn s) := by
  have hfind :
      (((fields opts fmtF p).map leafOf).find? fun e => e.tag = tag) = some (leafOf (tag, s)) := by
    have hcomp : (fun e : Element => decide (e.tag = tag)) ∘ leafOf = fun l => decide (l.1 = tag) := by
      funext l
      rw [Function.comp_apply, tag_leafOf]
    rw [List.find?_map, hcomp, find_fields h]
    rfl
  rw [textOf, pointElement, hfind]
  exact congrArg Except.ok (text_leafOf tag s)

private theorem floatOf_pointElement {x : F} (h : (tag, s) ∈ fields opts fmtF p)
    (hx : py.floatOf (pointElement opts fmtF p name) tag = .ok x) : py.float s = some x := by
  rw [Python.floatOf, textOf_pointElement h, textIn] at hx
  split_ifs at hx
  · cases hx
  · exact orRaise_eq_ok.mp hx

private theorem intOf_pointElement {n : ℕ} {x : ℤ} (h : (tag, toString n) ∈ fields opts fmtF p)
    (hx : intOf (pointElement opts fmtF p name) tag = .ok x) : x = n := by
  rw [intOf, textOf_pointElement h, textIn] at hx
  split_ifs at hx
  · cases hx
  · have hint := orRaise_eq_ok.mp hx
    rw [pyInt_toString] at hint
    exact (Option.some.inj hint).symm

theorem attribOf_pointElement : attribOf (pointElement opts fmtF p name) "label" = .ok (nameValue name) := rfl

theorem apostrophe_nameValue (h : apostrophe ∉ name.toList) : apostrophe ∉ (nameValue name).toList := by
  intro hmem
  rw [nameValue, String.toList_ofList] at hmem
  obtain ⟨c, hc, hattr⟩ := List.mem_map.mp hmem
  have hspace : isSpace c = false := by
    by_contra hspace
    rw [attrChar, if_pos (by simpa using hspace)] at hattr
    exact absurd hattr (by decide)
  rw [attrChar, hspace] at hattr
  have hc' : c = apostrophe := hattr
  subst hc'
  exact h (mem_lineEnds (by decide) hc)

/-- The one element that is found has the position of its name. -/
theorem found_eq {rootTime t : Element} {P : Report.Point F} {qs' : List (Client.Point τ × String)}
    {i : ℕ}
    (hj : Joined py rootTime (pointElement opts fmtF p name) P t) (hname : apostrophe ∉ name.toList)
    (hroot : rootTime.children = qs'.map fun q => pointElement opts' fmtF q.1 q.2)
    (hi : qs'[i]? = some (q, name)) :
    t = pointElement opts' fmtF q name := by
  have hlabel : P.label = nameValue name := by
    have h := hj.label
    rw [attribOf_pointElement] at h
    exact (Except.ok.inj h).symm
  have hfound := hj.found
  rw [Python.findPoints, hlabel, if_neg (apostrophe_nameValue hname), Except.ok.injEq] at hfound
  have hmem : pointElement opts' fmtF q name ∈ [t] := by
    rw [← hfound, List.mem_filter, hroot]
    refine ⟨List.mem_map.mpr ⟨_, List.mem_of_getElem? hi, rfl⟩, ?_⟩
    simp [pointElement]
  exact (List.mem_singleton.mp hmem).symm

theorem combined_of_joined {rootTime t : Element} {P : Report.Point F} (ht : opts.timeRun = false)
    (ht' : opts'.timeRun = true) (hj : Joined py rootTime (pointElement opts fmtF p name) P t)
    (hfound : t = pointElement opts' fmtF q name) : Combined py fmtF P p q := by
  subst hfound
  have htext {tag s : String} {x : Option String} (hs : (tag, s) ∈ fields opts fmtF p)
      (hx : textOf (pointElement opts fmtF p name) tag = .ok x) : x = textIn s := by
    rw [textOf_pointElement hs] at hx
    exact (Except.ok.inj hx).symm
  exact {
    flops := floatOf_pointElement (by simp [fields, ht]) hj.flops
    bytes := floatOf_pointElement (by simp [fields, ht]) hj.bytes
    readBytes := floatOf_pointElement (by simp [fields, ht]) hj.readBytes
    writeBytes := floatOf_pointElement (by simp [fields, ht]) hj.writeBytes
    startSrc := htext (by simp [fields, ht]) hj.startSrc
    endSrc := htext (by simp [fields, ht]) hj.endSrc
    startLine := intOf_pointElement (by simp [fields, ht]) hj.startLine
    endLine := intOf_pointElement (by simp [fields, ht]) hj.endLine
    time := floatOf_pointElement (by simp [fields, ht']) hj.time }

end join

/-- The two files of a recording are joined by position. -/
theorem runs_joined [Zero τ] [Sub τ] {opts opts' : Options} (hmode : SameMode opts opts')
    (ht : opts.timeRun = false) (ht' : opts'.timeRun = true) {fmtF : τ → String}
    (hfmt : ∀ t, PlainText (fmtF t)) {es es' : List (Event τ)}
    (hargs : es.filterMap callbackArgs = es'.filterMap callbackArgs) :
    (outputNames (finalPoints opts es)).map Prod.snd =
        (outputNames (finalPoints opts' es')).map Prod.snd ∧
      ((∀ p ∈ finalPoints opts es, PlainPoint p) →
        ∀ {F : Type} (py : Python F) (colourN : ℤ) (name : String) (Ps : List (Report.Point F)),
          py.getPoints colourN name (outputFile opts fmtF es) (outputFile opts' fmtF es') = .ok Ps →
            Ps.length = (finalPoints opts es).length ∧
              ∀ (i : ℕ) (P : Report.Point F) (p q : Client.Point τ), Ps[i]? = some P →
                (finalPoints opts es)[i]? = some p → (finalPoints opts' es')[i]? = some q →
                  Combined py fmtF P p q) := by
  refine ⟨outputNames_run hmode hargs, ?_⟩
  intro hplain F py colourN name Ps h
  have hplain' : ∀ q ∈ finalPoints opts' es', PlainPoint q := by
    intro q hq
    obtain ⟨p, hp, heq⟩ := exists_outline hmode hargs hq
    exact (hplain p hp).of_outline heq
  obtain ⟨root, rootTime, hroot, hrootTime, hall⟩ := getPoints_eq_ok h
  obtain rfl := parse_outputFile hfmt hplain hroot
  obtain rfl := parse_outputFile hfmt hplain' hrootTime
  have hpoints : ((outputNames (finalPoints opts es)).map fun q => pointElement opts fmtF q.1 q.2).filter
      (fun e => e.tag = "point") =
        (outputNames (finalPoints opts es)).map fun q => pointElement opts fmtF q.1 q.2 := by
    rw [List.filter_eq_self]
    intro e he
    obtain ⟨q, _, rfl⟩ := List.mem_map.mp he
    rfl
  rw [hpoints] at hall
  refine ⟨by rw [← hall.length_eq, List.length_map, length_outputNames], ?_⟩
  intro i P p q hP hp hq
  obtain ⟨n, hn⟩ := exists_name hp
  obtain ⟨q', hn', hq'⟩ := exists_sameName hmode hargs hn
  obtain rfl := Option.some.inj (hq.symm.trans hq')
  have hel : ((outputNames (finalPoints opts es)).map fun q => pointElement opts fmtF q.1 q.2)[i]? =
      some (pointElement opts fmtF p n) := by simp [hn]
  obtain ⟨t, hj⟩ := forall₂_getElem? hall hel hP
  have hlabel := plainLabel_outputNames hplain (List.mem_of_getElem? hn)
  exact combined_of_joined ht ht' hj (found_eq hj hlabel.apos rfl hn')

/-- The value of a decimal literal. -/
def decimal (text : String) : Option ℚ :=
  match text.toList.span (· ≠ '.') with
  | (whole, []) => (intDigits false 0 whole).map fun n => (n : ℚ)
  | (whole, _ :: part) =>
    (intDigits false 0 whole).bind fun n => (intDigits false 0 part).map fun m =>
      (n : ℚ) + m / 10 ^ part.length

/-- Floats that are exact on short decimals. -/
def exactPython : Python ℚ where
  float := decimal
  isZero x := x = 0
  div x y := x / y
  giga := 1000000000
  findall _ _ := .error .syntaxError

def wholeSeconds (t : ℕ) : String := toString t ++ ".000000"

theorem plainText_wholeSeconds (t : ℕ) : PlainText (wholeSeconds t) := by
  have happ {c : Char} (hc : c.isDigit = false) (hpart : c ∉ ".000000".toList) :
      c ∉ (wholeSeconds t).toList := by
    rw [wholeSeconds, String.toList_append, List.mem_append, not_or]
    exact ⟨not_mem_toString hc t, hpart⟩
  exact ⟨happ (by decide) (by decide), happ (by decide) (by decide), happ (by decide) (by decide)⟩

def countedRun (file : String) : List (Event ℕ) :=
  [.saveRef ⟨8, 0⟩, .roiInit ⟨"a", 10, file⟩ 0, .cleanCall 2, .roiEnd ⟨"a", 12, file⟩ 0,
    .roiInit ⟨"a", 10, file⟩ 0, .saveRef ⟨4, 1⟩, .cleanCall 1, .roiEnd ⟨"a", 12, file⟩ 0]

def timedRun (file : String) : List (Event ℕ) :=
  [.roiInit ⟨"a", 10, file⟩ 1, .roiEnd ⟨"a", 12, file⟩ 4, .roiInit ⟨"a", 10, file⟩ 5,
    .roiEnd ⟨"a", 12, file⟩ 10]

def timeOptions : Options := { timeRun := true }

def recordedPoints (file : String) : Except PyError (List (Report.Point ℚ)) :=
  exactPython.getPoints 1 "app" (outputFile {} wholeSeconds (countedRun file))
    (outputFile timeOptions wholeSeconds (timedRun file))

theorem runs_joined_countedRun :
    ∃ Ps, recordedPoints "a.c" = .ok Ps ∧ Ps.length = 2 ∧
      ∀ (i : ℕ) (P : Report.Point ℚ) (p q : Client.Point ℕ), Ps[i]? = some P →
        (finalPoints {} (countedRun "a.c"))[i]? = some p →
          (finalPoints timeOptions (timedRun "a.c"))[i]? = some q →
            Combined exactPython wholeSeconds P p q := by
  have hplain : ∀ p ∈ finalPoints {} (countedRun "a.c"), PlainPoint p := by
    intro p hp
    have hstrings : ∀ p ∈ finalPoints {} (countedRun "a.c"),
        p.label = "a" ∧ p.srcFileStart = "a.c" ∧ p.srcFileEnd = "a.c" := by decide
    obtain ⟨hlabel, hstart, hend⟩ := hstrings p hp
    have hfile : PlainText "a.c" := ⟨by decide, by decide, by decide⟩
    exact ⟨hlabel ▸ ⟨by decide, by decide, by decide, by decide⟩, hstart ▸ hfile, hend ▸ hfile⟩
  have hok : (recordedPoints "a.c").isOk = true := by
    rw [recordedPoints, Python.getPoints, parse_eq, parse_eq]
    decide +kernel
  have hmode : SameMode {} timeOptions := ⟨rfl, rfl, rfl, rfl⟩
  have hargs : (countedRun "a.c").filterMap callbackArgs = (timedRun "a.c").filterMap callbackArgs :=
    rfl
  cases h : recordedPoints "a.c" with
  | error e =>
    rw [h] at hok
    cases hok
  | ok Ps =>
    have hjoin :=
      (runs_joined hmode rfl rfl plainText_wholeSeconds hargs).2 hplain exactPython 1 "app" Ps h
    exact ⟨Ps, rfl, hjoin.1, hjoin.2⟩

/-- A reference in a file name is written as it stands, and the report reads what it refers to. -/
theorem markedFile_not_combined :
    (∀ p ∈ finalPoints {} (countedRun "a&lt;b.c"), PlainLabel p.label) ∧
      ∃ Ps, recordedPoints "a&lt;b.c" = .ok Ps ∧
        ¬ ∀ (i : ℕ) (P : Report.Point ℚ) (p q : Client.Point ℕ), Ps[i]? = some P →
          (finalPoints {} (countedRun "a&lt;b.c"))[i]? = some p →
            (finalPoints timeOptions (timedRun "a&lt;b.c"))[i]? = some q →
              Combined exactPython wholeSeconds P p q := by
  constructor
  · intro p hp
    have hlabels : ∀ p ∈ finalPoints {} (countedRun "a&lt;b.c"), p.label = "a" := by decide
    exact hlabels p hp ▸ ⟨by decide, by decide, by decide, by decide⟩
  · have hsrc : (recordedPoints "a&lt;b.c").toOption.map (fun Ps => Ps.map (·.startSrc)) =
        some [some "a<b.c", some "a<b.c"] := by
      rw [recordedPoints, Python.getPoints, parse_eq, parse_eq]
      decide +kernel
    have hwritten :
        (finalPoints {} (countedRun "a&lt;b.c"))[0]?.map (·.srcFileStart) = some "a&lt;b.c" := by decide
    have htimed : (finalPoints timeOptions (timedRun "a&lt;b.c"))[0]?.isSome = true := by decide
    cases h : recordedPoints "a&lt;b.c" with
    | error e =>
      rw [h] at hsrc
      cases hsrc
    | ok Ps =>
      refine ⟨Ps, rfl, fun hall => ?_⟩
      rw [h] at hsrc
      have hsrc : Ps.map (·.startSrc) = [some "a<b.c", some "a<b.c"] := Option.some.inj hsrc
      obtain ⟨P, Ps, rfl⟩ : ∃ P Ps', Ps = P :: Ps' := by
        cases Ps with
        | nil => cases hsrc
        | cons P Ps => exact ⟨P, Ps, rfl⟩
      obtain ⟨p, hp, hfile⟩ := Option.map_eq_some_iff.mp hwritten
      obtain ⟨q, hq⟩ := Option.isSome_iff_exists.mp htimed
      have hcombined := (hall 0 P p q rfl hp hq).startSrc
      rw [List.map_cons, List.cons.injEq, hcombined, hfile] at hsrc
      exact absurd hsrc.1 (by decide)

end Roofline.Correctness
