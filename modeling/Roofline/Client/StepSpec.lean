import Roofline.Client.Callbacks

/-! What one event does to each part of the state, in every mode at once.
Everything later is derived from these equations and never unfolds a callback. -/
namespace Roofline.Client
variable {τ : Type} [Zero τ]

/-- The name that stands for the arguments of the beginning callback; empty for markers. -/
def Options.startDelimiter (opts : Options) : String :=
  if opts.traceF ≠ "" then opts.traceF else opts.roiStart

def Options.endDelimiter (opts : Options) : String :=
  if opts.traceF ≠ "" then opts.traceF else opts.roiEnd

theorem Options.merged_iff (opts : Options) :
    opts.merged = true ↔ opts.callsAsSeparateRoi = false ∧ opts.traceF ≠ "" := by
  simp [Options.merged]

/-- The label a callback asks for, at the beginning of a region as well as at its end. -/
def roiLabel (opts : Options) (σ : ClientState τ) (cxt : WrapCxt) : String :=
  if opts.callsAsSeparateRoi = true then opts.traceF ++ toString σ.id.toInt
  else getLabel cxt opts.startDelimiter

namespace Point

def stampStart (opts : Options) (now : τ) (p : Point τ) : Point τ :=
  if opts.timeRun = true then p.setStart now else p

def stampEnd (opts : Options) (now : τ) (p : Point τ) : Point τ :=
  if opts.timeRun = true then p.setEnd now else p

/-- The point a beginning callback starts from. -/
def opened (opts : Options) (label : String) (cxt : WrapCxt) (now : τ) (p : Point τ) : Point τ :=
  (((p.reset.setLabel label).setLineStart (getLineN cxt opts.startDelimiter)).setSrcFileStart
    (getSrcFileName cxt opts.startDelimiter)).stampStart opts now

def ended (opts : Options) (cxt : WrapCxt) (now : τ) (p : Point τ) : Point τ :=
  ((p.stampEnd opts now).setLineEnd (getLineN cxt opts.endDelimiter)).setSrcFileEnd
    (getSrcFileName cxt opts.endDelimiter)

def drained (n : Int32) (refs : List MemRef) (p : Point τ) : Point τ :=
  refs.foldl countRef (p.updateFpCount n)

omit [Zero τ] in
theorem stampStart_eq (opts : Options) (now : τ) (p : Point τ) :
    p.stampStart opts now = { p with startTime := if opts.timeRun = true then now else p.startTime } := by
  unfold stampStart
  split_ifs
  · rfl
  · rfl

omit [Zero τ] in
theorem stampEnd_eq (opts : Options) (now : τ) (p : Point τ) :
    p.stampEnd opts now = { p with endTime := if opts.timeRun = true then now else p.endTime } := by
  unfold stampEnd
  split_ifs
  · rfl
  · rfl

/-- A new point keeps nothing of the one before but its read and written bytes. -/
theorem opened_eq (opts : Options) (label : String) (cxt : WrapCxt) (now : τ) (p : Point τ) :
    p.opened opts label cxt now =
      { p with
        label := label
        srcFileStart := getSrcFileName cxt opts.startDelimiter
        srcFileEnd := ""
        lineNumberStart := getLineN cxt opts.startDelimiter
        lineNumberEnd := 0
        startTime := if opts.timeRun = true then now else 0
        endTime := 0
        flops := 0
        bytes := 0 } := by
  rw [opened, stampStart_eq]
  rfl

omit [Zero τ] in
theorem ended_eq (opts : Options) (cxt : WrapCxt) (now : τ) (p : Point τ) :
    p.ended opts cxt now =
      { p with
        srcFileEnd := getSrcFileName cxt opts.endDelimiter
        lineNumberEnd := getLineN cxt opts.endDelimiter
        endTime := if opts.timeRun = true then now else p.endTime } := by
  rw [ended, stampEnd_eq]
  rfl

omit [Zero τ] in
@[simp] theorem region_drained (n : Int32) (refs : List MemRef) (p : Point τ) :
    (p.drained n refs).region = p.region := by
  rw [drained, region_foldl_countRef, region_updateFpCount]

end Point

private theorem roiHandlers_eq (opts : Options) :
    roiHandlers (τ := τ) opts =
      [eventRoiInit opts, if opts.traceF ≠ "" then symbolRoiEnd opts else eventRoiEnd opts] := by
  unfold roiHandlers moduleLoadEvent
  split_ifs <;> rfl

section callbacks
variable (opts : Options) (σ : ClientState τ) (cxt : WrapCxt) (now : τ)

/-- A beginning callback, with the three branches told apart by the mode. -/
theorem step_roiInit :
    step opts σ (.roiInit cxt now) =
      { σ with
        roiStartDetected := σ.roiStartDetected + 1
        inRoi := true
        newPointOnlyOnce := σ.newPointOnlyOnce || opts.merged
        id := if opts.callsAsSeparateRoi = true then (σ.getLabelAndAssignId opts).2.id else σ.id
        lastSeenDelimiter := if opts.callsAsSeparateRoi = true
          then (σ.getLabelAndAssignId opts).2.lastSeenDelimiter else σ.lastSeenDelimiter
        data := { σ.data with
          curPoint := if opts.merged && σ.newPointOnlyOnce then σ.data.curPoint.stampStart opts now
            else σ.data.curPoint.opened opts (roiLabel opts σ cxt) cxt now } } := by
  have hs := opts.separate
  have hlabel : roiLabel opts σ cxt =
      if opts.callsAsSeparateRoi = true then (σ.getLabelAndAssignId opts).1
      else getLabel cxt opts.startDelimiter := rfl
  simp only [step, roiHandlers_eq, List.getElem?_cons_zero, Option.elim, eventRoiInit, hlabel]
  cases hsep : opts.callsAsSeparateRoi with
  | true =>
    have hf := hs hsep
    simp only [Options.merged, hsep, Options.startDelimiter, ClientState.getLabelAndAssignId,
      ClientState.newPoint, ThreadData.newPoint, Point.opened, Point.stampStart]
    split_ifs <;> simp_all [ThreadData.setTimeStart]
  | false =>
    by_cases hf : opts.traceF = ""
    · simp only [Options.merged, hsep, hf, Options.startDelimiter, ClientState.newPoint,
        ThreadData.newPoint, Point.opened, Point.stampStart]
      split_ifs <;> simp_all [ThreadData.setTimeStart]
    · cases honce : σ.newPointOnlyOnce <;>
      · simp only [Options.merged, hsep, Options.startDelimiter, ClientState.newPoint,
          ThreadData.newPoint, Point.opened, Point.stampStart]
        split_ifs <;> simp_all [ThreadData.setTimeStart]

private theorem step_roiEnd_trace (hf : opts.traceF ≠ "") :
    step opts σ (.roiEnd cxt now) = symbolRoiEnd opts cxt now σ := by
  simp [step, roiHandlers_eq, hf]

private theorem step_roiEnd_plain (hf : opts.traceF = "") :
    step opts σ (.roiEnd cxt now) = eventRoiEnd opts cxt now σ := by
  simp [step, roiHandlers_eq, hf]

/-- An ending callback of either kind: the merged mode only leaves the region. -/
theorem step_roiEnd :
    step opts σ (.roiEnd cxt now) =
      { σ with
        roiEndDetected := σ.roiEndDetected + 1
        inRoi := false
        id := if opts.callsAsSeparateRoi = true then (σ.getLabelAndAssignId opts).2.id else σ.id
        lastSeenDelimiter := if opts.callsAsSeparateRoi = true
          then (σ.getLabelAndAssignId opts).2.lastSeenDelimiter else σ.lastSeenDelimiter
        data := if opts.merged = true then { σ.data with curPoint := σ.data.curPoint.stampEnd opts now }
          else { σ.data with
            warnings := σ.data.warnings ++
              if σ.data.curPoint.label ≠ roiLabel opts σ cxt ∧ roiLabel opts σ cxt ≠ ""
              then [(σ.data.curPoint.label, roiLabel opts σ cxt)] else []
            pointList := σ.data.pointList ++ [σ.data.curPoint.ended opts cxt now]
            curPoint := (σ.data.curPoint.ended opts cxt now).reset } } := by
  have hs := opts.separate
  have hlabel : roiLabel opts σ cxt =
      if opts.callsAsSeparateRoi = true then (σ.getLabelAndAssignId opts).1
      else getLabel cxt opts.startDelimiter := rfl
  cases hsep : opts.callsAsSeparateRoi with
  | true =>
    have hf := hs hsep
    rw [step_roiEnd_trace opts σ cxt now hf, hlabel]
    cases ht : opts.timeRun <;>
    · by_cases hl : σ.lastSeenDelimiter = opts.traceF ++ σ.id.toInt.repr <;>
      simp [symbolRoiEnd, leaveRoi, Options.merged, hsep, hf, ht, hl, Options.endDelimiter,
        ClientState.getLabelAndAssignId, ClientState.savePoint, ThreadData.savePoint, Point.ended,
        Point.stampEnd, ThreadData.setTimeEnd, Point.setEnd]
  | false =>
    by_cases hf : opts.traceF = ""
    · rw [step_roiEnd_plain opts σ cxt now hf, hlabel]
      cases ht : opts.timeRun <;>
      simp [eventRoiEnd, leaveRoi, Options.merged, hsep, hf, ht, Options.endDelimiter,
        Options.startDelimiter, ClientState.savePoint, ThreadData.savePoint, Point.ended, Point.stampEnd,
        ThreadData.setTimeEnd, Point.setEnd]
    · rw [step_roiEnd_trace opts σ cxt now hf]
      cases ht : opts.timeRun <;>
      simp [symbolRoiEnd, leaveRoi, Options.merged, hsep, hf, ht, Point.stampEnd, ThreadData.setTimeEnd]

theorem run_snoc (es : List (Event τ)) (ev : Event τ) :
    run opts (es ++ [ev]) = step opts (run opts es) ev := by
  simp [run]

theorem step_saveRef (r : MemRef) :
    step opts σ (.saveRef r) = { σ with data := { σ.data with buf := σ.data.buf ++ [r] } } := rfl

/-- A clean call empties the buffer, into the current point while a region is active. -/
theorem step_cleanCall (n : Int32) :
    step opts σ (.cleanCall n) =
      { σ with data := { σ.data with
        buf := []
        curPoint := if σ.inRoi = true then σ.data.curPoint.drained n σ.data.buf else σ.data.curPoint } } := by
  simp only [step, cleanCall]
  split_ifs <;> rfl

end callbacks

end Roofline.Client
