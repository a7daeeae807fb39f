import Roofline.Client.ThreadData
import Roofline.Client.Options

/-! The callbacks of the client and the runs they are part of (client/main.cpp). -/
namespace Roofline.Client
variable {τ : Type} [Zero τ]

/-- The globals and function statics of main.cpp with the data of the one thread. -/
structure ClientState (τ : Type) where
  inRoi : Bool
  roiStartDetected : Int32
  roiEndDetected : Int32
  /-- The statics of get_label_and_assign_id. -/
  id : Int32
  lastSeenDelimiter : String
  /-- The static of event_roi_init. -/
  newPointOnlyOnce : Bool
  data : ThreadData τ
  deriving DecidableEq, Repr

namespace ClientState

/-- The state event_thread_init leaves behind. -/
def init : ClientState τ := ⟨false, 0, 0, 1, "", false, .new⟩

/-- The label of the current call, and the statics moved on to the next one. -/
def getLabelAndAssignId (opts : Options) (σ : ClientState τ) : String × ClientState τ :=
  let label := opts.traceF ++ toString σ.id.toInt
  (label, if σ.lastSeenDelimiter = label then { σ with id := σ.id + 1 }
    else { σ with lastSeenDelimiter := label })

def newPoint (σ : ClientState τ) (label : String) (line : UInt32) (srcFile : String) : ClientState τ :=
  { σ with data := σ.data.newPoint label line srcFile }

def savePoint (σ : ClientState τ) (label : String) (line : UInt32) (srcFile : String) : ClientState τ :=
  { σ with data := σ.data.savePoint label line srcFile }

end ClientState

open ClientState

def eventRoiInit (opts : Options) (cxt : WrapCxt) (now : τ) (σ : ClientState τ) : ClientState τ :=
  let σ := { σ with roiStartDetected := σ.roiStartDetected + 1, inRoi := true }
  let σ :=
    if opts.callsAsSeparateRoi = false ∧ opts.traceF ≠ "" then
      if σ.newPointOnlyOnce = false then
        { σ.newPoint (getLabel cxt opts.traceF) (getLineN cxt opts.traceF)
            (getSrcFileName cxt opts.traceF) with newPointOnlyOnce := true }
      else σ
    else if opts.callsAsSeparateRoi = true then
      (σ.getLabelAndAssignId opts).2.newPoint (σ.getLabelAndAssignId opts).1
        (getLineN cxt opts.traceF) (getSrcFileName cxt opts.traceF)
    else
      σ.newPoint (getLabel cxt opts.roiStart) (getLineN cxt opts.roiStart)
        (getSrcFileName cxt opts.roiStart)
  if opts.timeRun = true then { σ with data := σ.data.setTimeStart now } else σ

/-- What both ending callbacks do before saving. -/
def leaveRoi (opts : Options) (now : τ) (σ : ClientState τ) : ClientState τ :=
  let σ := { σ with inRoi := false, roiEndDetected := σ.roiEndDetected + 1 }
  if opts.timeRun = true then { σ with data := σ.data.setTimeEnd now } else σ

def symbolRoiEnd (opts : Options) (cxt : WrapCxt) (now : τ) (σ : ClientState τ) : ClientState τ :=
  let σ := leaveRoi opts now σ
  if opts.traceF = "" then
    σ.savePoint (getLabel cxt opts.roiEnd) (getLineN cxt opts.roiEnd) (getSrcFileName cxt opts.roiEnd)
  else if opts.callsAsSeparateRoi = true then
    (σ.getLabelAndAssignId opts).2.savePoint (σ.getLabelAndAssignId opts).1
      (getLineN cxt opts.traceF) (getSrcFileName cxt opts.traceF)
  else σ

def eventRoiEnd (opts : Options) (cxt : WrapCxt) (now : τ) (σ : ClientState τ) : ClientState τ :=
  let σ := leaveRoi opts now σ
  if opts.traceF = "" then
    σ.savePoint (getLabel cxt opts.roiStart) (getLineN cxt opts.roiEnd) (getSrcFileName cxt opts.roiEnd)
  else if opts.callsAsSeparateRoi = true then
    σ.savePoint (getLabel cxt opts.traceF) (getLineN cxt opts.traceF) (getSrcFileName cxt opts.traceF)
  else σ

def cleanCall (fpInstrCount : Int32) (σ : ClientState τ) : ClientState τ :=
  if σ.inRoi = true then
    { σ with data := (σ.data.saveFloatingPoints fpInstrCount).saveBytes }
  else { σ with data := σ.data.cleanBuffer }

abbrev Handler (τ : Type) := WrapCxt → τ → ClientState τ → ClientState τ

/-- wrap_callback_t: a function name with its callbacks on entry and on return. -/
structure WrapCallback (τ : Type) where
  fName : String
  fPre : Option (Handler τ)
  fPost : Option (Handler τ)

def moduleLoadEvent (opts : Options) : List (WrapCallback τ) :=
  if opts.traceF ≠ "" then
    [⟨opts.traceF, some (eventRoiInit opts), some (symbolRoiEnd opts)⟩]
  else
    [⟨if opts.roiStart = "" then "_RoiStart" else opts.roiStart, some (eventRoiInit opts), none⟩,
      ⟨if opts.roiEnd = "" then "_RoiEnd" else opts.roiEnd, some (eventRoiEnd opts), none⟩]

/-- The callbacks that begin and end a region, as module_load_event registers them. -/
def roiHandlers (opts : Options) : List (Handler τ) :=
  (moduleLoadEvent opts).flatMap fun w => w.fPre.toList ++ w.fPost.toList

/-- What the client observes of the application. -/
inductive Event (τ : Type) where
  | roiInit (cxt : WrapCxt) (now : τ)
  | roiEnd (cxt : WrapCxt) (now : τ)
  | saveRef (r : MemRef)
  | cleanCall (fpInstrCount : Int32)
  deriving DecidableEq, Repr

def step (opts : Options) (σ : ClientState τ) : Event τ → ClientState τ
  | .roiInit cxt now => (roiHandlers opts)[0]?.elim σ fun f => f cxt now σ
  | .roiEnd cxt now => (roiHandlers opts)[1]?.elim σ fun f => f cxt now σ
  | .saveRef r => { σ with data := σ.data.appendRef r }
  | .cleanCall n => cleanCall n σ

def run (opts : Options) (es : List (Event τ)) : ClientState τ := es.foldl (step opts) init

/-- What event_thread_exit does before it writes the file. -/
def eventThreadExit (opts : Options) (σ : ClientState τ) : ClientState τ :=
  if opts.callsAsSeparateRoi = false ∧ opts.traceF ≠ "" then σ.savePoint opts.traceF 0 "" else σ

/-- The three checks of event_exit on the callbacks it has seen. -/
def eventExitChecks (σ : ClientState τ) : Prop :=
  0 < σ.roiStartDetected ∧ 0 < σ.roiEndDetected ∧ σ.roiStartDetected = σ.roiEndDetected

instance (σ : ClientState τ) : Decidable (eventExitChecks σ) := by
  unfold eventExitChecks; infer_instance

/-- The points save_to_file finds in the list. -/
def finalPoints (opts : Options) (es : List (Event τ)) : List (Point τ) :=
  (eventThreadExit opts (run opts es)).data.pointList

end Roofline.Client
