import Roofline.Client.Output
import Roofline.Client.StepSpec
import Roofline.Client.Trace
import Roofline.Library.Agents

/-! The threads of the target process (client/main.cpp). The globals and the function statics are
shared, the data of a thread hangs off its TLS field, and every exiting thread writes to the one
output file. A callback is one step here: what happens between two accesses of one callback to
the globals is not told apart. -/
namespace Roofline.Client
open Library
variable {T τ : Type}

structure Globals where
  inRoi : Bool
  roiStartDetected : Int32
  roiEndDetected : Int32
  id : Int32
  lastSeenDelimiter : String
  newPointOnlyOnce : Bool
  deriving DecidableEq, Repr

namespace Globals

def init : Globals := ⟨false, 0, 0, 1, "", false⟩

/-- What a callback finds on a thread with the given data. -/
def within (g : Globals) (data : ThreadData τ) : ClientState τ :=
  ⟨g.inRoi, g.roiStartDetected, g.roiEndDetected, g.id, g.lastSeenDelimiter, g.newPointOnlyOnce, data⟩

end Globals

def ClientState.globals (σ : ClientState τ) : Globals :=
  ⟨σ.inRoi, σ.roiStartDetected, σ.roiEndDetected, σ.id, σ.lastSeenDelimiter, σ.newPointOnlyOnce⟩

/-- What happens to the process: a thread starts, one of its callbacks runs, or it exits. -/
abbrev ThreadAction (T τ : Type) := Agents.Move T (Event τ)

/-- The globals, the TLS field of every thread, and the points of each thread that has exited. -/
abbrev Process (T τ : Type) := Agents.State T Globals (ThreadData τ) (List (Point τ))

section system
variable [Zero τ] (opts : Options)

/-- The threads under the client: event_thread_init allocates the data of a thread, and
event_thread_exit hands its points to save_to_file. -/
def threadSystem : Agents.System Globals (ThreadData τ) (Event τ) (List (Point τ)) where
  start := .init
  fresh := .new
  act g data ev := ((step opts (g.within data) ev).globals, (step opts (g.within data) ev).data)
  leave g data := (eventThreadExit opts (g.within data)).data.pointList

/-- A run of the process; none where a callback dereferences the TLS field of a thread without data. -/
def runThreads [DecidableEq T] (as : List (ThreadAction T τ)) : Option (Process T τ) := (threadSystem opts).run as

/-- What a callback does to the globals. -/
def Globals.step (g : Globals) (ev : Event τ) : Globals := (Client.step opts (g.within .new) ev).globals

end system

/-- The output file: a whole document for each thread, in the order in which they have exited. -/
def outFile [Sub τ] (opts : Options) (fmtF : τ → String) (P : Process T τ) : String :=
  String.join (P.outs.map fun o =>
    "<?xml version=\"1.0\"?>\n" ++ "<roofline>\n" ++ saveToFile opts fmtF o.2 ++ "</roofline>\n")

@[simp] theorem globals_within (g : Globals) (data : ThreadData τ) : (g.within data).globals = g := rfl

@[simp] theorem within_data (g : Globals) (data : ThreadData τ) : (g.within data).data = data := rfl

@[simp] theorem within_inRoi (g : Globals) (data : ThreadData τ) : (g.within data).inRoi = g.inRoi := rfl

@[simp] theorem within_newPointOnlyOnce (g : Globals) (data : ThreadData τ) :
    (g.within data).newPointOnlyOnce = g.newPointOnlyOnce := rfl

@[simp] theorem globals_inRoi (σ : ClientState τ) : σ.globals.inRoi = σ.inRoi := rfl

@[simp] theorem within_globals (σ : ClientState τ) : σ.globals.within σ.data = σ := rfl

section steps
variable [Zero τ] (opts : Options) (g : Globals) (data : ThreadData τ) (cxt : WrapCxt) (now : τ)

/-- The globals after get_label_and_assign_id, if the mode calls it at all. -/
def Globals.numbered (g : Globals) : Globals :=
  if opts.callsAsSeparateRoi = true then
    { g with
      id := if g.lastSeenDelimiter = opts.traceF ++ toString g.id.toInt then g.id + 1 else g.id
      lastSeenDelimiter := if g.lastSeenDelimiter = opts.traceF ++ toString g.id.toInt then g.lastSeenDelimiter
        else opts.traceF ++ toString g.id.toInt }
  else g

omit [Zero τ] in
@[simp] theorem numbered_newPointOnlyOnce : (g.numbered opts).newPointOnlyOnce = g.newPointOnlyOnce := by
  rw [Globals.numbered]
  split_ifs <;> rfl

omit [Zero τ] in
private theorem getLabelAndAssignId_within :
    (g.within data).getLabelAndAssignId opts =
      (opts.traceF ++ toString g.id.toInt,
        { g with
          id := if g.lastSeenDelimiter = opts.traceF ++ toString g.id.toInt then g.id + 1 else g.id
          lastSeenDelimiter := if g.lastSeenDelimiter = opts.traceF ++ toString g.id.toInt
            then g.lastSeenDelimiter else opts.traceF ++ toString g.id.toInt : Globals }.within data) := by
  have hsame : (g.within data).lastSeenDelimiter = g.lastSeenDelimiter := rfl
  have hid : (g.within data).id = g.id := rfl
  rw [ClientState.getLabelAndAssignId, hsame, hid]
  split_ifs
  · rfl
  · rfl

private theorem globals_roiInit :
    (step opts (g.within data) (.roiInit cxt now)).globals =
      { g.numbered opts with
        roiStartDetected := g.roiStartDetected + 1
        inRoi := true
        newPointOnlyOnce := g.newPointOnlyOnce || opts.merged } := by
  rw [step_roiInit]
  simp only [ClientState.globals, Globals.numbered]
  by_cases hsep : opts.callsAsSeparateRoi = true
  · have hcall := getLabelAndAssignId_within opts g data
    simp only [hsep, hcall, if_true]
    rfl
  · simp [hsep, Globals.within]

private theorem globals_roiEnd :
    (step opts (g.within data) (.roiEnd cxt now)).globals =
      { g.numbered opts with
        roiEndDetected := g.roiEndDetected + 1
        inRoi := false } := by
  rw [step_roiEnd]
  simp only [ClientState.globals, Globals.numbered]
  by_cases hsep : opts.callsAsSeparateRoi = true
  · have hcall := getLabelAndAssignId_within opts g data
    simp only [hsep, hcall, if_true]
    rfl
  · simp [hsep, Globals.within]

private theorem globals_cleanCall (n : Int32) : (step opts (g.within data) (.cleanCall n)).globals = g := by
  rw [step_cleanCall]
  rfl

theorem globals_step_roiInit :
    g.step opts (.roiInit cxt now) =
      { g.numbered opts with
        roiStartDetected := g.roiStartDetected + 1
        inRoi := true
        newPointOnlyOnce := g.newPointOnlyOnce || opts.merged } := globals_roiInit opts g .new cxt now

theorem globals_step_roiEnd :
    g.step opts (.roiEnd cxt now) =
      { g.numbered opts with
        roiEndDetected := g.roiEndDetected + 1
        inRoi := false } := globals_roiEnd opts g .new cxt now

/-- A callback treats the globals alike whatever data its thread has. -/
theorem evolves_threadSystem : (threadSystem (τ := τ) opts).Evolves (Globals.step opts) := by
  intro g data ev
  cases ev with
  | roiInit cxt now => exact (globals_roiInit opts g data cxt now).trans (globals_step_roiInit opts g cxt now).symm
  | roiEnd cxt now => exact (globals_roiEnd opts g data cxt now).trans (globals_step_roiEnd opts g cxt now).symm
  | saveRef r => rfl
  | cleanCall n => exact (globals_cleanCall opts g data n).trans (globals_cleanCall opts g .new n).symm

/-- Only the callbacks around regions touch the globals. -/
theorem globals_step_quiet {ev : Event τ} (h : ev.isCallback = false) : g.step opts ev = g := by
  cases ev with
  | roiInit cxt now => cases h
  | roiEnd cxt now => cases h
  | saveRef r => rfl
  | cleanCall n => exact globals_cleanCall opts g .new n

end steps

end Roofline.Client
