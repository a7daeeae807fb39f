import Roofline.Client.Callbacks
import Mathlib.Logic.Function.Basic

/-! The file written at thread exit (client/point.cpp, client/thread_data.cpp, client/main.cpp).
How the format "%f" prints a time is a parameter. -/
namespace Roofline.Client
variable {τ : Type}

def Point.dumpInfo [Sub τ] (opts : Options) (fmtF : τ → String) (p : Point τ) (actualLabel : String) :
    String :=
  "<point label=\"" ++ actualLabel ++ "\">\n" ++
  (if opts.timeRun = false then
    "<flops>" ++ toString p.flops.toNat ++ "</flops>\n" ++
    "<bytes>" ++ toString p.bytes.toNat ++ "</bytes>\n" ++
    "<read_bytes>" ++ toString p.readBytes.toNat ++ "</read_bytes>\n" ++
    "<write_bytes>" ++ toString p.writeBytes.toNat ++ "</write_bytes>\n" ++
    "<src_file_start>" ++ p.srcFileStart ++ "</src_file_start>\n" ++
    "<src_file_end>" ++ p.srcFileEnd ++ "</src_file_end>\n" ++
    "<line_n_start>" ++ toString p.lineNumberStart.toNat ++ "</line_n_start>\n" ++
    "<line_n_end>" ++ toString p.lineNumberEnd.toNat ++ "</line_n_end>\n"
  else "<time>" ++ fmtF p.elapsed ++ "</time>\n") ++
  "</point>\n"

/-- The map execution_count; its int counters do not overflow below 2^31 points of one label. -/
abbrev ExecutionCount := String → Option ℕ

/-- The loop of ThreadData::save_to_file: each point with the name it is written under. -/
def namePoints (executionCount : ExecutionCount) : List (Point τ) → List (Point τ × String)
  | [] => []
  | p :: ps =>
    match executionCount p.label with
    | some n => (p, p.label ++ toString n) ::
        namePoints (Function.update executionCount p.label (some (n + 1))) ps
    | none => (p, p.label) :: namePoints (Function.update executionCount p.label (some 1)) ps

/-- The same loop with the int counters of the source. -/
def namePointsInt (executionCount : String → Option Int32) : List (Point τ) → List (Point τ × String)
  | [] => []
  | p :: ps =>
    match executionCount p.label with
    | some n => (p, p.label ++ toString n.toInt) ::
        namePointsInt (Function.update executionCount p.label (some (n + 1))) ps
    | none => (p, p.label) :: namePointsInt (Function.update executionCount p.label (some 1)) ps

/-- The points of the list with their names, in order. -/
def outputNames (ps : List (Point τ)) : List (Point τ × String) := namePoints (fun _ => none) ps

def saveToFile [Sub τ] (opts : Options) (fmtF : τ → String) (ps : List (Point τ)) : String :=
  String.join ((outputNames ps).map fun q => q.1.dumpInfo opts fmtF q.2)

/-- Everything event_thread_exit writes after a run. -/
def outputFile [Zero τ] [Sub τ] (opts : Options) (fmtF : τ → String) (es : List (Event τ)) : String :=
  "<?xml version=\"1.0\"?>\n" ++ "<roofline>\n" ++ saveToFile opts fmtF (finalPoints opts es) ++ "</roofline>\n"

/-- The file that dr_client_main opens for these points; what is there already is lost. -/
def outFileName (timeRun : Bool) (outputFolder : String) : String :=
  outputFolder ++ if timeRun then "/roofline_time.xml" else "/roofline.xml"

end Roofline.Client
