import Roofline.Report.DatFiles
import Roofline.Library.TextLines

/-! add_additional_lines, which merges the plots of further rooflines into the plot of a report
(roofline.py). It reads and edits files through a shell. -/
namespace Roofline.Report
open Library

/-- The shell: the file that a path leads to within a command, and the line that sed inserts
for a label within a command. -/
structure Shell (D : Type) where
  locate : String → Option (Location D)
  inserted : String → String

/-- A file that is opened in append mode. Python holds back what is written until it is closed. -/
structure AppendFile (D : Type) where
  location : Location D
  buffer : String
  closed : Bool

variable {D F : Type}

/-- What is read from a location if reading does not fail. -/
def textAt (files : Files D) (x : Location D) : String :=
  match files x with
  | some (.file text) => text
  | _ => ""

namespace AppendFile

def write (f : AppendFile D) (text : String) : Except ReportError (AppendFile D) :=
  if f.closed then .error (.python (.valueError "I/O operation on closed file."))
  else .ok { f with buffer := f.buffer ++ text }

variable [DecidableEq D]

def close (f : AppendFile D) (files : Files D) : Files D × AppendFile D :=
  if f.closed then (files, f)
  else ((Write.put f.location (.file (textAt files f.location ++ f.buffer))).apply files,
    { f with buffer := "", closed := true })

end AppendFile

/-- The pattern /^set label/ -/
def isLabel (line : List Char) : Bool := "set label".toList.isPrefixOf line

/-- The pattern /plot/ -/
def mentionsPlot (line : List Char) : Bool := "plot".toList <:+: line

/-- What sed -i "/plot/i \..." makes of a text. -/
def insertLabel (label text : String) : String :=
  String.ofList (insertBefore mentionsPlot label.toList text.toList)

namespace Shell
variable (shell : Shell D)

/-- What a command reads from a path; for a path that leads nowhere it prints to its standard error only. -/
def read (files : Files D) (path : String) : List Char :=
  ((shell.locate path).elim "" (textAt files)).toList

/-- tail -n{} {} | head -n1 -/
def line (files : Files D) (n : ℕ) (path : String) : String :=
  String.ofList (headLine (tailLines n (shell.read files path)))

/-- The lines that sed prints for sed_get_labels, split at line feeds. -/
def labels (files : Files D) (path : String) : List String :=
  ((matchingLines isLabel (shell.read files path)).splitOn '\n').map String.ofList

variable [DecidableEq D]

/-- The command sed_add_labels. -/
def addLabel (gnuplotFile : String) (files : Files D) (label : String) : Files D :=
  match shell.locate gnuplotFile with
  | none => files
  | some x =>
    match files x with
    | some (.file text) => (Write.put x (.file (insertLabel (shell.inserted label) text))).apply files
    | _ => files

/-- One iteration of the loop over line_lst. -/
def addLine (rooflinesDb gnuplotFile : String) (state : Files D × AppendFile D) (lines : String) :
    Except ReportError (Files D × AppendFile D) := do
  let sourceFile := rooflinesDb ++ lines ++ "/roofline.gnu"
  let f ← [3, 2, 1].foldlM (fun f i => f.write (shell.line state.1 i sourceFile)) state.2
  let (files, f) := f.close state.1
  let labels := (shell.labels files sourceFile).filter (· ≠ "")
  return (labels.foldl (shell.addLabel gnuplotFile) files, f)

end Shell

namespace Host
variable (host : Host D F)

/-- open(path, "a"), for a file that is there. -/
def openAppend (files : Files D) (path : String) : Except ReportError (AppendFile D) :=
  match host.locate path with
  | none => .error .fileNotFoundError
  | some x => if files x = some .directory then .error .isADirectoryError else .ok ⟨x, "", false⟩

variable [DecidableEq D]

def addAdditionalLines (shell : Shell D) (rooflinesDb : String) (files : Files D) (gnuplotFile : String)
    (lineLst : List String) : Except ReportError (Files D) := do
  let text ← host.readFile files gnuplotFile
  if text = "" then throw .osError
  let files ← host.writeFile files gnuplotFile (String.ofList text.toList.dropLast ++ ",\\\n")
  let f ← host.openAppend files gnuplotFile
  let (files, _) ← lineLst.foldlM (shell.addLine rooflinesDb gnuplotFile) (files, f)
  return files

end Host
end Roofline.Report
