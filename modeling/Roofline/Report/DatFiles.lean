import Roofline.Report.GetPoints
import Roofline.Library.Stores

/-! The data files of report (roofline.py): the loop over the input directories, on a file
system. A directory is what its path leads to, so that several paths may lead to one of
them; a file is known by its directory and its name, and files are not linked. -/
namespace Roofline.Report
open Library Library.Xml

/-- What a directory may have under a name. -/
inductive Node where
  | file (text : String)
  | directory
  deriving DecidableEq, Repr

/-- The exceptions of the loop. -/
inductive ReportError where
  | fileNotFoundError
  | isADirectoryError
  | osError
  | python (e : PyError)
  deriving DecidableEq, Repr

/-- Where the script runs: the directories that paths lead to, Python's floats and how they
are formatted. -/
structure Host (D F : Type) where
  dirOf : String → Option D
  py : Python F
  format : F → String

abbrev Location (D : Type) := D × String

abbrev Files (D : Type) := Location D → Option Node

/-- A path up to its last slash, and the name behind it. -/
def splitPath (path : String) : String × String :=
  (String.ofList (path.toList.reverse.dropWhile (· ≠ '/')).reverse,
    String.ofList (path.toList.reverse.takeWhile (· ≠ '/')).reverse)

namespace Point
variable {F : Type}

def getPointCoordinates (format : F → String) (p : Point F) : String :=
  "  " ++ format p.flopsPerByte ++ " \t" ++ format p.gflopsPerSec ++ "\n"

end Point

/-- The header and the coordinates that create_dat_file writes. -/
def datText {F : Type} (format : F → String) (pointList : List (Point F)) : String :=
  "# X\tY\n" ++ String.join (pointList.map (·.getPointCoordinates format))

namespace Host
variable {D F : Type} (host : Host D F)

def locate (path : String) : Option (Location D) :=
  (host.dirOf (splitPath path).1).map fun d => (d, (splitPath path).2)

def readFile (files : Files D) (path : String) : Except ReportError String :=
  match (host.locate path).bind files with
  | none => .error .fileNotFoundError
  | some .directory => .error .isADirectoryError
  | some (.file text) => .ok text

/-- A file that is opened with w+ and written. -/
def writeFile [DecidableEq D] (files : Files D) (path text : String) : Except ReportError (Files D) :=
  match host.locate path with
  | none => .error .fileNotFoundError
  | some x =>
    if files x = some .directory then .error .isADirectoryError
    else .ok ((Write.put x (.file text)).apply files)

/-- os.path.exists(path) -/
def pathExists (files : Files D) (path : String) : Bool := (host.locate path).any fun x => (files x).isSome

/-- ET.parse(path) -/
def parseFile (files : Files D) (path : String) : Except ReportError Element := do
  (orRaise (parse (← host.readFile files path)) .parseError).mapError .python

def getAppTitle (files : Files D) (inDir : String) : Except ReportError String := do
  let root ← host.parseFile files (inDir ++ "/roofline_meta.xml")
  match root.children.find? fun e => e.tag = "application" with
  | none => throw (.python .attributeError)
  | some application =>
    match ← (textOf application "name").mapError .python with
    | none => throw (.python .attributeError)
    | some text => return text.map fun c => if c = ' ' then '_' else c

/-- get_points on a directory; checkout_input_args has found its two files. -/
def getPoints (files : Files D) (inDir : String) (colourN : ℤ) (name : String) :
    Except ReportError (List (Point F)) := do
  let roofline ← host.readFile files (inDir ++ "/roofline.xml")
  let rooflineTime ← host.readFile files (inDir ++ "/roofline_time.xml")
  (host.py.getPoints colourN name roofline rooflineTime).mapError .python

variable [DecidableEq D]

def createDatFile (files : Files D) (outDir name : String) (pointList : List (Point F)) :
    Except ReportError (Files D) :=
  host.writeFile files (outDir ++ "/" ++ name ++ ".dat") (datText host.format pointList)

def copyDatFile (files : Files D) (inputDir name outputDir : String) : Except ReportError (Files D) :=
  if host.pathExists files (outputDir ++ "/" ++ name ++ ".dat") = false then do
    host.writeFile files (outputDir ++ "/" ++ name ++ ".dat")
      (← host.readFile files (inputDir ++ "/" ++ name ++ ".dat"))
  else .ok files

/-- The reference goes over the last byte of the file; report leaves a line end or a blank there. -/
def addDatFileReference (files : Files D) (gnuplotFile appName : String) (color : ℤ) :
    Except ReportError (Files D) := do
  let text ← host.readFile files gnuplotFile
  if text = "" then throw .osError
  host.writeFile files gnuplotFile (String.ofList text.toList.dropLast ++ ",\\\n'" ++ appName ++ ".dat' title '" ++
    appName ++ "' with points ls " ++ toString color ++ " ")

/-- What an iteration of the loop plots: the name that its reference gives to the series, and
the points that get_points has returned. -/
structure Plotted (F : Type) where
  appName : String
  points : List (Point F)

/-- One iteration of the loop in report. -/
def reportStep (outputDir : String) (state : Files D × List (Plotted F)) (input : String × ℕ) :
    Except ReportError (Files D × List (Plotted F)) := do
  let (inDir, colourN) := input
  let files := state.1
  let currentPoints ← host.getPoints files inDir (colourN + 1) (← host.getAppTitle files inDir)
  let files ← host.createDatFile files inDir (← host.getAppTitle files inDir) currentPoints
  let files ← host.copyDatFile files inDir (← host.getAppTitle files inDir) outputDir
  let appName ← host.getAppTitle files inDir
  let files ← host.addDatFileReference files (outputDir ++ "/roofline.gnu") appName (colourN + 1)
  return (files, state.2 ++ [⟨appName, currentPoints⟩])

/-- The loop; the point list is that of all iterations together. -/
def reportLoop (outputDir : String) (inputs : List String) (files : Files D) :
    Except ReportError (Files D × List (Plotted F)) :=
  inputs.zipIdx.foldlM (host.reportStep outputDir) (files, [])

end Host
end Roofline.Report
