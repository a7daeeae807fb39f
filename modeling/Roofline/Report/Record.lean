import Roofline.Library.Csv
import Roofline.Library.Grouping
import Roofline.Report.Metainfo

/-! The record command (roofline.py): it runs the client on an application, once for the counts and at
least once for the times, and leaves the files of these runs in a directory of its own. -/
namespace Roofline.Report
open Library

/-- The script roofline.py where it records. The directories of the host are those that there are once
record has made the output directory. -/
structure Recorder (D F : Type) where
  host : Host D F
  cwd : String
  rooflineToolDir : String
  /-- os.path.exists, before the output directory is made. -/
  taken : String → Bool
  /-- strftime, for the name of a directory and for the metainformation. -/
  dirTime : String
  metaTime : String
  /-- What a shell command makes of the files, and the time it takes, by its number. -/
  launch : ℕ → String → Files D → Files D
  elapsed : ℕ → F

structure RecordArgs where
  targetApp : String
  targetAppArgs : List String := []
  output : Option String := none
  roiStart : Option String := none
  roiEnd : Option String := none
  traceF : Option String := none
  callsAsSeparateRoi : Bool := false
  runTimeAnalysis : ℤ := 1
  timeOnly : Bool := false
  readBytesOnly : Bool := false
  writeBytesOnly : Bool := false
  flopsOnly : Bool := false
  deriving DecidableEq, Repr

/-- The files, and the commands that the script has given to the shell. -/
structure Session (D : Type) where
  files : Files D
  commands : List String

/-- if text: ... -/
def given (text : Option String) : Option String := text.filter (· ≠ "")

/-- "--flag {}".format(text) if text else "" -/
def flagged (flag : String) (text : Option String) : String := (given text).elim "" fun text => flag ++ " " ++ text

/-- A row of a csv.writer with quoting=csv.QUOTE_ALL. -/
def csvRow (fields : List String) : String := String.ofList (Csv.writeRow (fields.map String.toList))

/-- The inner loop over the points of a file of times. -/
def Python.addTimes {F : Type} (py : Python F) (timeDict : Groups String F) (rootTime : Xml.Element) :
    Except PyError (Groups String F) :=
  (rootTime.children.filter fun e => e.tag = "point").foldlM (fun timeDict p => do
    let label ← attribOf p "label"
    let timeInfo ← py.floatOf p "time"
    return timeDict.add label timeInfo) timeDict

namespace RecordArgs

/-- The command line of the application, without a leading "./". -/
def appWithFlags (args : RecordArgs) : String :=
  let app := if args.targetAppArgs = [] then args.targetApp
    else args.targetApp ++ " " ++ String.intercalate " " args.targetAppArgs
  if ['.', '/'].isPrefixOf app.toList then String.ofList (app.toList.drop 2) else app

def clientOptions (args : RecordArgs) (outDir : String) : List String :=
  [if outDir = "" then "." else "--output_folder " ++ outDir,
    flagged "--roi_start" args.roiStart,
    flagged "--roi_end" args.roiEnd,
    if args.readBytesOnly then "--read_bytes_only" else "",
    if args.writeBytesOnly then "--write_bytes_only" else "",
    flagged "--trace_f" args.traceF,
    if args.callsAsSeparateRoi then "--calls_as_separate_roi" else ""]

end RecordArgs

variable {D F : Type} [DecidableEq D]

namespace Host
variable (host : Host D F)

/-- os.path.isdir(path), for a path that does not end in a slash. -/
def isDir (files : Files D) (path : String) : Bool := (host.locate path).any fun x => files x = some .directory

/-- shutil.move(src, dst), for a file. -/
def move (files : Files D) (src dst : String) : Except ReportError (Files D) :=
  let realDst := if host.isDir files dst then dst ++ "/" ++ (splitPath src).2 else dst
  if host.isDir files dst && host.pathExists files realDst then .error .osError
  else match host.locate src, host.locate realDst with
    | some x, some y => match files x with
      | some node => .ok ((Write.put y node).apply fun z => if z = x then none else files z)
      | none => .error .fileNotFoundError
    | _, _ => .error .fileNotFoundError

def saveTimePointStatistics (files : Files D) (dict : Groups String F) (fileName : String) :
    Except ReportError (Files D) :=
  host.writeFile files fileName (String.join (dict.flatMap fun l =>
    csvRow [l.1] :: l.2.map fun elem => csvRow [host.format elem]))

def saveTimeStatistics (files : Files D) (timeInfoList : List F) (fileName : String) :
    Except ReportError (Files D) :=
  host.writeFile files fileName
    (String.join (csvRow ["time"] :: timeInfoList.map fun elem => csvRow [host.format elem]))

def timeDict (files : Files D) (outDir : String) (runs : ℕ) : Except ReportError (Groups String F) :=
  (List.range runs).foldlM (fun dict i => do
    let rootTime ← host.parseFile files (outDir ++ "/roofline_time_" ++ toString i ++ ".xml")
    (host.py.addTimes dict rootTime).mapError .python) []

end Host

namespace Recorder
variable (rec : Recorder D F)

def drrun : String := rec.rooflineToolDir ++ "/dynamorio/build/bin64/drrun "

/-- sp.call(cmd, shell=True) -/
def call (cmd : String) (s : Session D) : Session D :=
  ⟨rec.launch s.commands.length cmd s.files, s.commands ++ [cmd]⟩

def clientCmd (app : String) (options : List String) : String :=
  rec.drrun ++ " -c " ++ rec.rooflineToolDir ++ "/client/build/libroofline.so " ++ String.intercalate " " options ++
    " -- " ++ app

def runClient (app : String) (options : List String) (s : Session D) : Session D :=
  rec.call (rec.clientCmd app options) s

/-- The command of get_time_info: the settings are put before the application if there are none. -/
def timeInfoCmd (app settings : String) : String :=
  if settings ≠ "" then "./" ++ app else settings ++ " ./" ++ app

/-- The first loop of run_time_analysis. -/
def runTimes (app : String) (options : List String) (outDir : String) (runs : ℕ) (s : Session D) :
    Except ReportError (Session D) :=
  (List.range runs).foldlM (fun s i => do
    let s := rec.runClient app options s
    let files ← rec.host.move s.files (outDir ++ "roofline_time.xml")
      (outDir ++ "roofline_time_" ++ toString i ++ ".xml")
    return ⟨files, s.commands⟩) s

/-- A loop that calls a command and collects the times that it takes. -/
def measure (cmd : String) (runs : ℕ) (s : Session D) : Session D × List F :=
  (List.range runs).foldl (fun s _ => (rec.call cmd s.1, s.2 ++ [rec.elapsed s.1.commands.length])) (s, [])

def runTimeAnalysis (app : String) (options : List String) (outDir : String) (runs : ℕ) (s : Session D) :
    Except ReportError (Session D) := do
  let s ← rec.runTimes app options outDir runs s
  let timeDict ← rec.host.timeDict s.files outDir runs
  let (s, nativeRuntime) := rec.measure (timeInfoCmd app "") runs s
  let (s, dynamorioRuntime) := rec.measure (timeInfoCmd app rec.drrun) runs s
  let (s, dynamorioAndClientRuntime) := rec.measure (rec.clientCmd app options) runs s
  let files ← rec.host.saveTimePointStatistics s.files timeDict (outDir ++ "roi_runtime.csv")
  let files ← rec.host.saveTimeStatistics files nativeRuntime (outDir ++ "native_runtime.csv")
  let files ← rec.host.saveTimeStatistics files dynamorioRuntime (outDir ++ "dynamorio_runtime.csv")
  let files ← rec.host.saveTimeStatistics files dynamorioAndClientRuntime
    (outDir ++ "dynamorio_and_client_runtime.csv")
  return ⟨files, s.commands⟩

/-- sys.exit ends the script behind a run for the counts, or for the times, alone. -/
def runRooflineClient (args : RecordArgs) (app outDir : String) (s : Session D) : Except ReportError (Session D) :=
  let options := args.clientOptions outDir
  let timeOptions := options ++ ["--time_run"]
  if args.flopsOnly then .ok (rec.runClient app options s)
  else if args.timeOnly then .ok (rec.runClient app timeOptions s)
  else
    let s := rec.runClient app options s
    if 1 < args.runTimeAnalysis then rec.runTimeAnalysis app timeOptions outDir args.runTimeAnalysis.toNat s
    else .ok (rec.runClient app timeOptions s)

/-- The output directory; its path ends in a slash. -/
def outDir (args : RecordArgs) : String :=
  rec.cwd ++ (given args.output).getD
    (args.appWithFlags.map (fun c => if c = ' ' then '_' else c) ++ rec.dirTime) ++ "/"

/-- Record leaves a directory alone that is there already. -/
def record (files : Files D) (args : RecordArgs) : Except ReportError (Session D) :=
  if rec.taken (rec.outDir args) then .ok ⟨files, []⟩
  else do
    let files ← rec.host.saveMetaInformation files args.appWithFlags rec.metaTime (rec.outDir args)
    rec.runRooflineClient args args.appWithFlags (rec.outDir args) ⟨files, []⟩

end Recorder
end Roofline.Report
