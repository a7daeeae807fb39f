import Roofline.Library.LineEdits
import Roofline.Report.AdditionalLines
import Roofline.Report.Metainfo

/-! The report command (roofline.py): the gnuplot script that it makes of a roofline, with the
points of the input directories. sed edits the script in place, through a shell. -/
namespace Roofline.Report
open Library

/-- The script roofline.py where it runs. The directories of the host are those that there are once
report has made the output directory. -/
structure Tool (D F : Type) where
  host : Host D F
  shell : Shell D
  /-- What sed takes from a text that stands in single quotes. -/
  quoted : String → String
  /-- The files behind a command for a title that ends the quotes itself. -/
  unquoted : (title path : String) → Files D → Files D
  /-- The files behind a run of gnuplot in a directory, on a script that is there. -/
  gnuplot : Files D → D → String → Files D
  cwd : String
  rooflinesDb : String

/-- The arguments of report; a list has at least one element if it is given. -/
structure ReportArgs where
  inputDir : Option (String × List String)
  outputDir : Option String
  line : Option (String × List String)
  title : Option String
  noShellPlot : Bool
  deriving DecidableEq, Repr

/-- The arguments that checkout_input_args has checked and completed. -/
structure CheckedArgs where
  firstDir : String
  otherDirs : List String
  outputDir : String
  firstLine : String
  otherLines : List String
  deriving DecidableEq, Repr

/-- assert condition, message -/
def require (condition : Bool) (message : String) : Except ReportError Unit :=
  if condition then .ok () else .error (.python (.assertionError message))

/-- The pattern of a sed command that is a plain word. -/
def mentions (word : String) (line : List Char) : Bool := word.toList <:+: line

variable {D F : Type}

namespace Point

/-- The text behind the command a of add_point_label. -/
def labelText (format : F → String) (p : Point F) : String :=
  "set label '" ++ p.label ++ "' at " ++ format p.flopsPerByte ++ "," ++ format p.gflopsPerSec ++
    " left textcolor rgb '#000080' offset 0.5,-0.5"

end Point

namespace Host
variable (host : Host D F)

/-- os.path.isfile(path) -/
def isFile (files : Files D) (path : String) : Bool :=
  (host.locate path).any fun x => match files x with
    | some (.file _) => true
    | _ => false

def checkoutInputArgs (files : Files D) (args : ReportArgs) : Except ReportError CheckedArgs :=
  match args.inputDir, args.line with
  | none, _ =>
    .error (.python (.assertionError "ERROR: Please specify the input directory using the -i flag"))
  | some _, none =>
    .error (.python (.assertionError
      "ERROR: Please specify the roofline-like line (or lines) you want to use."))
  | some (firstDir, otherDirs), some (firstLine, otherLines) => do
    (firstDir :: otherDirs).forM fun inDir => do
      require (host.isFile files (inDir ++ "/roofline.xml"))
        ("File roofline.xml in " ++ inDir ++ " not found. Have you previously run roof record? ")
      require (host.isFile files (inDir ++ "/roofline_time.xml"))
        ("File roofline_time.xml in " ++ inDir ++ " directory not found. Have you previously run roof record? ")
    match args.outputDir, otherDirs with
    | some outputDir, _ => return ⟨firstDir, otherDirs, outputDir, firstLine, otherLines⟩
    | none, [] => return ⟨firstDir, otherDirs, firstDir, firstLine, otherLines⟩
    | none, _ :: _ => throw (.python (.assertionError "Please specify an output directory"))

/-- os.chdir(path) -/
def chdir (path : String) : Except ReportError D :=
  match host.dirOf (path ++ "/") with
  | some d => .ok d
  | none => .error .fileNotFoundError

variable [DecidableEq D]

/-- shutil.copyfile(src, dst) -/
def copyfile (files : Files D) (src dst : String) : Except ReportError (Files D) := do
  if host.locate src = host.locate dst ∧ host.pathExists files src then throw .osError -- SameFileError
  host.writeFile files dst (← host.readFile files src)

end Host

namespace Shell
variable [DecidableEq D] (shell : Shell D)

/-- sed -i on a file. A file that is not there is left out, with a message. -/
def sedInPlace (edit : List Char → List Char) (path : String) (files : Files D) : Files D :=
  match shell.locate path with
  | none => files
  | some x =>
    match files x with
    | some (.file text) => (Write.put x (.file (String.ofList (edit text.toList)))).apply files
    | _ => files

def addPointLabel (format : F → String) (outDir : String) (files : Files D) (p : Point F) : Files D :=
  shell.sedInPlace (Edit.appendAfter (mentions "output") (shell.inserted (p.labelText format)).toList).run
    (outDir ++ "/roofline.gnu") files

/-- sed -i with the pattern output and the command a, for one of the fixed texts. -/
def addToOutput (text outFile : String) (files : Files D) : Files D :=
  shell.sedInPlace (Edit.appendAfter (mentions "output") text.toList).run outFile files

end Shell

/-- The command d of copy_empty_roofline. -/
def removeGrid (text : List Char) : List Char :=
  (deleteWithNext (mentions "set grid xtics") false (lines text)).flatten

namespace Tool
variable [DecidableEq D] (tool : Tool D F)

def copyEmptyRoofline (files : Files D) (rooflineFolderPlot outDir : String) (title : Option String) :
    Except ReportError (Files D) := do
  let outFile := outDir ++ "/roofline.gnu"
  let shell := tool.shell
  let files ← tool.host.copyfile files (rooflineFolderPlot ++ "/roofline.gnu") outFile
  let files := shell.sedInPlace (Edit.change (mentions "yrange")
    "set yrange [1.000000e-02 : 1.000000e+02] noreverse nowriteback".toList).run outFile files
  let files := shell.sedInPlace (Edit.change (mentions "output")
    "set output \"roofline.ps\"".toList).run outFile files
  let files := shell.addToOutput "set style line 1 lc rgb 'blue' pt 7" outFile files
  let files := shell.addToOutput "set style line 2 lc rgb 'green' pt 7" outFile files
  let files := shell.addToOutput "set style line 3 lc rgb 'red' pt 7" outFile files
  let files := shell.addToOutput "set style line 4 lc rgb 'orange' pt 7" outFile files
  let files := shell.addToOutput "set style line 5 lc rgb 'black' pt 7" outFile files
  let files := match title with
    | none => files
    | some title =>
      if Library.Xml.apostrophe ∈ title.toList then tool.unquoted title outFile files
      else shell.sedInPlace (Edit.change (mentions "set title")
        (tool.quoted ("set title \"" ++ title ++ "\" ")).toList).run outFile files
  let files := shell.addToOutput "set key top right" outFile files
  return shell.sedInPlace removeGrid outFile files

/-- The script of the plot on the terminal, with the files. What is printed is left out, except that an
application without a name or a time ends the command. -/
def showRooflineAscii (files : Files D) (outDir : String) : Except ReportError (Files D × String) := do
  let asciiFile := outDir ++ "/roofline_ascii.gnu"
  let files ← tool.host.copyfile files (outDir ++ "/roofline.gnu") asciiFile
  let files := tool.shell.sedInPlace (Edit.change (mentions "output") "set terminal dumb".toList).run asciiFile files
  let d ← tool.host.chdir (tool.cwd ++ "/" ++ outDir)
  let script := textAt files (d, "roofline_ascii.gnu")
  let files := tool.gnuplot files d "roofline_ascii.gnu"
  let root ← tool.host.parseFile files (tool.cwd ++ "/" ++ outDir ++ "/roofline_meta.xml")
  (root.children.filter fun e => e.tag = "application").forM fun app => do
    let _ ← (textOf app "name").mapError .python
    let _ ← (textOf app "time").mapError .python
  return (files, script)

/-- if len(args.line) > 1 -/
def mergeLines (files : Files D) (outputDir : String) (otherLines : List String) : Except ReportError (Files D) :=
  if otherLines = [] then .ok files
  else tool.host.addAdditionalLines tool.shell tool.rooflinesDb files (outputDir ++ "/roofline.gnu") otherLines

/-- if not args.no_shell_plot -/
def plotOnShell (files : Files D) (outputDir : String) (noShellPlot : Bool) :
    Except ReportError (Files D × List String) :=
  if noShellPlot then .ok (files, [])
  else (tool.showRooflineAscii files outputDir).map fun r => (r.1, [r.2])

end Tool
end Roofline.Report
