import Roofline.Report.DatFiles

/-! The database of rooflines (roofline.py): record_ert runs the empirical roofline tool and files what it leaves
under the name of the machine and the precision, and show_ert lists what is there. -/
namespace Roofline.Report

/-- What the tool leaves in ./Roofline/Run.001: two entries of roofline.json that can name a directory, and
roofline.gnu. -/
structure ErtRun where
  hostname : String
  precision : String
  gnu : String
  plain : '/' ∉ hostname.toList ∧ '/' ∉ precision.toList
  deriving DecidableEq, Repr

/-- A directory of the database: the run that was moved there under its name, and one moved into it as Run.001. -/
structure ErtFolder where
  run : ErtRun
  inside : Option ErtRun := none
  deriving DecidableEq, Repr

/-- The directories of rooflines_db. -/
abbrev RooflinesDb := String → Option ErtFolder

namespace ErtRun
variable (run : ErtRun)

def getRooflineHostname : String := run.hostname

def getRooflinePrecision : String := run.precision

def folderName : String := run.getRooflineHostname ++ "_" ++ run.getRooflinePrecision

end ErtRun

/-- shutil.move of the directory Run.001: under a new name, or else into the directory that has the name. -/
def RooflinesDb.move (db : RooflinesDb) (run : ErtRun) (dst : String) : Except ReportError RooflinesDb :=
  match db dst with
  | none => .ok (Function.update db dst (some ⟨run, none⟩))
  | some ⟨first, none⟩ => .ok (Function.update db dst (some ⟨first, some run⟩))
  | some ⟨_, some _⟩ => .error .osError

/-- What record_ert does to the database, given what the tool has left. -/
def recordErt (db : RooflinesDb) (run : ErtRun) : Except ReportError RooflinesDb := db.move run run.folderName

/-- The roofline that report plots for a line that names a directory of the database. -/
def RooflinesDb.rooflineGnu (db : RooflinesDb) (line : String) : Option String := (db line).map (·.run.gnu)

/-- hostname, precision = roofs.split("_") -/
def splitRoofs (roofs : String) : Except PyError (String × String) :=
  match roofs.toList.splitOn '_' with
  | [hostname, precision] => .ok (String.ofList hostname, String.ofList precision)
  | [_] => .error (.valueError "not enough values to unpack (expected 2, got 1)")
  | _ => .error (.valueError "too many values to unpack (expected 2)")

/-- The body of the loop of show_ert: the line that is printed for a name. -/
def showRoofs (roofs : String) : Except PyError String := do
  let (hostname, precision) ← splitRoofs roofs
  return "Hostname " ++ hostname ++ " - Precision " ++ precision

def showErt (dirList : List String) : Except PyError (List String) := dirList.mapM showRoofs

end Roofline.Report
