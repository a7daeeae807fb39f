import Roofline.Report.DatFiles
import Roofline.Library.XmlWriter

/-! The metainformation of recordings: what record saves about a run, and the file in which
report gathers what it finds about its input directories (roofline.py). -/
namespace Roofline.Report
open Library.Xml (Element writeTree)

/-- The lines that save_meta_information writes. -/
def metaText (app time : String) : String :=
  "<?xml version=\"1.0\"?>\n" ++ "<metainfo>\n" ++ "<application>\n" ++ ("<name>" ++ app ++ "</name>\n") ++
    ("<time>" ++ time ++ "</time>\n") ++ "</application>\n" ++ "</metainfo>\n"

/-- root.append(root_it.find('application')) -/
def appendApplication (root rootIt : Element) : Except ReportError Element :=
  match rootIt.children.find? fun e => e.tag = "application" with
  | none => .error (.python .typeError)
  | some application => .ok { root with children := root.children ++ [application] }

namespace Host
variable {D F : Type} [DecidableEq D] (host : Host D F)

/-- Record has created the directory; its path ends in a slash. -/
def saveMetaInformation (files : Files D) (app time outDir : String) : Except ReportError (Files D) :=
  host.writeFile files (outDir ++ "roofline_meta.xml") (metaText app time)

/-- The input directories are the first one and the others. -/
def getAndSaveMetainfo (files : Files D) (first : String) (others : List String) (outDir : String) :
    Except ReportError (Files D) := do
  let root ← host.parseFile files (first ++ "/roofline_meta.xml")
  let root ← others.foldlM (fun root inDir => do
    let rootIt ← host.parseFile files (inDir ++ "/roofline_meta.xml")
    appendApplication root rootIt) root
  host.writeFile files (outDir ++ "/roofline_meta.xml") (writeTree root)

end Host
end Roofline.Report
