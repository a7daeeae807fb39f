import Roofline.Library.Commands
import Roofline.Library.Padding
import Roofline.Report.AdditionalLines
import Roofline.Correctness.PlottedSeries

/-! The plot command behind add_additional_lines. The file that is appended to is closed by the
first name of the list already, so only a list of one name is merged; and sed puts the labels before
every line with the word plot, also between the lines of the command. -/
namespace Roofline.Correctness
open Library Report
variable {D F : Type}

/-- What a path of the script leads to. -/
def contents (host : Host D F) (files : Files D) (path : String) : String :=
  (host.locate path).elim "" (textAt files)

/-- A roofline.gnu: three lines at least, all of them ended. -/
structure RooflineText (text : String) : Prop where
  ended : ∃ a, text = a ++ "\n"
  three : 3 ≤ (lines text.toList).length

def lastThree (text : String) : String := String.ofList (tailLines 3 text.toList)

/-- The labels of a roofline, as they are read. -/
def rooflineLabels (text : String) : List String :=
  (((matchingLines isLabel text.toList).splitOn '\n').map String.ofList).filter (· ≠ "")

/-- A text with some lines inserted for labels, one label after the other. -/
def withLabels (labels : List String) (text : String) : String :=
  labels.foldl (fun text label => insertLabel label text) text

section lines
variable {text : String} {before : List (List Char)} {l₁ l₂ l₃ : List Char}

private theorem RooflineText.exists_lines (h : RooflineText text) :
    ∃ before l₃ l₂ l₁, (∀ l ∈ before ++ [l₃, l₂, l₁], IsLine l) ∧
      text.toList = joinLines (before ++ [l₃, l₂, l₁]) := by
  obtain ⟨a, rfl⟩ := h.ended
  obtain ⟨ls, hls, hjoin⟩ := exists_joinLines a.toList
  have htext : (a ++ "\n").toList = joinLines ls := by rw [← hjoin, String.toList_append]; rfl
  have hthree := h.three
  rw [htext, lines_joinLines hls, List.length_map] at hthree
  have hlast : (ls.drop (ls.length - 3)).length = 3 := by
    rw [List.length_drop]
    omega
  obtain ⟨l₃, l₂, l₁, hdrop⟩ := List.length_eq_three.mp hlast
  have hsplit := List.take_append_drop (ls.length - 3) ls
  rw [hdrop] at hsplit
  exact ⟨ls.take (ls.length - 3), l₃, l₂, l₁, hsplit.symm ▸ hls, hsplit.symm ▸ htext⟩

theorem RooflineText.locate {host : Host D F} {files : Files D} {path : String}
    (h : RooflineText (contents host files path)) :
    ∃ y, host.locate path = some y ∧ RooflineText (textAt files y) := by
  cases hy : host.locate path with
  | none =>
    have hthree := h.three
    rw [contents, hy, Option.elim_none] at hthree
    exact absurd hthree (by decide)
  | some y =>
    rw [contents, hy] at h
    exact ⟨y, rfl, h⟩

private theorem headLines_joinLines (h : ∀ l ∈ before ++ [l₃, l₂, l₁], IsLine l) :
    headLine (tailLines 3 (joinLines (before ++ [l₃, l₂, l₁]))) = l₃ ++ ['\n'] ∧
      headLine (tailLines 2 (joinLines (before ++ [l₃, l₂, l₁]))) = l₂ ++ ['\n'] ∧
      headLine (tailLines 1 (joinLines (before ++ [l₃, l₂, l₁]))) = l₁ ++ ['\n'] := by
  have htwo : before ++ [l₃, l₂, l₁] = (before ++ [l₃]) ++ [l₂, l₁] := by simp
  have hone : before ++ [l₃, l₂, l₁] = (before ++ [l₃, l₂]) ++ [l₁] := by simp
  refine ⟨headLine_tailLines h, ?_, ?_⟩
  · rw [htwo] at h ⊢
    exact headLine_tailLines h
  · rw [hone] at h ⊢
    exact headLine_tailLines h

/-- What the three commands for a path print, one after the other. -/
def threeLines (shell : Shell D) (files : Files D) (path : String) : String :=
  shell.line files 3 path ++ shell.line files 2 path ++ shell.line files 1 path

private theorem threeLines_toList {shell : Shell D} {files : Files D} {path : String}
    (hlines : ∀ l ∈ before ++ [l₃, l₂, l₁], IsLine l)
    (hread : shell.read files path = joinLines (before ++ [l₃, l₂, l₁])) :
    (threeLines shell files path).toList = joinLines [l₃, l₂, l₁] := by
  obtain ⟨hthree, htwo, hone⟩ := headLines_joinLines hlines
  simp only [threeLines, Shell.line, hread, hthree, htwo, hone, String.toList_append, String.toList_ofList]
  simp [joinLines]

end lines

section run
variable [DecidableEq D] {host : Host D F} {shell : Shell D} {rooflinesDb gnuplotFile name : String} {x : Location D}
  {files : Files D} {f : AppendFile D}

def sourceFile (rooflinesDb name : String) : String := rooflinesDb ++ name ++ "/roofline.gnu"

/-- A file that is closed cannot be written. -/
theorem addLine_closed (hclosed : f.closed = true) :
    shell.addLine rooflinesDb gnuplotFile (files, f) name =
      .error (.python (.valueError "I/O operation on closed file.")) := by
  simp [Shell.addLine, AppendFile.write, hclosed]
  rfl

/-- The files with more text at the end of one of them. -/
def appendAt (files : Files D) (x : Location D) (more : String) : Files D :=
  (Write.put x (.file (textAt files x ++ more))).apply files

private theorem appendAt_put (files : Files D) (x : Location D) (text more : String) :
    appendAt ((Write.put x (.file text)).apply files) x more = (Write.put x (.file (text ++ more))).apply files := by
  have htext : textAt ((Write.put x (.file text)).apply files) x = text := by simp [textAt, Write.apply]
  rw [appendAt, htext]
  funext z
  simp only [Write.apply]
  split_ifs <;> rfl

def lineAppended (shell : Shell D) (files : Files D) (x : Location D) (buffer path : String) : Files D :=
  appendAt files x (buffer ++ threeLines shell files path)

/-- An iteration whose file is open appends three lines, closes the file and inserts labels. -/
theorem addLine_open (shell : Shell D) (rooflinesDb gnuplotFile name : String) (files : Files D) (x : Location D)
    (buffer : String) :
    shell.addLine rooflinesDb gnuplotFile (files, ⟨x, buffer, false⟩) name =
      .ok (((shell.labels (lineAppended shell files x buffer (sourceFile rooflinesDb name))
          (sourceFile rooflinesDb name)).filter (· ≠ "")).foldl (shell.addLabel gnuplotFile)
        (lineAppended shell files x buffer (sourceFile rooflinesDb name)), ⟨x, "", true⟩) := by
  have hwrite (buffer text : String) :
      AppendFile.write ⟨x, buffer, false⟩ text = .ok ⟨x, buffer ++ text, false⟩ := rfl
  have hthree : [3, 2, 1].foldlM (fun f i => AppendFile.write f (shell.line files i (sourceFile rooflinesDb name)))
      ⟨x, buffer, false⟩ = .ok ⟨x, buffer ++ threeLines shell files (sourceFile rooflinesDb name), false⟩ := by
    rw [List.foldlM_cons, hwrite, ok_bind, List.foldlM_cons, hwrite, ok_bind, List.foldlM_cons, hwrite, ok_bind,
      List.foldlM_nil, threeLines, String.append_assoc, String.append_assoc, String.append_assoc]
    rfl
  rw [Shell.addLine, ← sourceFile, hthree, ok_bind]
  rfl

private theorem addLabels_text (hx : shell.locate gnuplotFile = some x) (labels : List String) {text : String}
    (htext : files x = some (.file text)) :
    labels.foldl (shell.addLabel gnuplotFile) files x = some (.file (withLabels (labels.map shell.inserted) text)) := by
  induction labels generalizing files text with
  | nil => exact htext
  | cons label labels ih =>
    apply ih
    rw [Shell.addLabel, hx]
    simp only [htext]
    exact if_pos rfl

/-- The first write of add_additional_lines continues the plot command; the loop runs on the file behind it. -/
theorem addAdditionalLines_eq (hx : host.locate gnuplotFile = some x) {base : String}
    (hbase : files x = some (.file (base ++ "\n"))) (names : List String) :
    host.addAdditionalLines shell rooflinesDb files gnuplotFile names =
      (names.foldlM (shell.addLine rooflinesDb gnuplotFile)
        ((Write.put x (.file (base ++ ",\\\n"))).apply files, ⟨x, "", false⟩)).map Prod.fst := by
  have hread : host.readFile files gnuplotFile = .ok (base ++ "\n") := (readFile_eq_ok hx).mpr hbase
  have hne : base ++ "\n" ≠ "" := by simp
  have hkept : String.ofList (base ++ "\n").toList.dropLast = base := Padded.ofList_dropLast ⟨base, '\n', rfl⟩
  have hwrite : host.writeFile files gnuplotFile (base ++ ",\\\n") =
      .ok ((Write.put x (.file (base ++ ",\\\n"))).apply files) := by
    rw [Host.writeFile, hx]
    exact if_neg (by simp [hbase])
  have hopen : host.openAppend ((Write.put x (.file (base ++ ",\\\n"))).apply files) gnuplotFile =
      .ok ⟨x, "", false⟩ := by
    rw [Host.openAppend, hx]
    exact if_neg (by simp [Write.apply])
  rw [Host.addAdditionalLines, hread, ok_bind, if_neg hne, hkept, hwrite, ok_bind, hopen, ok_bind]
  cases names.foldlM (shell.addLine rooflinesDb gnuplotFile)
    ((Write.put x (.file (base ++ ",\\\n"))).apply files, ⟨x, "", false⟩) <;> rfl

/-- The second of several names finds the file closed. -/
theorem addAdditionalLines_many (hx : host.locate gnuplotFile = some x) {base : String}
    (hbase : files x = some (.file (base ++ "\n"))) (shell : Shell D) (rooflinesDb name₁ name₂ : String)
    (names : List String) :
    host.addAdditionalLines shell rooflinesDb files gnuplotFile (name₁ :: name₂ :: names) =
      .error (.python (.valueError "I/O operation on closed file.")) := by
  rw [addAdditionalLines_eq hx hbase, List.foldlM_cons, addLine_open, ok_bind, List.foldlM_cons, addLine_closed rfl]
  rfl

/-- A single name is merged with the lines that its file has after the first write. -/
theorem addAdditionalLines_one (hx : host.locate gnuplotFile = some x) (hxShell : shell.locate gnuplotFile = some x)
    {base : String} (hbase : files x = some (.file (base ++ "\n"))) (rooflinesDb name : String) :
    ∃ files' labels node, host.addAdditionalLines shell rooflinesDb files gnuplotFile [name] = .ok files' ∧
      labels = (shell.labels ((Write.put x node).apply files) (sourceFile rooflinesDb name)).filter (· ≠ "") ∧
      files' x = some (.file (withLabels (labels.map shell.inserted) (base ++ ",\\\n" ++
        threeLines shell ((Write.put x (.file (base ++ ",\\\n"))).apply files) (sourceFile rooflinesDb name)))) := by
  have happended := appendAt_put files x (base ++ ",\\\n")
    (threeLines shell ((Write.put x (.file (base ++ ",\\\n"))).apply files) (sourceFile rooflinesDb name))
  rw [addAdditionalLines_eq hx hbase, List.foldlM_cons, addLine_open, lineAppended, String.empty_append, happended]
  refine ⟨_, _, .file (base ++ ",\\\n" ++ threeLines shell ((Write.put x (.file (base ++ ",\\\n"))).apply files)
    (sourceFile rooflinesDb name)), rfl, rfl, ?_⟩
  apply addLabels_text hxShell
  exact if_pos rfl

/-- A roofline of another file is not touched by a write. -/
theorem read_other {path : String} {y : Location D} (hpath : shell.locate path = some y) (hy : y ≠ x)
    (files : Files D) (node : Node) : shell.read ((Write.put x node).apply files) path = (textAt files y).toList := by
  rw [Shell.read, hpath, Option.elim_some, textAt, Write.apply_of_ne (w := .put x node) files hy, ← textAt]

theorem threeLines_other {path : String} {y : Location D} (hpath : shell.locate path = some y) (hy : y ≠ x)
    (htext : RooflineText (textAt files y)) (node : Node) :
    threeLines shell ((Write.put x node).apply files) path = lastThree (textAt files y) := by
  have hread := read_other hpath hy files node
  obtain ⟨before, l₃, l₂, l₁, hlines, hjoin⟩ := htext.exists_lines
  have hlast := tailLines_joinLines (List.forall_mem_append.mp hlines).1 (List.forall_mem_append.mp hlines).2
  apply String.toList_injective
  rw [threeLines_toList hlines (hread.trans hjoin), lastThree, String.toList_ofList, hjoin]
  exact hlast.symm

section single
variable {base : String} {y : Location D}

end single

end run

end Roofline.Correctness
