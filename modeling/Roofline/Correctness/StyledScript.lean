import Roofline.Report.Script
import Roofline.Correctness.MergedLines

/-! The script that copy_empty_roofline makes of a roofline: the commands of sed, one after the other,
are a single pass over its lines. -/
namespace Roofline.Correctness
open Library Report
variable {D F : Type}

def pointStyles : List (List Char) :=
  ["set style line 1 lc rgb 'blue' pt 7".toList, "set style line 2 lc rgb 'green' pt 7".toList,
    "set style line 3 lc rgb 'red' pt 7".toList, "set style line 4 lc rgb 'orange' pt 7".toList,
    "set style line 5 lc rgb 'black' pt 7".toList]

def yrangeLine : List Char := "set yrange [1.000000e-02 : 1.000000e+02] noreverse nowriteback".toList
def outputLine : List Char := "set output \"roofline.ps\"".toList
def keyLine : List Char := "set key top right".toList

def titleText (tool : Tool D F) (title : String) : List Char :=
  (tool.quoted ("set title \"" ++ title ++ "\" ")).toList

def titleEdit (title : Option (List Char)) : Edit := title.elim 1 (Edit.change (mentions "set title"))

/-- All commands but the last one, in their order. -/
def styleEdit (title : Option (List Char)) : Edit :=
  Edit.change (mentions "yrange") yrangeLine * Edit.change (mentions "output") outputLine *
    Edit.appendAll (mentions "output") pointStyles * titleEdit title * Edit.appendAfter (mentions "output") keyLine

/-- A title that stays within the quotes of its command. -/
def QuotedTitle (title : Option String) : Prop := ∀ t, title = some t → Xml.apostrophe ∉ t.toList

/-- The script that points are added to. -/
def styledText (tool : Tool D F) (title : Option String) (text : String) : String :=
  String.ofList (removeGrid ((styleEdit (title.map (titleText tool))).run text.toList))

section words

end words

section pass
variable {title : Option (List Char)} {l : List Char}

end pass

section paths
variable {host : Host D F}

/-- A file of a directory is found by its name. -/
theorem locate_file (dir : String) {name : String} (hname : '/' ∉ name.toList) :
    host.locate (dir ++ "/" ++ name) = (host.dirOf (dir ++ "/")).map fun d => (d, name) := by
  have hslash : ∀ c ∈ name.toList.reverse, decide (c ≠ '/') = true := by
    intro c hc
    rw [decide_eq_true_eq]
    rintro rfl
    exact hname (List.mem_reverse.mp hc)
  have hpath : (dir ++ "/" ++ name).toList.reverse = name.toList.reverse ++ '/' :: dir.toList.reverse := by
    simp [String.toList_append]
  have hsplit : splitPath (dir ++ "/" ++ name) = (dir ++ "/", name) := by
    rw [splitPath, hpath, List.dropWhile_append_of_pos hslash, List.takeWhile_append_of_pos hslash,
      List.dropWhile_cons_of_neg (by decide), List.takeWhile_cons_of_neg (by decide), List.append_nil,
      List.reverse_cons, List.reverse_reverse, List.reverse_reverse, String.ofList_toList]
    congr 1
    apply String.toList_injective
    rw [String.toList_ofList, String.toList_append]
    rfl
  rw [Host.locate, hsplit]

end paths

section copied
variable [DecidableEq D] {tool : Tool D F} {files files' : Files D} {x : Location D} {path : String}

def withText (files : Files D) (x : Location D) (text : String) : Files D := (Write.put x (.file text)).apply files

@[simp] theorem withText_self (files : Files D) (x : Location D) (text : String) :
    withText files x text x = some (.file text) := if_pos rfl

theorem withText_of_ne (files : Files D) {x y : Location D} (h : y ≠ x) (text : String) :
    withText files x text y = files y := Write.apply_of_ne (w := .put x _) files h

@[simp] theorem withText_withText (files : Files D) (x : Location D) (text text' : String) :
    withText (withText files x text) x text' = withText files x text' := by
  funext y
  by_cases hy : y = x
  · rw [hy, withText_self, withText_self]
  · rw [withText_of_ne _ hy, withText_of_ne _ hy, withText_of_ne _ hy]

/-- sed edits the text of a file that is there. -/
theorem sedInPlace_withText {shell : Shell D} (hx : shell.locate path = some x) (edit : List Char → List Char)
    (files : Files D) (text : List Char) :
    shell.sedInPlace edit path (withText files x (String.ofList text)) =
      withText files x (String.ofList (edit text)) := by
  rw [Shell.sedInPlace, hx]
  simp only [withText_self, String.toList_ofList]
  exact withText_withText files x _ _

theorem copyfile_eq_ok {host : Host D F} {src dst : String} (h : host.copyfile files src dst = .ok files') :
    ∃ x y text, host.locate dst = some x ∧ host.locate src = some y ∧ y ≠ x ∧ files y = some (.file text) ∧
      files' = withText files x text := by
  unfold Host.copyfile at h
  split_ifs at h with hsame
  · cases h
  · obtain ⟨text, hread, hwrite⟩ := bind_eq_ok.mp h
    obtain ⟨x, hx, rfl⟩ := writeFile_eq_ok hwrite
    cases hy : host.locate src with
    | none =>
      rw [Host.readFile, hy] at hread
      cases hread
    | some y =>
      have htext := (readFile_eq_ok hy).mp hread
      refine ⟨x, y, text, hx, rfl, ?_, htext, rfl⟩
      rintro rfl
      exact hsame ⟨hy.trans hx.symm, by simp [Host.pathExists, hy, htext]⟩

/-- The commands of copy_empty_roofline are one pass over the lines of the roofline, and the removal
of the grid behind it. -/
theorem copyEmptyRoofline_eq_ok {folder outDir : String} {title : Option String}
    (hshell : tool.shell.locate (outDir ++ "/roofline.gnu") = tool.host.locate (outDir ++ "/roofline.gnu"))
    (htitle : QuotedTitle title) (h : tool.copyEmptyRoofline files folder outDir title = .ok files') :
    ∃ x y text, tool.host.locate (outDir ++ "/roofline.gnu") = some x ∧
      tool.host.locate (folder ++ "/roofline.gnu") = some y ∧ y ≠ x ∧ files y = some (.file text) ∧
        files' = withText files x (styledText tool title text) := by
  unfold Tool.copyEmptyRoofline at h
  obtain ⟨copied, hcopy, h⟩ := bind_eq_ok.mp h
  obtain rfl := Except.ok.inj h
  obtain ⟨x, y, text, hx, hy, hne, htext, rfl⟩ := copyfile_eq_ok hcopy
  refine ⟨x, y, text, hx, hy, hne, htext, ?_⟩
  rw [hx] at hshell
  have hstyle : (styleEdit (title.map (titleText tool))).run text.toList =
      (Edit.appendAfter (mentions "output") keyLine).run ((titleEdit (title.map (titleText tool))).run
        ((Edit.appendAll (mentions "output") pointStyles).run
          ((Edit.change (mentions "output") outputLine).run
            ((Edit.change (mentions "yrange") yrangeLine).run text.toList)))) := by
    simp only [styleEdit, Edit.run_mul]
  have hstyles (text : List Char) : (Edit.appendAll (mentions "output") pointStyles).run text =
      pointStyles.foldl (fun text style => (Edit.appendAfter (mentions "output") style).run text) text := by
    rw [Edit.appendAll, Edit.run_prod, List.foldl_map]
  have hcopied : withText files x text = withText files x (String.ofList text.toList) := by rw [String.ofList_toList]
  rw [hcopied, styledText, hstyle, hstyles]
  unfold keyLine outputLine yrangeLine
  cases title with
  | none =>
    simp only [Shell.addToOutput, sedInPlace_withText hshell, pointStyles, List.foldl_cons, List.foldl_nil, titleEdit,
      Option.map_none, Option.elim_none, Edit.run_one]
  | some title =>
    simp only [Shell.addToOutput, if_neg (htitle title rfl), sedInPlace_withText hshell, pointStyles, List.foldl_cons,
      List.foldl_nil, titleEdit, titleText, Option.map_some, Option.elim_some]

end copied

end Roofline.Correctness
