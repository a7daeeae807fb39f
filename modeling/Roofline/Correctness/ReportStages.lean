import Roofline.Correctness.AppendedSeries
import Roofline.Correctness.StyledScript
import Roofline.Correctness.RerunMetainfo

/-! The stages of report, for a run that returns: what each of them has read and written. -/
namespace Roofline.Correctness
open Library Report
variable {D F : Type}

def references (plotted : List (Host.Plotted F)) : List (String × ℤ) :=
  plotted.zipIdx.map fun p => (p.1.appName, (p.2 : ℤ) + 1)

def labelLines (tool : Tool D F) (plotted : List (Host.Plotted F)) : List (List Char) :=
  (plotted.flatMap Host.Plotted.points).map fun p => (tool.shell.inserted (p.labelText tool.host.format)).toList

/-- A text without its last character, which is the line feed of a script. -/
def chopped (text : String) : String := String.ofList text.toList.dropLast

/-- The script with a reference for each directory. -/
def referenced (script : String) (plotted : List (Host.Plotted F)) : String :=
  chopped script ++ String.join ((references plotted).map continued) ++ " "

/-- The text of further roofline that the plot command goes on with. -/
def mergedScript (tool : Tool D F) (base : String) (roofline : String) : String :=
  withLabels ((rooflineLabels roofline).map tool.shell.inserted) (base ++ ",\\\n" ++ lastThree roofline)

/-- A script that is complete but for the references and the labels. -/
def preparedScript (tool : Tool D F) (title : Option String) (roofline : String) (others : List String) : String :=
  others.foldl (fun script other => mergedScript tool (chopped script) other) (styledText tool title roofline)

def asciiScript (script : String) : String :=
  String.ofList ((Edit.change (mentions "output") "set terminal dumb".toList).run script.toList)

section texts

theorem chopped_ended (base : String) : chopped (base ++ "\n") = base := Padded.ofList_dropLast ⟨base, '\n', rfl⟩

private theorem chopped_blank (base : String) : chopped (base ++ " ") = base := Padded.ofList_dropLast ⟨base, ' ', rfl⟩

private theorem ended_or_empty {ls : List (List Char)} (h : ∀ l ∈ ls, Ended l) :
    String.ofList ls.flatten = "" ∨ ∃ base, String.ofList ls.flatten = base ++ "\n" := by
  rcases List.eq_nil_or_concat ls with rfl | ⟨ls, l, rfl⟩
  · exact .inl rfl
  · obtain ⟨a, -, ha⟩ := h l (by simp)
    refine .inr ⟨String.ofList (ls.flatten ++ a), ?_⟩
    apply String.toList_injective
    simp [ha]

private theorem ended_lines (base : String) : ∀ l ∈ lines (base ++ "\n").toList, Ended l := by
  intro l hl
  rw [String.toList_append] at hl
  exact ended_of_mem_lines hl

theorem styledText_ended (tool : Tool D F) (title : Option String) (base : String) :
    styledText tool title (base ++ "\n") = "" ∨
      ∃ base', styledText tool title (base ++ "\n") = base' ++ "\n" := by
  apply ended_or_empty
  intro l hl
  have hl := (deleteWithNext_sublist _ _ _).subset hl
  rw [Edit.lines_run] at hl
  obtain ⟨m, hm, hl⟩ := List.mem_flatMap.mp hl
  exact (styleEdit _).ended (ended_lines base m hm) l hl

end texts

theorem chdir_eq_ok {host : Host D F} {path : String} {d : D} :
    host.chdir path = .ok d ↔ host.dirOf (path ++ "/") = some d := by
  unfold Host.chdir
  cases host.dirOf (path ++ "/") <;> simp

/-- The name of a script in the output directory. -/
theorem locate_script {host : Host D F} {x : Location D} {outputDir : String}
    (hx : host.locate (outputDir ++ "/roofline.gnu") = some x) :
    ∃ d, host.dirOf (outputDir ++ "/") = some d ∧ x = (d, "roofline.gnu") := by
  have hfile : host.locate (outputDir ++ "/" ++ "roofline.gnu") = _ := locate_file outputDir (by decide)
  rw [String.append_assoc] at hfile
  obtain ⟨d, hd, rfl⟩ := Option.map_eq_some_iff.mp (hfile.symm.trans hx)
  exact ⟨d, hd, rfl⟩

/-- The plan of the loop depends on XML files only. -/
theorem SameXml.planned {host : Host D F} {files files' : Files D} (h : SameXml files files') (inputs : List String) :
    planned host files inputs = planned host files' inputs := by
  unfold Correctness.planned
  congr 1
  funext p
  rw [h.getAppTitle]
  congr 1
  funext appName
  rw [h.getPoints]

section names
variable {host : Host D F} {files files' : Files D} {dir name path outputDir : String}

/-- The data files of a series have their own names. -/
theorem seriesOf_dat {p : String × Host.Plotted F} {s : Series D} (h : seriesOf host outputDir p = some s) :
    EndsIn 't' s.source ∧ EndsIn 't' s.target := by
  obtain ⟨source, hsource, hrest⟩ := Option.bind_eq_some_iff.mp h
  obtain ⟨target, htarget, hseries⟩ := Option.bind_eq_some_iff.mp hrest
  obtain rfl := Option.some.inj hseries
  exact ⟨locate_dat hsource, locate_dat htarget⟩

theorem allSeries_dat {inputs : List String} {plotted : List (Host.Plotted F)} {s : Series D}
    (hs : s ∈ allSeries host outputDir inputs plotted) : EndsIn 't' s.source ∧ EndsIn 't' s.target := by
  obtain ⟨p, -, hs⟩ := List.mem_filterMap.mp hs
  exact seriesOf_dat hs

/-- A file of a directory, by its name. -/
theorem locate_name (dir : String) (hpath : path = "/" ++ name) (hname : '/' ∉ name.toList) :
    host.locate (dir ++ path) = (host.dirOf (dir ++ "/")).map fun d => (d, name) := by
  rw [hpath, ← String.append_assoc, locate_file dir hname]

/-- A file with another name is another file. -/
theorem not_located {name' : String} (hpath : path = "/" ++ name) (hname : '/' ∉ name.toList)
    (hne : name' ≠ name) (d : D) : host.locate (dir ++ path) ≠ some (d, name') := by
  rw [locate_name dir hpath hname]
  intro h
  obtain ⟨d', -, heq⟩ := Option.map_eq_some_iff.mp h
  exact hne (congrArg Prod.snd heq).symm

theorem endsIn_script {x : Location D} (hx : host.locate (outputDir ++ "/roofline.gnu") = some x) : EndsIn 'u' x := by
  apply locate_endsIn hx
  · rw [String.toList_append, List.getLast?_append]
    rfl
  · decide

theorem endsIn_terminal {z : Location D} (hz : host.locate (outputDir ++ "/roofline_ascii.gnu") = some z) :
    EndsIn 'u' z := by
  apply locate_endsIn hz
  · rw [String.toList_append, List.getLast?_append]
    rfl
  · decide

def plotPath (tool : Tool D F) (outputDir : String) : String := tool.cwd ++ "/" ++ outputDir ++ "/roofline.ps"

theorem endsIn_plot {tool : Tool D F} {y : Location D} (hy : tool.host.locate (plotPath tool outputDir) = some y) :
    EndsIn 's' y := by
  apply locate_endsIn hy
  · rw [plotPath, String.toList_append, List.getLast?_append]
    rfl
  · decide

theorem ne_plot {tool : Tool D F} {y : Location D} {d : D}
    (hd : tool.host.dirOf (tool.cwd ++ "/" ++ outputDir ++ "/") = some d)
    (hy : tool.host.locate (plotPath tool outputDir) ≠ some y) : y ≠ (d, "roofline.ps") := by
  have hpath : "/roofline.ps" = "/" ++ "roofline.ps" := rfl
  rintro rfl
  rw [plotPath, locate_name _ hpath (by decide), hd] at hy
  exact hy rfl

end names

section surroundings
variable {tool : Tool D F} {title : Option String} {checked : CheckedArgs} {scripts : List String}

/-- The paths that commands of a report contain. -/
def reportPaths (tool : Tool D F) (checked : CheckedArgs) : List String :=
  (checked.outputDir ++ "/roofline.gnu") :: (checked.outputDir ++ "/roofline_ascii.gnu") ::
    checked.otherLines.map (sourceFile tool.rooflinesDb)

/-- What a report relies on: the shell takes the title and the paths of its commands as they are, and gnuplot, where it
runs, writes no file but the plot for the scripts that it is given. -/
structure Surroundings (tool : Tool D F) (title : Option String) (checked : CheckedArgs) (scripts : List String) :
    Prop where
  title : QuotedTitle title
  shell : ∀ path ∈ reportPaths tool checked, tool.shell.locate path = tool.host.locate path
  gnuplot : ∀ files d name, textAt files (d, name) ∈ scripts →
    ∀ y, y ≠ (d, "roofline.ps") → tool.gnuplot files d name y = files y

theorem Surroundings.script (h : Surroundings tool title checked scripts) :
    tool.shell.locate (checked.outputDir ++ "/roofline.gnu") =
      tool.host.locate (checked.outputDir ++ "/roofline.gnu") :=
  h.shell _ List.mem_cons_self

theorem Surroundings.terminal (h : Surroundings tool title checked scripts) :
    tool.shell.locate (checked.outputDir ++ "/roofline_ascii.gnu") =
      tool.host.locate (checked.outputDir ++ "/roofline_ascii.gnu") :=
  h.shell _ (List.mem_cons_of_mem _ List.mem_cons_self)

theorem Surroundings.lines (h : Surroundings tool title checked scripts) :
    ∀ name ∈ checked.otherLines,
      tool.shell.locate (sourceFile tool.rooflinesDb name) = tool.host.locate (sourceFile tool.rooflinesDb name) := by
  intro name hname
  exact h.shell _ (List.mem_cons_of_mem _ (List.mem_cons_of_mem _ (List.mem_map_of_mem hname)))

end surroundings

section stages
variable [DecidableEq D] {tool : Tool D F} {host : Host D F} {shell : Shell D} {files files' : Files D}
  {x : Location D} {gnuplotFile outputDir : String}

/-- add_additional_lines changes the script only. -/
theorem addLabels_other (hx : shell.locate gnuplotFile = some x) (labels : List String) (files : Files D)
    {y : Location D} (hy : y ≠ x) : labels.foldl (shell.addLabel gnuplotFile) files y = files y := by
  induction labels generalizing files with
  | nil => rfl
  | cons label labels ih =>
    rw [List.foldl_cons, ih, Shell.addLabel, hx]
    simp only
    cases files x with
    | none => rfl
    | some node =>
      cases node with
      | directory => rfl
      | file text => exact withText_of_ne files hy _

private theorem addAdditionalLines_eq_ok (hx : host.locate gnuplotFile = some x)
    (hxShell : shell.locate gnuplotFile = some x) {db base : String}
    (hbase : files x = some (.file (base ++ "\n"))) {first : String} {others : List String}
    (hfirst : shell.locate (sourceFile db first) = host.locate (sourceFile db first))
    (hsource : ∃ y, host.locate (sourceFile db first) = some y ∧ y ≠ x ∧ RooflineText (textAt files y))
    (h : host.addAdditionalLines shell db files gnuplotFile (first :: others) = .ok files') :
    others = [] ∧ (∀ y, y ≠ x → files' y = files y) ∧
      files' x = some (.file (withLabels
        ((rooflineLabels (contents host files (sourceFile db first))).map shell.inserted)
        (base ++ ",\\\n" ++ lastThree (contents host files (sourceFile db first))))) := by
  rcases others with _ | ⟨second, others⟩
  · obtain ⟨y, hy, hne, htext⟩ := hsource
    have hyShell := hfirst.trans hy
    have hcontents : contents host files (sourceFile db first) = textAt files y := by rw [contents, hy]; rfl
    obtain ⟨files'', labels, node, hok, hlabels, hfile⟩ :=
      addAdditionalLines_one hx hxShell hbase db first
    obtain rfl := Except.ok.inj (hok.symm.trans h)
    have hread : labels = rooflineLabels (textAt files y) := by
      rw [hlabels, Shell.labels, read_other hyShell hne]
      rfl
    refine ⟨rfl, fun z hz => ?_, ?_⟩
    · rw [addAdditionalLines_eq hx hbase, List.foldlM_cons, addLine_open] at h
      obtain rfl := Except.ok.inj h
      have hlabels := addLabels_other hxShell
      exact (hlabels _ _ hz).trans ((withText_of_ne _ hz _).trans (withText_of_ne _ hz _))
    · rw [hfile, hread, hcontents, threeLines_other hyShell hne htext]
  · rw [addAdditionalLines_many hx hbase] at h
    cases h

/-- A reference takes the place of the last character. -/
theorem addDatFileReference_eq_ok (hx : host.locate gnuplotFile = some x) {appName : String} {color : ℤ}
    (h : host.addDatFileReference files gnuplotFile appName color = .ok files') :
    ∃ text, files x = some (.file text) ∧ text ≠ "" ∧
      files' = withText files x (chopped text ++ continued (appName, color) ++ " ") := by
  unfold Host.addDatFileReference at h
  obtain ⟨text, hread, h⟩ := bind_eq_ok.mp h
  split_ifs at h with hempty
  · cases h
  · obtain ⟨y, hy, rfl⟩ := writeFile_eq_ok h
    obtain rfl := Option.some.inj (hx.symm.trans hy)
    refine ⟨text, (readFile_eq_ok hx).mp hread, hempty, ?_⟩
    refine congrArg (withText files x) ?_
    apply String.toList_injective
    simp [chopped, continued, clause]

/-- What an iteration of the loop leaves: its data files, and a reference behind the script. -/
theorem reportStep_files (hx : host.locate (outputDir ++ "/roofline.gnu") = some x)
    {state state' : Files D × List (Host.Plotted F)} {inDir : String} {k : ℕ}
    (h : host.reportStep outputDir state (inDir, k) = .ok state') :
    ∃ p s text, state'.2 = state.2 ++ [p] ∧ seriesOf host outputDir (inDir, p) = some s ∧
      state.1 x = some (.file text) ∧ text ≠ "" ∧ state'.1 = withText (s.writes.foldl Write.apply state.1) x
        (chopped text ++ continued (p.appName, (k : ℤ) + 1) ++ " ") := by
  have hxEnd : EndsIn 'u' x := by
    apply locate_endsIn hx
    · rw [String.toList_append, List.getLast?_append]
      rfl
    · decide
  unfold Host.reportStep at h
  obtain ⟨title, htitle, h⟩ := bind_eq_ok.mp h
  obtain ⟨points, hpoints, h⟩ := bind_eq_ok.mp h
  obtain ⟨title', htitle', h⟩ := bind_eq_ok.mp h
  obtain ⟨files₁, hcreate, h⟩ := bind_eq_ok.mp h
  obtain ⟨title₁, htitle₁, h⟩ := bind_eq_ok.mp h
  obtain ⟨files₂, hcopy, h⟩ := bind_eq_ok.mp h
  obtain ⟨title₂, htitle₂, h⟩ := bind_eq_ok.mp h
  obtain ⟨files₃, hreference, h⟩ := bind_eq_ok.mp h
  obtain rfl := Except.ok.inj h
  obtain rfl := Except.ok.inj (htitle.symm.trans htitle')
  obtain ⟨source, hsource, rfl⟩ := writeFile_eq_ok hcreate
  have hsourceEnd := locate_dat hsource
  have hxml₁ : SameXml state.1 ((Write.put source (.file (datText host.format points))).apply state.1) :=
    SameXml.apply (fun _ _ => rfl) (w := .put source _) hsourceEnd (by decide)
  rw [← hxml₁.getAppTitle] at htitle₁
  obtain rfl := Except.ok.inj (htitle.symm.trans htitle₁)
  have hwritten : (Write.put source (.file (datText host.format points))).apply state.1 source =
      some (.file (datText host.format points)) := if_pos rfl
  obtain ⟨target, htarget, rfl⟩ := copyDatFile_eq_ok hsource hwritten hcopy
  have htargetEnd := locate_dat htarget
  have hxml₂ := hxml₁.apply (w := .offer target (.file (datText host.format points))) htargetEnd (by decide)
  rw [← hxml₂.getAppTitle] at htitle₂
  obtain rfl := Except.ok.inj (htitle.symm.trans htitle₂)
  obtain ⟨text, htext, hne, hfiles⟩ := addDatFileReference_eq_ok hx hreference
  rw [Write.apply_of_ne (w := .offer target _) _ (hxEnd.ne htargetEnd (by decide)),
    Write.apply_of_ne (w := .put source _) _ (hxEnd.ne hsourceEnd (by decide))] at htext
  refine ⟨⟨title, points⟩, ⟨source, target, datText host.format points⟩, text, rfl, ?_, htext, hne, hfiles⟩
  simp only [seriesOf, hsource, htarget]
  rfl

theorem references_snoc (plotted : List (Host.Plotted F)) (p : Host.Plotted F) :
    references (plotted ++ [p]) = references plotted ++ [(p.appName, (plotted.length : ℤ) + 1)] := by
  rw [references, List.zipIdx_append, List.map_append, ← references, Nat.zero_add]
  rfl

private theorem referenced_snoc (script : String) (plotted : List (Host.Plotted F)) (p : Host.Plotted F) :
    referenced script (plotted ++ [p]) =
      chopped (referenced script plotted) ++ continued (p.appName, (plotted.length : ℤ) + 1) ++ " " := by
  rw [referenced, referenced, chopped_blank, references_snoc, List.map_append, String.join_append]
  simp [String.append_assoc, String.join_cons]

/-- The files behind some iterations of the loop. -/
structure Scripted (host : Host D F) (outputDir : String) (files : Files D) (x : Location D) (inputs : List String)
    (state : Files D × List (Host.Plotted F)) : Prop where
  text : ∀ script, files x = some (.file script) →
    state.1 x = some (.file (if state.2 = [] then script else referenced script state.2))
  others : ∀ y, y ≠ x →
    state.1 y = ((allSeries host outputDir inputs state.2).flatMap Series.writes).foldl Write.apply files y

theorem scripted_of_reportLoop (hx : host.locate (outputDir ++ "/roofline.gnu") = some x) {inputs : List String}
    {state : Files D × List (Host.Plotted F)} (h : host.reportLoop outputDir inputs files = .ok state) :
    Scripted host outputDir files x inputs state := by
  induction inputs using List.reverseRecOn generalizing state with
  | nil =>
    obtain rfl := Except.ok.inj h
    exact ⟨fun _ hscript => hscript, fun _ _ => rfl⟩
  | append_singleton inputs inDir ih =>
    rw [Host.reportLoop, List.zipIdx_append, List.foldlM_append] at h
    obtain ⟨before, hbefore, hlast⟩ := bind_eq_ok.mp h
    obtain ⟨after, hafter, hdone⟩ := bind_eq_ok.mp hlast
    obtain rfl := Except.ok.inj hdone
    rw [Nat.zero_add] at hafter
    have hlength := (progress_of_reportLoop hbefore).length
    obtain ⟨htext, hothers⟩ := ih hbefore
    obtain ⟨p, s, text, hplotted, hseries, hbeforeText, -, hfiles⟩ := reportStep_files hx hafter
    have hall : allSeries host outputDir (inputs ++ [inDir]) after.2 =
        allSeries host outputDir inputs before.2 ++ [s] := by
      rw [allSeries, hplotted, List.zip_append hlength.symm, List.filterMap_append]
      show _ ++ List.filterMap _ [(inDir, p)] = _
      rw [List.filterMap_cons, hseries]
      rfl
    constructor
    · intro script hscript
      have hbase := htext script hscript
      rw [hbeforeText] at hbase
      have hchopped : chopped text = chopped (referenced script before.2) := by
        rw [Node.file.inj (Option.some.inj hbase)]
        split_ifs with hnil
        · rw [hnil, referenced, chopped_blank]
          exact (String.append_empty).symm
        · rfl
      rw [hfiles, withText_self, hchopped, hplotted, if_neg (by simp), referenced_snoc, hlength]
    · intro y hy
      rw [hfiles, withText_of_ne _ hy, hall, List.flatMap_append, List.foldl_append, List.flatMap_singleton]
      exact Write.foldl_apply_congr s.writes (hothers y hy)

/-- All labels are added in one pass. -/
theorem addPointLabels_text {format : F → String} (hx : shell.locate (outputDir ++ "/roofline.gnu") = some x)
    (points : List (Point F)) {text : String} (htext : files x = some (.file text)) :
    points.foldl (shell.addPointLabel format outputDir) files = withText files x (String.ofList
      ((Edit.appendAll (mentions "output") (points.map fun p => (shell.inserted (p.labelText format)).toList)).run
        text.toList)) := by
  have hfiles : files = withText files x text := by
    funext y
    by_cases hy : y = x
    · rw [hy, withText_self, htext]
    · rw [withText_of_ne _ hy]
  induction points generalizing files text with
  | nil =>
    rw [List.map_nil, Edit.appendAll_nil, Edit.run_one, String.ofList_toList, ← hfiles]
    rfl
  | cons p points ih =>
    have hstep : shell.addPointLabel format outputDir files p = withText files x (String.ofList
        ((Edit.appendAfter (mentions "output") (shell.inserted (p.labelText format)).toList).run text.toList)) := by
      have hsed := sedInPlace_withText hx
        (Edit.appendAfter (mentions "output") (shell.inserted (p.labelText format)).toList).run files text.toList
      rw [String.ofList_toList, ← hfiles] at hsed
      exact hsed
    rw [List.foldl_cons, hstep, ih (withText_self _ _ _) (by rw [withText_withText]), withText_withText,
      String.toList_ofList, List.map_cons, Edit.appendAll_cons, Edit.run_mul]

theorem getAndSaveMetainfo_eq_ok {first : String} {others : List String}
    (h : host.getAndSaveMetainfo files first others outputDir = .ok files') :
    ∃ m text, host.locate (outputDir ++ "/roofline_meta.xml") = some m ∧ files' = withText files m text := by
  unfold Host.getAndSaveMetainfo at h
  obtain ⟨root, -, h⟩ := bind_eq_ok.mp h
  obtain ⟨all, -, h⟩ := bind_eq_ok.mp h
  obtain ⟨m, hm, rfl⟩ := writeFile_eq_ok h
  exact ⟨m, _, hm, rfl⟩

theorem showRooflineAscii_eq_ok
    (hshell : tool.shell.locate (outputDir ++ "/roofline_ascii.gnu") =
      tool.host.locate (outputDir ++ "/roofline_ascii.gnu"))
    {r : Files D × String} (h : tool.showRooflineAscii files outputDir = .ok r) :
    ∃ z y text d, tool.host.locate (outputDir ++ "/roofline_ascii.gnu") = some z ∧
      tool.host.locate (outputDir ++ "/roofline.gnu") = some y ∧ files y = some (.file text) ∧
      tool.host.dirOf (tool.cwd ++ "/" ++ outputDir ++ "/") = some d ∧
      r = (tool.gnuplot (withText files z (asciiScript text)) d "roofline_ascii.gnu",
        textAt (withText files z (asciiScript text)) (d, "roofline_ascii.gnu")) := by
  unfold Tool.showRooflineAscii at h
  obtain ⟨copied, hcopy, h⟩ := bind_eq_ok.mp h
  obtain ⟨z, y, text, hz, hy, -, htext, rfl⟩ := copyfile_eq_ok hcopy
  obtain ⟨d, hd, h⟩ := bind_eq_ok.mp h
  obtain ⟨root, -, h⟩ := bind_eq_ok.mp h
  obtain ⟨-, -, h⟩ := bind_eq_ok.mp h
  obtain rfl := Except.ok.inj h
  have hsed := sedInPlace_withText (hshell.trans hz)
    (Edit.change (mentions "output") "set terminal dumb".toList).run files text.toList
  rw [String.ofList_toList] at hsed
  rw [hsed]
  exact ⟨z, y, text, d, hz, hy, htext, chdir_eq_ok.mp hd, rfl⟩

/-- The stages of a report that returns. -/
structure Reported (tool : Tool D F) (files : Files D) (args : ReportArgs) (checked : CheckedArgs)
    (copied merged : Files D) (state : Files D × List (Host.Plotted F)) (saved labelled files' : Files D)
    (drawn : List String) : Prop where
  checkout : tool.host.checkoutInputArgs files args = .ok checked
  copy : tool.copyEmptyRoofline files (tool.rooflinesDb ++ checked.firstLine) checked.outputDir args.title =
    .ok copied
  merge : tool.mergeLines copied checked.outputDir checked.otherLines = .ok merged
  loop : tool.host.reportLoop checked.outputDir (checked.firstDir :: checked.otherDirs) merged = .ok state
  save : tool.host.getAndSaveMetainfo state.1 checked.firstDir checked.otherDirs checked.outputDir = .ok saved
  label : labelled = (state.2.flatMap Host.Plotted.points).foldl
    (tool.shell.addPointLabel tool.host.format checked.outputDir) saved
  draw : ∃ shown ascii d, tool.plotOnShell labelled checked.outputDir args.noShellPlot = .ok (shown, ascii) ∧
    tool.host.dirOf (tool.cwd ++ "/" ++ checked.outputDir ++ "/") = some d ∧
    files' = tool.gnuplot shown d "roofline.gnu" ∧ drawn = ascii ++ [textAt shown (d, "roofline.gnu")]

end stages

variable [DecidableEq D] {tool : Tool D F} {files files' : Files D}

section merged
variable {host : Host D F} {shell : Shell D} {db gnuplotFile : String} {x : Location D}

/-- An iteration that returns keeps the file that is appended to, and changes no other. -/
theorem addLine_frame (hx : shell.locate gnuplotFile = some x) {name : String}
    {state state' : Files D × AppendFile D} (hfile : state.2.location = x)
    (h : shell.addLine db gnuplotFile state name = .ok state') :
    state'.2.location = x ∧ ∀ y, y ≠ x → state'.1 y = state.1 y := by
  obtain ⟨files, location, buffer, closed⟩ := state
  obtain rfl : location = x := hfile
  cases closed with
  | true =>
    rw [addLine_closed rfl] at h
    cases h
  | false =>
    rw [addLine_open] at h
    obtain rfl := Except.ok.inj h
    refine ⟨rfl, fun y hy => ?_⟩
    exact (addLabels_other hx _ _ hy).trans (withText_of_ne _ hy _)

private theorem addLines_frame (hx : shell.locate gnuplotFile = some x) {names : List String}
    {state state' : Files D × AppendFile D} (hfile : state.2.location = x)
    (h : names.foldlM (shell.addLine db gnuplotFile) state = .ok state') : ∀ y, y ≠ x → state'.1 y = state.1 y := by
  induction names generalizing state with
  | nil =>
    obtain rfl := Except.ok.inj h
    exact fun _ _ => rfl
  | cons name names ih =>
    rw [List.foldlM_cons] at h
    obtain ⟨mid, hstep, h⟩ := bind_eq_ok.mp h
    obtain ⟨hmid, hframe⟩ := addLine_frame hx hfile hstep
    exact fun y hy => (ih hmid h y hy).trans (hframe y hy)

private theorem addAdditionalLines_frame (hx : host.locate gnuplotFile = some x)
    (hxShell : shell.locate gnuplotFile = some x)
    {names : List String} (h : host.addAdditionalLines shell db files gnuplotFile names = .ok files') :
    ∀ y, y ≠ x → files' y = files y := by
  unfold Host.addAdditionalLines at h
  obtain ⟨text, hread, h⟩ := bind_eq_ok.mp h
  split_ifs at h with hempty
  · cases h
  · obtain ⟨started, hwrite, h⟩ := bind_eq_ok.mp h
    obtain ⟨f, hopen, h⟩ := bind_eq_ok.mp h
    obtain ⟨state', hlines, h⟩ := bind_eq_ok.mp h
    obtain rfl := Except.ok.inj h
    obtain ⟨x', hx', rfl⟩ := writeFile_eq_ok hwrite
    obtain rfl := Option.some.inj (hx.symm.trans hx')
    have hfile : f.location = x := by
      rw [Host.openAppend, hx] at hopen
      simp only at hopen
      split_ifs at hopen
      obtain rfl := Except.ok.inj hopen
      rfl
    intro y hy
    exact (addLines_frame hxShell hfile hlines y hy).trans (withText_of_ne _ hy _)

end merged

section mergedScript
variable {x : Location D} {outputDir : String}

/-- The merged script, if the other roofline has a file of its own. -/
theorem mergeLines_eq_ok (hx : tool.host.locate (outputDir ++ "/roofline.gnu") = some x)
    (hxShell : tool.shell.locate (outputDir ++ "/roofline.gnu") = some x) {title : Option String} {base : String}
    {others : List String} (hlines : ∀ name ∈ others,
      tool.shell.locate (sourceFile tool.rooflinesDb name) = tool.host.locate (sourceFile tool.rooflinesDb name))
    (hothers : ∀ name ∈ others, tool.host.locate (sourceFile tool.rooflinesDb name) ≠ some x ∧
      RooflineText (contents tool.host files (sourceFile tool.rooflinesDb name)))
    (h : tool.mergeLines (withText files x (styledText tool title (base ++ "\n"))) outputDir others = .ok files') :
    (∀ y, y ≠ x → files' y = files y) ∧
      files' x = some (.file (preparedScript tool title (base ++ "\n")
        (others.map fun name => contents tool.host files (sourceFile tool.rooflinesDb name)))) := by
  unfold Tool.mergeLines at h
  split_ifs at h with hnil
  · obtain rfl := Except.ok.inj h
    subst hnil
    exact ⟨fun y hy => withText_of_ne _ hy _, withText_self _ _ _⟩
  · obtain ⟨first, rest, rfl⟩ := List.exists_cons_of_ne_nil hnil
    obtain ⟨hfirst, htext⟩ := hothers first List.mem_cons_self
    obtain ⟨y, hy, hroofline⟩ := htext.locate
    have hne : y ≠ x := fun hsame => hfirst (hsame ▸ hy)
    have hkept : contents tool.host (withText files x (styledText tool title (base ++ "\n")))
        (sourceFile tool.rooflinesDb first) = contents tool.host files (sourceFile tool.rooflinesDb first) := by
      rw [contents, contents, hy, Option.elim_some, Option.elim_some, textAt, withText_of_ne _ hne, ← textAt]
    rcases styledText_ended tool title base with hempty | ⟨base', hbase'⟩
    · unfold Host.addAdditionalLines at h
      obtain ⟨text, hread, h⟩ := bind_eq_ok.mp h
      rw [readFile_eq_ok hx, withText_self, hempty] at hread
      obtain rfl := Node.file.inj (Option.some.inj hread)
      cases h
    · have hsource : ∃ y, tool.host.locate (sourceFile tool.rooflinesDb first) = some y ∧ y ≠ x ∧
          RooflineText (textAt (withText files x (styledText tool title (base ++ "\n"))) y) := by
        refine ⟨y, hy, hne, ?_⟩
        rw [textAt, withText_of_ne _ hne, ← textAt]
        exact hroofline
      obtain ⟨rfl, hother, hfile⟩ :=
        addAdditionalLines_eq_ok hx hxShell ((withText_self _ _ _).trans (by rw [hbase']))
          (hlines first List.mem_cons_self) hsource h
      rw [hkept] at hfile
      refine ⟨fun z hz => (hother z hz).trans (withText_of_ne _ hz _), ?_⟩
      rw [hfile, preparedScript, List.map_singleton, List.foldl_cons, List.foldl_nil, hbase', chopped_ended,
        mergedScript]

end mergedScript

section frames
variable {host : Host D F} {shell : Shell D} {outputDir path : String} {x : Location D}

theorem mergeLines_frame (hx : tool.host.locate (outputDir ++ "/roofline.gnu") = some x)
    (hxShell : tool.shell.locate (outputDir ++ "/roofline.gnu") = some x) {others : List String}
    (h : tool.mergeLines files outputDir others = .ok files') : ∀ y, y ≠ x → files' y = files y := by
  unfold Tool.mergeLines at h
  split_ifs at h
  · obtain rfl := Except.ok.inj h
    exact fun _ _ => rfl
  · exact addAdditionalLines_frame hx hxShell h

private theorem sedInPlace_frame (hx : shell.locate path = some x) (edit : List Char → List Char) (files : Files D) :
    ∀ y, y ≠ x → shell.sedInPlace edit path files y = files y := by
  intro y hy
  rw [Shell.sedInPlace, hx]
  simp only
  cases files x with
  | none => rfl
  | some node =>
    cases node with
    | directory => rfl
    | file text => exact withText_of_ne files hy _

theorem addPointLabels_frame {format : F → String} (hx : shell.locate (outputDir ++ "/roofline.gnu") = some x)
    (points : List (Point F)) (files : Files D) :
    ∀ y, y ≠ x → points.foldl (shell.addPointLabel format outputDir) files y = files y := by
  intro y hy
  induction points generalizing files with
  | nil => rfl
  | cons p points ih => exact (ih _).trans (sedInPlace_frame hx _ files y hy)

theorem plotOnShell_frame {title : Option String} {checked : CheckedArgs} {scripts : List String}
    (hcond : Surroundings tool title checked scripts)
    {noShellPlot : Bool} {ascii : List String} (hdrawn : ∀ script ∈ ascii, script ∈ scripts)
    (h : tool.plotOnShell files checked.outputDir noShellPlot = .ok (files', ascii)) :
    ∀ y, tool.host.locate (checked.outputDir ++ "/roofline_ascii.gnu") ≠ some y →
      tool.host.locate (plotPath tool checked.outputDir) ≠ some y → files' y = files y := by
  unfold Tool.plotOnShell at h
  split_ifs at h
  · obtain ⟨rfl, -⟩ := Prod.mk.inj (Except.ok.inj h)
    exact fun _ _ _ => rfl
  · cases hr : tool.showRooflineAscii files checked.outputDir with
    | error e =>
      rw [hr] at h
      cases h
    | ok r =>
      rw [hr] at h
      obtain ⟨rfl, rfl⟩ := Prod.mk.inj (Except.ok.inj h)
      obtain ⟨z, y, text, d, hz, -, -, hd, rfl⟩ := showRooflineAscii_eq_ok hcond.terminal hr
      intro w hw hplot
      refine (hcond.gnuplot _ d _ (hdrawn _ List.mem_cons_self) w (ne_plot hd hplot)).trans (withText_of_ne _ ?_ _)
      rintro rfl
      exact hw hz

end frames

end Roofline.Correctness
