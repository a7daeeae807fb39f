import Roofline.Correctness.ReportReturns

/-! The script behind report as a function of what report reads: the roofline, styled and perhaps
merged with another one, a reference for each input directory, and the labels of all points. -/
namespace Roofline.Correctness
open Client Library Report
variable {D F : Type}

def labelledScript (tool : Tool D F) (script : String) (plotted : List (Host.Plotted F)) : String :=
  String.ofList
    ((Edit.appendAll (mentions "output") (labelLines tool plotted)).run (referenced script plotted).toList)

section stages
variable [DecidableEq D] {tool : Tool D F} {files files' : Files D} {x : Location D} {outputDir : String}

/-- The script of a report as a function of what it reads. -/
def reportedScript (tool : Tool D F) (files : Files D) (args : ReportArgs) (checked : CheckedArgs) (roofline : String)
    (plotted : List (Host.Plotted F)) : String :=
  labelledScript tool (preparedScript tool args.title roofline (checked.otherLines.map fun name =>
    contents tool.host files (sourceFile tool.rooflinesDb name))) plotted

/-- The plot on the terminal leaves the script as it is, and draws it with another output. -/
private theorem plotOnShell_script {title : Option String} {checked : CheckedArgs} {ascii scripts : List String} {d : D}
    {script : String} {noShellPlot : Bool} (hcond : Surroundings tool title checked (ascii ++ scripts))
    (hx : tool.host.locate (checked.outputDir ++ "/roofline.gnu") = some (d, "roofline.gnu"))
    (hd : tool.host.dirOf (tool.cwd ++ "/" ++ checked.outputDir ++ "/") = some d)
    (hcwd : tool.host.dirOf (tool.cwd ++ "/" ++ checked.outputDir ++ "/") =
      tool.host.dirOf (checked.outputDir ++ "/"))
    (htext : files (d, "roofline.gnu") = some (.file script))
    (h : tool.plotOnShell files checked.outputDir noShellPlot = .ok (files', ascii)) :
    files' (d, "roofline.gnu") = some (.file script) ∧ ascii = if noShellPlot then [] else [asciiScript script] := by
  unfold Tool.plotOnShell at h
  split_ifs at h with hshow
  · obtain ⟨rfl, rfl⟩ := Prod.mk.inj (Except.ok.inj h)
    rw [if_pos hshow]
    exact ⟨htext, rfl⟩
  · obtain ⟨r, hr, hpair⟩ : ∃ r, tool.showRooflineAscii files checked.outputDir = .ok r ∧
        (r.1, [r.2]) = (files', ascii) := by
      cases hr : tool.showRooflineAscii files checked.outputDir with
      | error e =>
        rw [hr] at h
        cases h
      | ok r =>
        rw [hr] at h
        exact ⟨r, rfl, Except.ok.inj h⟩
    obtain ⟨z, x', text, d', hz, hx', htext', hd', rfl⟩ := showRooflineAscii_eq_ok hcond.terminal hr
    obtain rfl := Option.some.inj (hd.symm.trans hd')
    obtain rfl := Option.some.inj (hx.symm.trans hx')
    obtain rfl := Node.file.inj (Option.some.inj (htext.symm.trans htext'))
    obtain ⟨rfl, rfl⟩ := Prod.mk.inj hpair
    have hzFile : tool.host.locate (checked.outputDir ++ "/" ++ "roofline_ascii.gnu") = _ :=
      locate_file checked.outputDir (by decide)
    rw [String.append_assoc, ← hcwd, hd] at hzFile
    have hzName : z = (d, "roofline_ascii.gnu") := (Option.some.inj (hzFile.symm.trans hz)).symm
    subst hzName
    have hother : ((d, "roofline.gnu") : Location D) ≠ (d, "roofline_ascii.gnu") := by simp
    have hplot : ((d, "roofline.gnu") : Location D) ≠ (d, "roofline.ps") := by simp
    have hascii := hcond.gnuplot _ _ _ (List.mem_append_left _ List.mem_cons_self) _ hplot
    simp only [hascii, withText_of_ne _ hother, htext, textAt, withText_self, if_neg hshow]
    exact ⟨trivial, trivial⟩

/-- What the stages of a report leave in the script. -/
theorem Reported.script {args : ReportArgs} {checked : CheckedArgs} {copied merged saved labelled : Files D}
    {state : Files D × List (Host.Plotted F)} {drawn : List String}
    (h : Reported tool files args checked copied merged state saved labelled files' drawn)
    (hcond : Surroundings tool args.title checked drawn) {base : String}
    (hroofline : tool.host.readFile files (sourceFile tool.rooflinesDb checked.firstLine) = .ok (base ++ "\n"))
    (hothers : ∀ name ∈ checked.otherLines,
      tool.host.locate (sourceFile tool.rooflinesDb name) ≠
        tool.host.locate (checked.outputDir ++ "/roofline.gnu") ∧
      RooflineText (contents tool.host files (sourceFile tool.rooflinesDb name)))
    (hcwd : tool.host.dirOf (tool.cwd ++ "/" ++ checked.outputDir ++ "/") =
      tool.host.dirOf (checked.outputDir ++ "/")) :
    planned tool.host files (checked.firstDir :: checked.otherDirs) = .ok state.2 ∧
      tool.host.readFile files' (checked.outputDir ++ "/roofline.gnu") =
        .ok (reportedScript tool files args checked (base ++ "\n") state.2) ∧
      drawn = (if args.noShellPlot then []
          else [asciiScript (reportedScript tool files args checked (base ++ "\n") state.2)]) ++
        [reportedScript tool files args checked (base ++ "\n") state.2] := by
  obtain ⟨-, hcopy, hmerge, hloop, hsave, hlabel, shown, ascii, d, hplot, hd, rfl, rfl⟩ := h
  obtain ⟨x, y, text, hx, hy, hne, htext, rfl⟩ := copyEmptyRoofline_eq_ok hcond.script hcond.title hcopy
  have hread := (readFile_eq_ok hy).mp hroofline
  obtain rfl := Node.file.inj (Option.some.inj (htext.symm.trans hread))
  obtain ⟨d', hd', rfl⟩ := locate_script hx
  obtain rfl := Option.some.inj (hd.symm.trans (hcwd.trans hd'))
  rw [hx] at hothers
  have hxShell := hcond.script.trans hx
  obtain ⟨hmergedOther, hmergedScript⟩ := mergeLines_eq_ok hx hxShell hcond.lines hothers hmerge
  have hxEnd : EndsIn 'u' (d, "roofline.gnu") := by
    show "roofline.gnu".toList.getLast? = some 'u'
    decide
  have hxml : SameXml files merged := fun z hz => (hmergedOther z (hz.ne hxEnd (by decide))).symm
  have hplan := (progress_of_reportLoop hloop).plan
  have hlength := (progress_of_reportLoop hloop).length
  have hlooped := (scripted_of_reportLoop hx hloop).text _ hmergedScript
  rw [← hxml.planned] at hplan
  rw [if_neg (by rintro hnil; rw [hnil] at hlength; cases hlength)] at hlooped
  obtain ⟨m, metaText, hm, rfl⟩ := getAndSaveMetainfo_eq_ok hsave
  have hmEnd : EndsIn 'l' m := by
    apply locate_endsIn hm
    · rw [String.toList_append, List.getLast?_append]
      rfl
    · decide
  rw [← withText_of_ne state.1 (hxEnd.ne hmEnd (by decide)) metaText] at hlooped
  rw [addPointLabels_text hxShell _ hlooped] at hlabel
  obtain ⟨script, hscript⟩ : ∃ script, script = reportedScript tool files args checked (base ++ "\n") state.2 :=
    ⟨_, rfl⟩
  have hlabelled : labelled (d, "roofline.gnu") = some (.file script) := by
    rw [hlabel, withText_self, hscript, reportedScript, labelledScript, labelLines]
  have hplot' : ((d, "roofline.gnu") : Location D) ≠ (d, "roofline.ps") := by simp
  obtain ⟨hshown, rfl⟩ := plotOnShell_script hcond hx hd hcwd hlabelled hplot
  rw [← hscript]
  refine ⟨hplan, ?_⟩
  rw [readFile_eq_ok hx, hcond.gnuplot _ _ _ (List.mem_append_right _ List.mem_cons_self) _ hplot', textAt, hshown]
  exact ⟨rfl, rfl⟩

end stages

end Roofline.Correctness
