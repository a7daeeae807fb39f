import Roofline.Correctness.ReportedScript

/-! The files behind a report: what it writes, and what it does to the next report. -/
namespace Roofline.Correctness
open Library Report
variable {D F : Type}

section names
variable {host : Host D F} {files files' : Files D} {dir name path outputDir : String}

/-- The locations that a report writes. -/
def ReportWrites (tool : Tool D F) (checked : CheckedArgs) (plotted : List (Host.Plotted F))
    (y : Location D) : Prop :=
  tool.host.locate (checked.outputDir ++ "/roofline.gnu") = some y ∨
    tool.host.locate (checked.outputDir ++ "/roofline_meta.xml") = some y ∨
    tool.host.locate (checked.outputDir ++ "/roofline_ascii.gnu") = some y ∨
    tool.host.locate (plotPath tool checked.outputDir) = some y ∨
    ∃ s ∈ allSeries tool.host checked.outputDir (checked.firstDir :: checked.otherDirs) plotted,
      y = s.source ∨ y = s.target

end names

variable [DecidableEq D] {tool : Tool D F} {files files' : Files D} {args : ReportArgs}

section stages
variable {checked : CheckedArgs} {copied merged saved labelled : Files D} {state : Files D × List (Host.Plotted F)}
  {drawn : List String}

/-- What a report has read is as it was before. -/
theorem Reported.sameXml (h : Reported tool files args checked copied merged state saved labelled files' drawn)
    (hcond : Surroundings tool args.title checked drawn) : SameXml files merged := by
  obtain ⟨x, -, text, hx, -, -, -, hcopied⟩ := copyEmptyRoofline_eq_ok hcond.script hcond.title h.copy
  intro z hz
  have hzx := hz.ne (endsIn_script hx) (by decide)
  rw [mergeLines_frame hx (hcond.script.trans hx) h.merge z hzx, hcopied, withText_of_ne _ hzx]

theorem Reported.planned (h : Reported tool files args checked copied merged state saved labelled files' drawn)
    (hcond : Surroundings tool args.title checked drawn) :
    planned tool.host files (checked.firstDir :: checked.otherDirs) = .ok state.2 := by
  rw [(h.sameXml hcond).planned]
  exact (progress_of_reportLoop h.loop).plan

/-- Any file but the two scripts, the metainformation and the plot is behind the writes of the loop. -/
theorem Reported.data (h : Reported tool files args checked copied merged state saved labelled files' drawn)
    (hcond : Surroundings tool args.title checked drawn) {y : Location D}
    (hscript : tool.host.locate (checked.outputDir ++ "/roofline.gnu") ≠ some y)
    (hmeta : tool.host.locate (checked.outputDir ++ "/roofline_meta.xml") ≠ some y)
    (hterminal : tool.host.locate (checked.outputDir ++ "/roofline_ascii.gnu") ≠ some y)
    (hplotted : tool.host.locate (plotPath tool checked.outputDir) ≠ some y) :
    files' y = ((allSeries tool.host checked.outputDir (checked.firstDir :: checked.otherDirs)
      state.2).flatMap Series.writes).foldl Write.apply files y := by
  obtain ⟨x, -, text, hx, -, -, -, hcopied⟩ := copyEmptyRoofline_eq_ok hcond.script hcond.title h.copy
  obtain ⟨m, metaText, hm, hsaved⟩ := getAndSaveMetainfo_eq_ok h.save
  obtain ⟨shown, ascii, d, hplot, hd, hfiles, hdrawn⟩ := h.draw
  have hxShell := hcond.script.trans hx
  have hyx : y ≠ x := fun h => hscript (h ▸ hx)
  have hym : y ≠ m := fun h => hmeta (h ▸ hm)
  have hmerged : merged y = files y :=
    (mergeLines_frame hx hxShell h.merge y hyx).trans (by rw [hcopied, withText_of_ne _ hyx])
  calc files' y = shown y := by
        rw [hfiles]
        exact hcond.gnuplot _ d _ (hdrawn ▸ List.mem_append_right _ List.mem_cons_self) y (ne_plot hd hplotted)
    _ = labelled y := by
        refine plotOnShell_frame hcond (fun script hscript => ?_) hplot y hterminal hplotted
        exact hdrawn ▸ List.mem_append_left _ hscript
    _ = saved y := by
      rw [h.label]
      exact addPointLabels_frame hxShell _ _ y hyx
    _ = state.1 y := by rw [hsaved, withText_of_ne _ hym]
    _ = _ := (scripted_of_reportLoop hx h.loop).others y hyx
    _ = _ := Write.foldl_apply_congr _ hmerged

theorem Reported.frame (h : Reported tool files args checked copied merged state saved labelled files' drawn)
    (hcond : Surroundings tool args.title checked drawn) {y : Location D}
    (hy : ¬ ReportWrites tool checked state.2 y) : files' y = files y := by
  simp only [ReportWrites, not_or, not_exists, not_and] at hy
  obtain ⟨hscript, hmeta, hterminal, hplotted, hdata⟩ := hy
  rw [h.data hcond hscript hmeta hterminal hplotted]
  apply Write.foldl_apply_of_ne
  intro w hw
  obtain ⟨s, hs, hw⟩ := List.mem_flatMap.mp hw
  simp only [Series.writes, List.mem_cons, List.not_mem_nil, or_false] at hw
  rcases hw with rfl | rfl
  · exact (hdata s hs).1
  · exact (hdata s hs).2

end stages

end Roofline.Correctness
