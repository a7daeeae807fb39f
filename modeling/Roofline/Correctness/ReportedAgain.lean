import Roofline.Correctness.ReportedFiles

/-! A report that is run again. Each stage finds what it has written before, so the second run leaves
all files but the plot as they are. -/
namespace Roofline.Correctness
open Library Report
open Library.Xml (writeTree)
variable {D F : Type}

section reading
variable {host : Host D F} {files files' : Files D} {args : ReportArgs} {path : String}
  {inputs : List String} {plotted : List (Host.Plotted F)}

end reading

variable [DecidableEq D] {tool : Tool D F} {host : Host D F} {files files' again : Files D} {x y : Location D}
  {outputDir : String}

section gathering
variable {first : String × SavedRun} {others : List (String × SavedRun)}

end gathering

section drawing

variable {title : Option String} {checked : CheckedArgs} {scripts : List String}

end drawing

section stages
variable {args : ReportArgs} {checked : CheckedArgs} {copied merged saved labelled : Files D}
  {state : Files D × List (Host.Plotted F)} {drawn : List String}

/-- The plot of the report is there, and the data files of its directories. -/
theorem Reported.held (h : Reported tool files args checked copied merged state saved labelled files' drawn)
    (hcond : Surroundings tool args.title checked drawn) :
    (∀ y, EndsIn 't' y → files' y = ((allSeries tool.host checked.outputDir (checked.firstDir :: checked.otherDirs)
        state.2).flatMap Series.writes).foldl Write.apply files y) ∧
      ∀ p ∈ (checked.firstDir :: checked.otherDirs).zip state.2, ∃ s,
        seriesOf tool.host checked.outputDir p = some s ∧ files' s.source ≠ some .directory := by
  have hdata : ∀ y, EndsIn 't' y → files' y = ((allSeries tool.host checked.outputDir
      (checked.firstDir :: checked.otherDirs) state.2).flatMap Series.writes).foldl Write.apply files y := by
    intro y hy
    apply h.data hcond
    · exact fun hx => hy.ne (endsIn_script hx) (by decide) rfl
    · exact fun hm => hy.ne (locate_endsIn hm (metaPath_last _) (by decide)) (by decide) rfl
    · exact fun hz => hy.ne (endsIn_terminal hz) (by decide) rfl
    · exact fun hplot => hy.ne (endsIn_plot hplot) (by decide) rfl
  refine ⟨hdata, fun p hp => ?_⟩
  obtain ⟨s, hs⟩ := Option.isSome_iff_exists.mp ((progress_of_reportLoop h.loop).located p hp)
  obtain ⟨hsourceEnd, htargetEnd⟩ := seriesOf_dat hs
  have hmem : s ∈ allSeries tool.host checked.outputDir (checked.firstDir :: checked.otherDirs) state.2 :=
    List.mem_filterMap.mpr ⟨p, hp, hs⟩
  have hwrites : ∀ w ∈ s.writes, w ∈ (allSeries tool.host checked.outputDir (checked.firstDir :: checked.otherDirs)
      state.2).flatMap Series.writes := fun w hw => List.mem_flatMap.mpr ⟨s, hmem, hw⟩
  obtain ⟨v, hv, hfile⟩ := Write.holds_of_put (P := (· ≠ .directory)) (writes_file _)
    (hwrites _ List.mem_cons_self) files
  refine ⟨s, hs, ?_⟩
  rw [hdata _ hsourceEnd, hv, ne_eq, Option.some_inj]
  exact hfile

/-- A roofline of another directory is not written. -/
theorem Reported.roofline (h : Reported tool files args checked copied merged state saved labelled files' drawn)
    (hcond : Surroundings tool args.title checked drawn) {name : String}
    (hy : tool.host.locate (sourceFile tool.rooflinesDb name) = some y)
    (hne : tool.host.locate (checked.outputDir ++ "/roofline.gnu") ≠ some y) : files' y = files y := by
  obtain ⟨d, -, rfl⟩ := locate_script hy
  apply h.frame hcond
  rintro (hx | hm | hz | hplot | ⟨s, hs, hdat⟩)
  · exact hne hx
  · exact (endsIn_script hy).ne (locate_endsIn hm (metaPath_last _) (by decide)) (by decide) rfl
  · have hpath : "/roofline_ascii.gnu" = "/" ++ "roofline_ascii.gnu" := rfl
    exact not_located hpath (by decide) (by decide) d hz
  · exact (endsIn_script hy).ne (endsIn_plot hplot) (by decide) rfl
  · obtain ⟨hsource, htarget⟩ := allSeries_dat hs
    rcases hdat with hdat | hdat
    · exact (endsIn_script hy).ne hsource (by decide) hdat
    · exact (endsIn_script hy).ne htarget (by decide) hdat

end stages

end Roofline.Correctness
