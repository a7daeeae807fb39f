import Roofline.Correctness.ReportStages

/-! When report returns. Each stage needs files that can be written, and a script to go on with. -/
namespace Roofline.Correctness
open Library Report
variable {D F : Type}

section reading
variable {host : Host D F} {files files' : Files D} {inputs : List String} {plotted : List (Host.Plotted F)}

theorem metaPath_last (dir : String) : (metaPath dir).toList.getLast? = some 'l' := by
  rw [metaPath, String.toList_append, List.getLast?_append]
  rfl

theorem SameXml.parseFile (h : SameXml files files') (dir : String) :
    host.parseFile files (metaPath dir) = host.parseFile files' (metaPath dir) := by
  rw [Host.parseFile, Host.parseFile, h.readFile (metaPath_last dir)]

/-- The plan of one more directory. -/
theorem planned_snoc (inputs : List String) (inDir : String) :
    planned host files (inputs ++ [inDir]) = (do
      let ps ← planned host files inputs
      let appName ← host.getAppTitle files inDir
      let points ← host.getPoints files inDir (inputs.length + 1) appName
      return ps ++ [⟨appName, points⟩]) := by
  simp [planned, List.zipIdx_append, List.mapM_append]

theorem planned_snoc_eq_ok {inDir : String} (h : planned host files (inputs ++ [inDir]) = .ok plotted) :
    ∃ ps p, plotted = ps ++ [p] ∧ planned host files inputs = .ok ps ∧
      host.getAppTitle files inDir = .ok p.appName ∧
      host.getPoints files inDir (inputs.length + 1) p.appName = .ok p.points := by
  rw [planned_snoc] at h
  obtain ⟨ps, hps, h⟩ := bind_eq_ok.mp h
  obtain ⟨title, htitle, h⟩ := bind_eq_ok.mp h
  obtain ⟨points, hpoints, h⟩ := bind_eq_ok.mp h
  obtain rfl := Except.ok.inj h
  exact ⟨ps, ⟨title, points⟩, rfl, hps, htitle, hpoints⟩

theorem writes_file (series : List (Series D)) : ∀ w ∈ series.flatMap Series.writes, w.value ≠ Node.directory := by
  intro w hw
  obtain ⟨s, -, hw⟩ := List.mem_flatMap.mp hw
  simp only [Series.writes, List.mem_cons, List.not_mem_nil, or_false] at hw
  rcases hw with rfl | rfl <;> exact Node.noConfusion

end reading

section drawn
variable {tool : Tool D F} {title : Option String} {checked : CheckedArgs} {scripts : List String}
  {files files' : Files D}
  {outputDir : String} {y : Location D}

/-- Files that differ in the plot at most. -/
def SameButPlot (tool : Tool D F) (outputDir : String) (files files' : Files D) : Prop :=
  ∀ y, tool.host.locate (plotPath tool outputDir) ≠ some y → files' y = files y

theorem SameButPlot.endsIn (h : SameButPlot tool outputDir files files') {c : Char} (hc : c ≠ 's')
    (hy : EndsIn c y) : files' y = files y := by
  apply h
  intro hplot
  exact hy.ne (endsIn_plot hplot) hc rfl

theorem SameButPlot.sameXml (h : SameButPlot tool outputDir files files') : SameXml files files' :=
  fun _ hy => (h.endsIn (by decide) hy).symm

end drawn

variable [DecidableEq D] {tool : Tool D F} {host : Host D F} {files files' : Files D} {x y : Location D}
  {outputDir : String}

section writing
variable {path text : String}

theorem writeFile_ok (hx : host.locate path = some x) (hnode : files x ≠ some .directory) (text : String) :
    host.writeFile files path text = .ok (withText files x text) := by
  rw [Host.writeFile, hx]
  exact if_neg hnode

end writing

section loop
variable {inputs : List String} {plotted : List (Host.Plotted F)}

end loop

section drawing
variable {title : Option String} {checked : CheckedArgs} {scripts : List String} {z : Location D} {d : D}
  {text : String} {runs : List SavedRun}

end drawing

section stages
variable {args : ReportArgs} {checked : CheckedArgs} {copied merged saved labelled : Files D}
  {state : Files D × List (Host.Plotted F)} {drawn : List String}

end stages

end Roofline.Correctness
