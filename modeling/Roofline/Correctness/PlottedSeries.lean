import Roofline.Report.DatFiles
import Roofline.Correctness.JoinedRuns

/-! What the data files of a report hold in the end. A data file is named after the title of
its application; the copy in the output directory is made only if there is no such file yet. -/
namespace Roofline.Correctness
open Library Report
variable {D F : Type}

/-- The data file of an input directory, the one that its reference names, and the text of its points. -/
structure Series (D : Type) where
  source : Location D
  target : Location D
  text : String

/-- The series that an iteration of the loop plots. -/
def seriesOf (host : Host D F) (outputDir : String) (p : String × Host.Plotted F) : Option (Series D) := do
  let source ← host.locate (p.1 ++ "/" ++ p.2.appName ++ ".dat")
  let target ← host.locate (outputDir ++ "/" ++ p.2.appName ++ ".dat")
  return ⟨source, target, datText host.format p.2.points⟩

def allSeries (host : Host D F) (outputDir : String) (inputs : List String) (plotted : List (Host.Plotted F)) :
    List (Series D) :=
  (inputs.zip plotted).filterMap (seriesOf host outputDir)

/-- What the input directories hold before the loop. -/
def planned (host : Host D F) (files : Files D) (inputs : List String) :
    Except ReportError (List (Host.Plotted F)) :=
  inputs.zipIdx.mapM fun p => do
    let appName ← host.getAppTitle files p.1
    let points ← host.getPoints files p.1 (p.2 + 1) appName
    return ⟨appName, points⟩

/-- The data file that reference number i names shows the points of input directory number i. -/
def SeriesShown (host : Host D F) (outputDir : String) (files : Files D) (plotted : List (Host.Plotted F)) : Prop :=
  ∀ (i : ℕ) (p : Host.Plotted F), plotted[i]? = some p →
    host.readFile files (outputDir ++ "/" ++ p.appName ++ ".dat") = .ok (datText host.format p.points)

/-- The file that survives at a location: the last one that is created there for an input
directory, else the one that has been there before, else the first one that is copied there. -/
def survivor [DecidableEq D] (files : Files D) (series : List (Series D)) (x : Location D) : Option Node :=
  (((series.reverse.find? fun s => s.source = x).map fun s => .file s.text).or (files x)).or
    ((series.find? fun s => s.target = x).map fun s => .file s.text)

section paths
variable {host : Host D F} {path : String} {x : Location D}

/-- The name at a location ends with the given character. -/
def EndsIn (c : Char) (x : Location D) : Prop := x.2.toList.getLast? = some c

theorem locate_endsIn {c : Char} (h : host.locate path = some x) (hlast : path.toList.getLast? = some c)
    (hc : c ≠ '/') : EndsIn c x := by
  obtain ⟨d, -, rfl⟩ := Option.map_eq_some_iff.mp h
  rw [← List.head?_reverse] at hlast
  obtain ⟨rest, hrest⟩ := List.head?_eq_some_iff.mp hlast
  simp [EndsIn, splitPath, hrest, hc]

theorem locate_dat {dir name : String} (h : host.locate (dir ++ "/" ++ name ++ ".dat") = some x) :
    EndsIn 't' x := by
  apply locate_endsIn h
  · rw [String.toList_append, List.getLast?_append]
    rfl
  · decide

theorem EndsIn.ne {c c' : Char} {y : Location D} (hx : EndsIn c x) (hy : EndsIn c' y) (h : c ≠ c') : x ≠ y := by
  rintro rfl
  exact h (Option.some.inj (hx.symm.trans hy))

end paths

section files
variable {host : Host D F} {files files' : Files D} {path text : String}

theorem readFile_eq_ok {x : Location D} (hx : host.locate path = some x) :
    host.readFile files path = .ok text ↔ files x = some (.file text) := by
  rw [Host.readFile, hx, Option.bind_some]
  cases files x with
  | none => simp
  | some node => cases node <;> simp

/-- Two states of the file system with the same XML files. -/
def SameXml (files files' : Files D) : Prop := ∀ x : Location D, EndsIn 'l' x → files x = files' x

theorem SameXml.readFile (h : SameXml files files') (hpath : path.toList.getLast? = some 'l') :
    host.readFile files path = host.readFile files' path := by
  rw [Host.readFile, Host.readFile]
  cases hx : host.locate path with
  | none => rfl
  | some x => rw [Option.bind_some, Option.bind_some, h x (locate_endsIn hx hpath (by decide))]

/-- The title of a directory depends on XML files only, and so do its points. -/
theorem SameXml.getAppTitle (h : SameXml files files') (inDir : String) :
    host.getAppTitle files inDir = host.getAppTitle files' inDir := by
  have hmeta : (inDir ++ "/roofline_meta.xml").toList.getLast? = some 'l' := by
    simp [String.toList_append, List.getLast?_append]
  rw [Host.getAppTitle, Host.parseFile, h.readFile hmeta]
  rfl

theorem SameXml.getPoints (h : SameXml files files') (inDir : String) (colourN : ℤ) (name : String) :
    host.getPoints files inDir colourN name = host.getPoints files' inDir colourN name := by
  have hroofline : (inDir ++ "/roofline.xml").toList.getLast? = some 'l' := by
    simp [String.toList_append, List.getLast?_append]
  have htime : (inDir ++ "/roofline_time.xml").toList.getLast? = some 'l' := by
    simp [String.toList_append, List.getLast?_append]
  rw [Host.getPoints, h.readFile hroofline, h.readFile htime]
  rfl

variable [DecidableEq D]

theorem SameXml.apply (h : SameXml files files') {w : Write (Location D) Node} {c : Char}
    (hw : EndsIn c w.key) (hc : c ≠ 'l') : SameXml files (w.apply files') := by
  intro x hx
  rw [Write.apply_of_ne files' (hx.ne hw hc.symm)]
  exact h x hx

theorem writeFile_eq_ok (h : host.writeFile files path text = .ok files') :
    ∃ x, host.locate path = some x ∧ files' = (Write.put x (.file text)).apply files := by
  unfold Host.writeFile at h
  cases hx : host.locate path with
  | none => simp [hx] at h
  | some x =>
    simp only [hx] at h
    split_ifs at h
    exact ⟨x, rfl, (Except.ok.inj h).symm⟩

/-- Copying a data file offers its text to the output directory. -/
theorem copyDatFile_eq_ok {inputDir name outputDir : String} {source : Location D}
    (hsource : host.locate (inputDir ++ "/" ++ name ++ ".dat") = some source)
    (htext : files source = some (.file text)) (h : host.copyDatFile files inputDir name outputDir = .ok files') :
    ∃ target, host.locate (outputDir ++ "/" ++ name ++ ".dat") = some target ∧
      files' = (Write.offer target (.file text)).apply files := by
  unfold Host.copyDatFile at h
  cases htarget : host.locate (outputDir ++ "/" ++ name ++ ".dat") with
  | none =>
    rw [if_pos (by simp [Host.pathExists, htarget])] at h
    obtain ⟨copied, -, hwrite⟩ := bind_eq_ok.mp h
    obtain ⟨target, hlocated, -⟩ := writeFile_eq_ok hwrite
    rw [htarget] at hlocated
    cases hlocated
  | some target =>
    refine ⟨target, rfl, ?_⟩
    cases hnode : files target with
    | none =>
      rw [if_pos (by simp [Host.pathExists, htarget, hnode])] at h
      obtain ⟨copied, hread, hwrite⟩ := bind_eq_ok.mp h
      obtain ⟨target', hlocated, rfl⟩ := writeFile_eq_ok hwrite
      obtain rfl := Option.some.inj (htarget.symm.trans hlocated)
      rw [readFile_eq_ok hsource, htext] at hread
      obtain rfl := Node.file.inj (Option.some.inj hread)
      funext x
      by_cases hx : x = target
      · simp [Write.apply, hx, hnode]
      · simp [Write.apply, hx]
    | some node =>
      rw [if_neg (by simp [Host.pathExists, htarget, hnode])] at h
      obtain rfl := Except.ok.inj h
      funext x
      by_cases hx : x = target
      · simp [Write.apply, hx, hnode]
      · simp [Write.apply, hx]

end files

section loop
variable [DecidableEq D] {host : Host D F} {outputDir : String}

/-- The writes of a series: its file is created, and then copied unless there is one already. -/
def Series.writes (s : Series D) : List (Write (Location D) Node) :=
  [.put s.source (.file s.text), .offer s.target (.file s.text)]

/-- What one iteration of the loop reads and writes. -/
theorem reportStep_eq_ok {state state' : Files D × List (Host.Plotted F)} {inDir : String} {k : ℕ}
    (h : host.reportStep outputDir state (inDir, k) = .ok state') :
    ∃ p s, state'.2 = state.2 ++ [p] ∧ seriesOf host outputDir (inDir, p) = some s ∧
      host.getAppTitle state.1 inDir = .ok p.appName ∧
      host.getPoints state.1 inDir (k + 1) p.appName = .ok p.points ∧
      (∀ files, SameXml files state.1 → SameXml files state'.1) ∧
      ∀ x, EndsIn 't' x → state'.1 x = s.writes.foldl Write.apply state.1 x := by
  unfold Host.reportStep at h
  obtain ⟨title, htitle, h⟩ := bind_eq_ok.mp h
  obtain ⟨points, hpoints, h⟩ := bind_eq_ok.mp h
  obtain ⟨title', htitle', h⟩ := bind_eq_ok.mp h
  obtain ⟨files₁, hcreate, h⟩ := bind_eq_ok.mp h
  obtain ⟨title₁, htitle₁, h⟩ := bind_eq_ok.mp h
  obtain ⟨files₂, hcopy, h⟩ := bind_eq_ok.mp h
  obtain ⟨title₂, htitle₂, h⟩ := bind_eq_ok.mp h
  obtain ⟨files₃, hreference, h⟩ := bind_eq_ok.mp h
  obtain rfl := Except.ok.inj h
  obtain rfl := Except.ok.inj (htitle.symm.trans htitle')
  obtain ⟨source, hsource, rfl⟩ := writeFile_eq_ok hcreate
  have hsourceEnd := locate_dat hsource
  have hxml₁ (files : Files D) (hfiles : SameXml files state.1) :
      SameXml files ((Write.put source (.file (datText host.format points))).apply state.1) :=
    hfiles.apply (w := .put source _) hsourceEnd (by decide)
  rw [← (hxml₁ state.1 fun _ _ => rfl).getAppTitle] at htitle₁
  obtain rfl := Except.ok.inj (htitle.symm.trans htitle₁)
  have hwritten : (Write.put source (.file (datText host.format points))).apply state.1 source =
      some (.file (datText host.format points)) := if_pos rfl
  obtain ⟨target, htarget, rfl⟩ := copyDatFile_eq_ok hsource hwritten hcopy
  have htargetEnd := locate_dat htarget
  have hxml₂ (files : Files D) (hfiles : SameXml files state.1) := (hxml₁ files hfiles).apply
    (w := .offer target (.file (datText host.format points))) htargetEnd (by decide)
  rw [← (hxml₂ state.1 fun _ _ => rfl).getAppTitle] at htitle₂
  obtain rfl := Except.ok.inj (htitle.symm.trans htitle₂)
  unfold Host.addDatFileReference at hreference
  obtain ⟨text, htext, hreference⟩ := bind_eq_ok.mp hreference
  split_ifs at hreference with hempty
  · cases hreference
  · obtain ⟨gnu, hgnu, rfl⟩ := writeFile_eq_ok hreference
    have hgnuEnd : EndsIn 'u' gnu := by
      apply locate_endsIn hgnu
      · rw [String.toList_append, List.getLast?_append]
        rfl
      · decide
    refine ⟨⟨title, points⟩, ⟨source, target, datText host.format points⟩, rfl, ?_, htitle, hpoints, ?_, ?_⟩
    · simp only [seriesOf, hsource, htarget]
      rfl
    · intro files hfiles
      exact (hxml₂ files hfiles).apply (w := .put gnu _) hgnuEnd (by decide)
    · intro x hx
      exact Write.apply_of_ne (w := .put gnu _) _ (hx.ne hgnuEnd (by decide))

/-- What the loop has done after some of the input directories. -/
structure Progress (host : Host D F) (outputDir : String) (files : Files D) (inputs : List String)
    (state : Files D × List (Host.Plotted F)) : Prop where
  length : state.2.length = inputs.length
  plan : planned host files inputs = .ok state.2
  located : ∀ p ∈ inputs.zip state.2, (seriesOf host outputDir p).isSome = true
  xml : SameXml files state.1
  data : ∀ x, EndsIn 't' x → state.1 x =
    ((allSeries host outputDir inputs state.2).flatMap Series.writes).foldl Write.apply files x

theorem Progress.step {files : Files D} {inputs : List String} {state state' : Files D × List (Host.Plotted F)}
    {inDir : String} (h : Progress host outputDir files inputs state)
    (hstep : host.reportStep outputDir state (inDir, inputs.length) = .ok state') :
    Progress host outputDir files (inputs ++ [inDir]) state' := by
  obtain ⟨p, s, hplotted, hseries, htitle, hpoints, hxml, hdata⟩ := reportStep_eq_ok hstep
  rw [← h.xml.getAppTitle] at htitle
  rw [← h.xml.getPoints] at hpoints
  have hzip : (inputs ++ [inDir]).zip state'.2 = inputs.zip state.2 ++ [(inDir, p)] := by
    rw [hplotted, List.zip_append h.length.symm]
    rfl
  have hall : allSeries host outputDir (inputs ++ [inDir]) state'.2 =
      allSeries host outputDir inputs state.2 ++ [s] := by
    rw [allSeries, hzip, List.filterMap_append, List.filterMap_cons, hseries]
    rfl
  constructor
  · rw [hplotted, List.length_append, List.length_append, h.length]
    rfl
  · have hlast : planned host files (inputs ++ [inDir]) = (do
        let ps ← planned host files inputs
        let appName ← host.getAppTitle files inDir
        let points ← host.getPoints files inDir (inputs.length + 1) appName
        return ps ++ [⟨appName, points⟩]) := by
      simp [planned, List.zipIdx_append, List.mapM_append]
    rw [hlast, h.plan, htitle, hplotted]
    simp only [bind, Except.bind, hpoints]
    rfl
  · intro q hq
    rw [hzip, List.mem_append, List.mem_singleton] at hq
    rcases hq with hq | rfl
    · exact h.located q hq
    · rw [hseries]
      rfl
  · exact hxml files h.xml
  · intro x hx
    rw [hall, List.flatMap_append, List.foldl_append, hdata x hx, List.flatMap_singleton]
    exact Write.foldl_apply_congr s.writes (h.data x hx)

/-- The loop carries out the writes of all series, and changes no XML file. -/
theorem progress_of_reportLoop {files : Files D} {inputs : List String} {state : Files D × List (Host.Plotted F)}
    (h : host.reportLoop outputDir inputs files = .ok state) :
    Progress host outputDir files inputs state := by
  induction inputs using List.reverseRecOn generalizing state with
  | nil =>
    obtain rfl := Except.ok.inj h
    exact ⟨rfl, rfl, by simp, fun _ _ => rfl, fun _ _ => rfl⟩
  | append_singleton inputs inDir ih =>
    rw [Host.reportLoop, List.zipIdx_append, List.foldlM_append] at h
    obtain ⟨before, hbefore, hlast⟩ := bind_eq_ok.mp h
    obtain ⟨after, hafter, hdone⟩ := bind_eq_ok.mp hlast
    obtain rfl := Except.ok.inj hdone
    rw [Nat.zero_add] at hafter
    exact (ih hbefore).step hafter

/-- What the writes of all series leave at a location. -/
theorem foldl_writes (files : Files D) (series : List (Series D)) (x : Location D) :
    (series.flatMap Series.writes).foldl Write.apply files x = survivor files series x := by
  have hput : Write.lastPut x (series.flatMap Series.writes) =
      (series.reverse.find? fun s => s.source = x).map fun s => .file s.text := by
    induction series using List.reverseRecOn with
    | nil => rfl
    | append_singleton series s ih =>
      by_cases hs : s.source = x
      · simp [Write.lastPut, Series.writes, hs]
      · simpa [Write.lastPut, Series.writes, hs] using ih
  have hoffer : Write.firstOffer x (series.flatMap Series.writes) =
      (series.find? fun s => s.target = x).map fun s => .file s.text := by
    clear hput
    induction series with
    | nil => rfl
    | cons s series ih =>
      by_cases hs : s.target = x
      · simp [Write.firstOffer, Series.writes, hs]
      · simpa [Write.firstOffer, Series.writes, hs] using ih
  rw [Write.foldl_apply, hput, hoffer, survivor]

/-- A reference shows the points of its own directory if what survives at its target is the
data file of these points: the copy keeps whatever is there. -/
theorem seriesShown_iff {files files' : Files D} {inputs : List String} {plotted : List (Host.Plotted F)}
    (h : host.reportLoop outputDir inputs files = .ok (files', plotted)) :
    planned host files inputs = .ok plotted ∧
      (SeriesShown host outputDir files' plotted ↔
        ∀ s ∈ allSeries host outputDir inputs plotted,
          survivor files (allSeries host outputDir inputs plotted) s.target = some (.file s.text)) := by
  have hdone := progress_of_reportLoop h
  have hlength : plotted.length = inputs.length := hdone.length
  have hdata : ∀ x, EndsIn 't' x → files' x =
      survivor files (allSeries host outputDir inputs plotted) x := by
    intro x hx
    rw [← foldl_writes]
    exact hdone.data x hx
  refine ⟨hdone.plan, ?_⟩
  have hshown (inDir : String) (p : Host.Plotted F) (s : Series D)
      (hs : seriesOf host outputDir (inDir, p) = some s) :
      host.readFile files' (outputDir ++ "/" ++ p.appName ++ ".dat") = .ok (datText host.format p.points) ↔
        survivor files (allSeries host outputDir inputs plotted) s.target = some (.file s.text) := by
    obtain ⟨source, hsource, hrest⟩ := Option.bind_eq_some_iff.mp hs
    obtain ⟨target, htarget, hseries⟩ := Option.bind_eq_some_iff.mp hrest
    obtain rfl := Option.some.inj hseries
    rw [readFile_eq_ok htarget, hdata target (locate_dat htarget)]
  constructor
  · intro hall s hs
    obtain ⟨⟨inDir, p⟩, hmem, hseries⟩ := List.mem_filterMap.mp hs
    obtain ⟨i, hi⟩ := List.getElem?_of_mem (List.of_mem_zip hmem).2
    exact (hshown inDir p s hseries).mp (hall i p hi)
  · intro hall i p hp
    have hlt := (List.getElem?_eq_some_iff.mp hp).1
    have hinput : i < inputs.length := hlength ▸ hlt
    have hmem : (inputs[i], p) ∈ inputs.zip plotted := by
      apply List.mem_of_getElem? (i := i)
      rw [List.getElem?_zip_eq_some]
      exact ⟨List.getElem?_eq_getElem hinput, hp⟩
    obtain ⟨s, hs⟩ := Option.isSome_iff_exists.mp (hdone.located _ hmem)
    exact (hshown _ p s hs).mpr (hall s (List.mem_filterMap.mpr ⟨_, hmem, hs⟩))

end loop

/-- A host on which every path of a directory leads to a directory of its own. -/
def plainHost : Host String ℚ := ⟨some, exactPython, toString⟩

def onePoint : String :=
  "<r><point label='p'><flops>4</flops><bytes>8</bytes><read_bytes>8</read_bytes><write_bytes>0</write_bytes>" ++
    "<src_file_start/><src_file_end/><line_n_start>1</line_n_start><line_n_end>2</line_n_end></point></r>"

def recordedPoint (dir time : String) : List (Location String × Node) :=
  [((dir, "roofline_meta.xml"), .file "<m><application><name>app</name></application></m>"),
    ((dir, "roofline.xml"), .file onePoint), ((dir, "roofline_time.xml"), .file time)]

def recordedTwice : Files String := fun x =>
  List.lookup x (recordedPoint "a/" "<r><point label='p'><time>2</time></point></r>" ++
    recordedPoint "b/" "<r><point label='p'><time>4</time></point></r>" ++
    [(("out/", "roofline.gnu"), .file "plot 1 ")])

/-- The copy of the first series is in the place of the second one. -/
theorem seriesShown_iff_clash :
    ∃ files' plotted,
      plainHost.reportLoop "out" ["a", "b"] recordedTwice = .ok (files', plotted) ∧
        planned plainHost recordedTwice ["a", "b"] = .ok plotted ∧ plotted.map (·.points.length) = [1, 1] ∧
          ¬ SeriesShown plainHost "out" files' plotted := by
  have hloop : (plainHost.reportLoop "out" ["a", "b"] recordedTwice).toOption.map (fun r =>
      (r.2.map (·.points.length), (allSeries plainHost "out" ["a", "b"] r.2).all fun s =>
        survivor recordedTwice (allSeries plainHost "out" ["a", "b"] r.2) s.target = some (.file s.text))) =
          some ([1, 1], false) := by decide +kernel
  cases h : plainHost.reportLoop "out" ["a", "b"] recordedTwice with
  | error e =>
    rw [h] at hloop
    cases hloop
  | ok r =>
    rw [h] at hloop
    obtain ⟨hpoints, hall⟩ := Prod.mk.inj (Option.some.inj hloop)
    obtain ⟨hplan, hiff⟩ := seriesShown_iff h
    refine ⟨r.1, r.2, rfl, hplan, hpoints, fun hshown => ?_⟩
    rw [List.all_eq_false] at hall
    obtain ⟨s, hs, hnot⟩ := hall
    exact hnot (decide_eq_true (hiff.mp hshown s hs))

/-- A recording without points, and an output directory that has been reported to before. -/
def recordedAgain (old : List (Location String × Node)) : Files String := fun x =>
  List.lookup x ([(("a/", "roofline_meta.xml"), .file "<m><application><name>app</name></application></m>"),
    (("a/", "roofline.xml"), .file "<r/>"), (("a/", "roofline_time.xml"), .file "<r/>"),
    (("out/", "roofline.gnu"), .file "plot 1 ")] ++ old)

def staleFile : List (Location String × Node) := [(("out/", "app.dat"), .file "# X\tY\n  1/4 \t2\n")]

/-- The series shows the point of the earlier report. -/
theorem staleOutput_not_shown :
    ∃ files' plotted,
      plainHost.reportLoop "out" ["a"] (recordedAgain staleFile) = .ok (files', plotted) ∧
        ¬ SeriesShown plainHost "out" files' plotted := by
  have hread : (plainHost.reportLoop "out" ["a"] (recordedAgain staleFile)).toOption.map
        (fun r => (r.2[0]?.map fun p => (p.appName, datText plainHost.format p.points),
          (plainHost.readFile r.1 "out/app.dat").toOption)) =
            some (some ("app", "# X\tY\n"), some "# X\tY\n  1/4 \t2\n") := by
    decide +kernel
  cases h : plainHost.reportLoop "out" ["a"] (recordedAgain staleFile) with
  | error e =>
    rw [h] at hread
    cases hread
  | ok r =>
    rw [h] at hread
    obtain ⟨hfirst, hfile⟩ := Prod.mk.inj (Option.some.inj hread)
    obtain ⟨p, hp, hpoint⟩ := Option.map_eq_some_iff.mp hfirst
    obtain ⟨hname, htext⟩ := Prod.mk.inj hpoint
    refine ⟨r.1, r.2, rfl, ?_⟩
    intro hall
    have hshown := hall 0 p hp
    rw [hname, htext] at hshown
    have hsame : some "# X\tY\n" = some "# X\tY\n  1/4 \t2\n" := by
      rw [← hfile]
      exact (congrArg Except.toOption hshown).symm
    exact absurd hsame (by decide)

end Roofline.Correctness
