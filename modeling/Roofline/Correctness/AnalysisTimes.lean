import Roofline.Correctness.RecordedFiles
import Roofline.Correctness.RecordedPoints

/-! The times of an analysis: what the runs of the client take for each region, and what the whole commands take. -/
namespace Roofline.Correctness
open Client Library Library.Xml Report
variable {τ F : Type}

section collect
variable {py : Python F}

private theorem foldlM_eq_ok {ε α γ : Type} {f : γ → α → Except ε γ} {g : γ → α → γ} {xs : List α}
    (hstep : ∀ x ∈ xs, ∀ c, f c x = .ok (g c x)) (c : γ) : xs.foldlM f c = .ok (xs.foldl g c) := by
  induction xs generalizing c with
  | nil => rfl
  | cons x xs ih =>
    rw [List.forall_mem_cons] at hstep
    rw [List.foldlM_cons, hstep.1, ok_bind, ih hstep.2, List.foldl_cons]

private theorem addTimes_eq {α : Type} {root : Element} {ps : List α} {element : α → Element} {label : α → String}
    {time : α → F} (hpoints : pointsOf root = ps.map element)
    (hlabel : ∀ p ∈ ps, attribOf (element p) "label" = .ok (label p))
    (htime : ∀ p ∈ ps, py.floatOf (element p) "time" = .ok (time p)) (dict : Groups String F) :
    py.addTimes dict root =
      .ok ((ps.map fun p => (label p, time p)).foldl (fun dict p => dict.add p.1 p.2) dict) := by
  rw [Python.addTimes, ← pointsOf, hpoints, List.foldlM_map, List.foldl_map]
  apply foldlM_eq_ok
  intro p hp dict
  rw [hlabel p hp, ok_bind, htime p hp, ok_bind]
  rfl

/-- The times of all files, collected under the labels. -/
theorem collectTimes_eq {ι : Type} {runs : List ι} {texts : ι → String} {pairs : ι → List (String × F)}
    (h : ∀ i ∈ runs, ∃ root, Xml.parse (texts i) = some root ∧ ∀ dict, py.addTimes dict root =
      .ok ((pairs i).foldl (fun dict p => dict.add p.1 p.2) dict)) :
    collectTimes py (runs.map texts) = .ok (Groups.collect (runs.flatMap pairs)) := by
  rw [collectTimes, List.foldlM_map, Groups.collect, List.foldl_flatMap]
  apply foldlM_eq_ok
  intro i hi dict
  obtain ⟨root, hroot, hadd⟩ := h i hi
  have hread : (orRaise (Xml.parse (texts i)) .parseError).mapError ReportError.python = .ok root := by
    rw [hroot]
    rfl
  rw [hread, ok_bind, hadd]
  rfl

end collect

section regions
variable [Zero τ] [Sub τ] {opts opts' : Options} {fmtF : τ → String} {py : Python F} {es : List (Event τ)}
  {es' : ℕ → List (Event τ)} {seconds : τ → F}

def regionSeconds (seconds : τ → F) (opts' : Options) (es' : List (Event τ)) (k : ℕ) : F :=
  seconds (((finalPoints opts' es')[k]?.map (·.elapsed)).getD 0)

/-- The times of every region in some runs, in the order of the runs. -/
def regionTimes (seconds : τ → F) (opts opts' : Options) (es : List (Event τ)) (es' : ℕ → List (Event τ))
    (runs : List ℕ) : Groups String F :=
  (readNames (finalPoints opts es)).mapIdx fun k name =>
    (name, runs.map fun i => regionSeconds seconds opts' (es' i) k)

theorem ReadableRuns.addTimes {run : List (Event τ)} (h : ReadableRuns py fmtF opts opts' es run)
    (hseconds : ∀ t, py.float (fmtF t) = some (seconds t)) :
    ∃ root, Xml.parse (outputFile opts' fmtF run) = some root ∧ ∀ dict, py.addTimes dict root =
      .ok (((outputNames (finalPoints opts' run)).map fun q => (nameValue q.2, seconds q.1.elapsed)).foldl
        (fun dict p => dict.add p.1 p.2) dict) := by
  obtain ⟨root, hroot, hpoints⟩ := h.parse_times
  refine ⟨root, hroot, fun dict => addTimes_eq hpoints (fun q _ => attribOf_pointElement) (fun q _ => ?_) dict⟩
  exact floatOf_text (h.times.ne_empty _) (textOf_pointElement (by simp [fields, h.timed])) (hseconds _)

/-- The labels and times of a run, by position. -/
theorem ReadableRuns.pairs_eq {run : List (Event τ)} (h : ReadableRuns py fmtF opts opts' es run) :
    ((outputNames (finalPoints opts' run)).map fun q => (nameValue q.2, seconds q.1.elapsed)) =
      (List.range (finalPoints opts es).length).map fun k =>
        ((readNames (finalPoints opts es))[k]?.getD "", regionSeconds seconds opts' run k) := by
  have hlength : (outputNames (finalPoints opts' run)).length = (finalPoints opts es).length := by
    rw [length_outputNames, h.length_eq]
  apply List.ext_getElem
  · rw [List.length_map, List.length_map, List.length_range, hlength]
  · intro k hk hk'
    rw [List.length_map] at hk
    obtain ⟨⟨t, name⟩, hq⟩ : ∃ q, (outputNames (finalPoints opts' run))[k]? = some q :=
      ⟨_, List.getElem?_eq_getElem hk⟩
    have hname : (readNames (finalPoints opts es))[k]? = some (nameValue name) := by
      rw [← h.readNames_eq, readNames, List.getElem?_map, hq]
      rfl
    rw [List.getElem_map, List.getElem_map, List.getElem_range, hname, regionSeconds, getElem?_of_outputNames hq,
      (List.getElem?_eq_some_iff.mp hq).2]
    rfl

/-- The regions of runs with the same callbacks. -/
theorem collectTimes_regions (hruns : ∀ k, ReadableRuns py fmtF opts opts' es (es' k))
    (hnames : (readNames (finalPoints opts es)).Nodup) (hseconds : ∀ t, py.float (fmtF t) = some (seconds t))
    {runs : List ℕ} (hne : runs ≠ []) :
    collectTimes py (runs.map fun i => outputFile opts' fmtF (es' i)) =
      .ok (regionTimes seconds opts opts' es es' runs) := by
  have hlength : (readNames (finalPoints opts es)).length = (finalPoints opts es).length := by
    rw [readNames, List.length_map, length_outputNames]
  have hpositions : (List.range (finalPoints opts es).length).map (fun k =>
      (readNames (finalPoints opts es))[k]?.getD "") = readNames (finalPoints opts es) := by
    apply List.ext_getElem
    · rw [List.length_map, List.length_range, hlength]
    · intro k hk hk'
      rw [List.getElem_map, List.getElem_range, List.getElem?_eq_getElem hk', Option.getD_some]
  rw [collectTimes_eq fun i _ => (hruns i).addTimes hseconds]
  simp only [(hruns _).pairs_eq]
  rw [Groups.collect_rounds (by rwa [hpositions]) (fun i k => regionSeconds seconds opts' (es' i) k) hne, regionTimes]
  congr 1
  apply List.ext_getElem
  · rw [List.length_map, List.length_range, List.length_mapIdx, hlength]
  · intro k hk hk'
    rw [List.length_mapIdx] at hk'
    rw [List.getElem_map, List.getElem_range, List.getElem_mapIdx, List.getElem?_eq_getElem hk', Option.getD_some]

end regions

section tables

private theorem readTable_roiRows (format : F → String) (dict : Groups String F) :
    Csv.readTable (tableText (roiRows format dict)).toList =
      some ((roiRows format dict).map (·.map String.toList)) := by
  apply readTable_tableText
  intro row hrow
  obtain ⟨l, -, hrow⟩ := List.mem_flatMap.mp hrow
  rcases List.mem_cons.mp hrow with rfl | hrow
  · exact List.cons_ne_nil _ _
  · obtain ⟨elem, -, rfl⟩ := List.mem_map.mp hrow
    exact List.cons_ne_nil _ _

private theorem readTable_runRows (format : F → String) (times : List F) :
    Csv.readTable (tableText (runRows format times)).toList =
      some ((runRows format times).map (·.map String.toList)) := by
  apply readTable_tableText
  rw [runRows, List.forall_mem_cons, List.forall_mem_map]
  exact ⟨List.cons_ne_nil _ _, fun _ _ => List.cons_ne_nil _ _⟩

variable {D : Type} {rec : Recorder D F} {args : RecordArgs} {d : D} {text : Bool → ℕ → String} {n : ℕ}

private theorem recordedEntries_analysis (hflops : args.flopsOnly = false) (htime : args.timeOnly = false)
    (hruns : args.runTimeAnalysis = n) (hn : 1 < n) (dict : Groups String F) {e : String × Report.Node}
    (he : e ∈ analysisTables rec text 1 n dict) : e ∈ recordedEntries rec args text dict := by
  have hmany : 1 < args.runTimeAnalysis := by omega
  have htoNat : args.runTimeAnalysis.toNat = n := by omega
  rw [recordedEntries, hflops, htime, if_neg Bool.false_ne_true, if_neg Bool.false_ne_true, if_pos hmany, htoNat,
    analysisFiles]
  exact List.mem_cons_of_mem _ (List.mem_cons_of_mem _ (List.mem_append_right _ he))

private theorem recordedCommands_analysis (hflops : args.flopsOnly = false) (htime : args.timeOnly = false)
    (hruns : args.runTimeAnalysis = n) (hn : 1 < n) :
    recordedCommands rec args = runCmd rec args false :: analysisCommands rec args n := by
  have hmany : 1 < args.runTimeAnalysis := by omega
  have htoNat : args.runTimeAnalysis.toNat = n := by omega
  rw [recordedCommands, hflops, htime, if_neg Bool.false_ne_true, if_neg Bool.false_ne_true, if_pos hmany, htoNat]

/-- The tables of whole commands: the name, the number of the first command, and what all of them are. -/
def measuredTables (rec : Recorder D F) (args : RecordArgs) (n : ℕ) : List (String × ℕ × String) :=
  [("native_runtime.csv", 1 + n, " ./" ++ args.appWithFlags),
    ("dynamorio_runtime.csv", 1 + 2 * n, "./" ++ args.appWithFlags),
    ("dynamorio_and_client_runtime.csv", 1 + 3 * n, runCmd rec args true)]

private theorem getElem?_block {α : Type} (before after : List α) {a : α} {n i k : ℕ} (hk : before.length = k)
    (hi : i < n) :
    (before ++ (List.replicate n a ++ after))[k + i]? = some a := by
  rw [List.getElem?_append_right (by omega), hk, Nat.add_sub_cancel_left,
    List.getElem?_append_left (by simpa using hi), List.getElem?_replicate_of_lt hi]

/-- The commands that a table is about. -/
theorem measuredTables_commands {m : String × ℕ × String} (hm : m ∈ measuredTables rec args n) {i : ℕ} (hi : i < n) :
    (runCmd rec args false :: analysisCommands rec args n)[m.2.1 + i]? = some m.2.2 := by
  have hcommands : runCmd rec args false :: analysisCommands rec args n =
      runCmd rec args false :: List.replicate n (runCmd rec args true) ++
        (List.replicate n (" ./" ++ args.appWithFlags) ++ (List.replicate n ("./" ++ args.appWithFlags) ++
          (List.replicate n (runCmd rec args true) ++ []))) := by
    simp only [analysisCommands, List.append_assoc, List.append_nil, List.cons_append]
  rw [hcommands]
  rw [measuredTables, List.mem_cons, List.mem_cons, List.mem_singleton] at hm
  rcases hm with rfl | rfl | rfl
  · exact getElem?_block _ _ (by simp; omega) hi
  · rw [← List.append_assoc]
    exact getElem?_block _ _ (by simp; omega) hi
  · rw [← List.append_assoc, ← List.append_assoc]
    exact getElem?_block _ _ (by simp; omega) hi

variable [DecidableEq D] {files : Files D}

/-- The tables of an analysis hold the times of the commands that the analysis has run for them. The application is
run on its own for dynamorio_runtime.csv as well. -/
theorem measured_tables (h : Launched rec args d text) (hfresh : ∀ name, files (d, name) = none)
    (hnew : rec.taken (rec.outDir args) = false) (hflops : args.flopsOnly = false) (htime : args.timeOnly = false)
    (hruns : args.runTimeAnalysis = n) (hn : 1 < n) {s : Session D} (hs : rec.record files args = .ok s) :
    ∀ m ∈ measuredTables rec args n,
      (∃ table, s.files (d, m.1) = some (.file table) ∧
        Csv.readTable table.toList = some ((runRows rec.host.format ((List.range n).map fun i =>
          rec.elapsed (m.2.1 + i))).map (·.map String.toList))) ∧
      ∀ i < n, s.commands[m.2.1 + i]? = some m.2.2 := by
  obtain ⟨dict, -, hcommands, hlist, -⟩ := h.left hfresh hnew hs
  rw [hcommands, recordedCommands_analysis hflops htime hruns hn]
  intro m hm
  have hentry : (m.1, elapsedTable rec m.2.1 n) ∈ analysisTables rec text 1 n dict := by
    rw [measuredTables, List.mem_cons, List.mem_cons, List.mem_singleton] at hm
    rcases hm with rfl | rfl | rfl <;> simp [analysisTables]
  exact ⟨⟨_, (hlist _ _).mpr (recordedEntries_analysis hflops htime hruns hn dict hentry), readTable_runRows _ _⟩,
    fun i hi => measuredTables_commands hm hi⟩

end tables

section analysis
variable [Zero τ] [Sub τ] {D : Type} [DecidableEq D] {rec : Recorder D F} {args : RecordArgs} {d : D}
  {opts opts' : Options} {fmtF : τ → String} {es : List (Event τ)} {es' : ℕ → List (Event τ)} {seconds : τ → F}
  {files : Files D}

def clientText (opts opts' : Options) (fmtF : τ → String) (es : List (Event τ)) (es' : ℕ → List (Event τ))
    (timeRun : Bool) (k : ℕ) : String :=
  if timeRun then outputFile opts' fmtF (es' k) else outputFile opts fmtF es

/-- Record ends with every mode where its runs of the client are those of a recording. -/
theorem Launched.returns (h : Launched rec args d (clientText opts opts' fmtF es es'))
    (hfresh : ∀ name, files (d, name) = none) (hnew : rec.taken (rec.outDir args) = false)
    (hruns : ∀ k, ReadableRuns rec.host.py fmtF opts opts' es (es' k)) :
    ∃ s dict, rec.record files args = .ok s ∧
      Lists (dirFiles s.files d) (recordedEntries rec args (clientText opts opts' fmtF es es') dict) ∧
      ∀ d' ≠ d, Spares rec args d' → dirFiles s.files d' = dirFiles files d' := by
  choose seconds hseconds using (hruns 0).times.float
  obtain ⟨dict, hdict⟩ : ∃ dict, collectTimes rec.host.py
      (analysedTexts args (clientText opts opts' fmtF es es')) = .ok dict := by
    rw [analysedTexts]
    split_ifs
    · exact ⟨_, collectTimes_eq fun i _ => (hruns (1 + i)).addTimes hseconds⟩
    · exact ⟨[], rfl⟩
  obtain ⟨s, hs, -, hlist⟩ := (h.recorded hfresh hnew).2 dict hdict
  exact ⟨s, dict, hs, hlist⟩

/-- Where labels and file names are read back as they are, the table of regions that an analysis writes has a label and
then n times for every region, in the order of the regions, and time number i is what the region takes in run i of the
client. -/
theorem analysis_times (h : Launched rec args d (clientText opts opts' fmtF es es'))
    (hfresh : ∀ name, files (d, name) = none) (hnew : rec.taken (rec.outDir args) = false)
    (hflops : args.flopsOnly = false) (htime : args.timeOnly = false) {n : ℕ} (hn : args.runTimeAnalysis = n)
    (hmany : 1 < n) (hruns : ∀ k, PairedRuns rec.host.py fmtF opts opts' es (es' k))
    (hreadable : ∀ p ∈ finalPoints opts es, ReadablePoint p) (hnames : (readNames (finalPoints opts es)).Nodup)
    (hseconds : ∀ t, rec.host.py.float (fmtF t) = some (seconds t)) :
    ∃ s table, rec.record files args = .ok s ∧ s.files (d, "roi_runtime.csv") = some (.file table) ∧
      Csv.readTable table.toList = some ((roiRows rec.host.format
        (regionTimes seconds opts opts' es es' ((List.range n).map (1 + ·)))).map (·.map String.toList)) := by
  have hcollect : collectTimes rec.host.py (analysedTexts args (clientText opts opts' fmtF es es')) =
      .ok (regionTimes seconds opts opts' es es' ((List.range n).map (1 + ·))) := by
    have hanalyses : args.flopsOnly = false ∧ args.timeOnly = false ∧ 1 < args.runTimeAnalysis :=
      ⟨hflops, htime, by omega⟩
    have hne : (List.range n).map (1 + ·) ≠ [] := by
      rw [Ne, List.map_eq_nil_iff, List.range_eq_nil]
      omega
    rw [analysedTexts, if_pos hanalyses, hn, Int.toNat_natCast,
      ← collectTimes_regions (fun k => ⟨hruns k, hreadable⟩) hnames hseconds hne, List.map_map]
    rfl
  obtain ⟨s, hs, -, hlist, -⟩ := (h.recorded hfresh hnew).2 _ hcollect
  refine ⟨s, _, hs, (hlist _ _).mpr (recordedEntries_analysis hflops htime hn hmany _ ?_), readTable_roiRows _ _⟩
  exact List.mem_cons_of_mem _ List.mem_cons_self

end analysis

def slowerRun (k : ℕ) : List (Event ℕ) :=
  [.roiInit ⟨"a", 10, "a.c"⟩ 1, .roiEnd ⟨"a", 12, "a.c"⟩ (4 + k), .roiInit ⟨"a", 10, "a.c"⟩ 5,
    .roiEnd ⟨"a", 12, "a.c"⟩ 10]

def homeText (opts : Options) : Bool → ℕ → String :=
  clientText opts timeOptions wholeSeconds (countedRun "a.c") slowerRun

theorem pairedRuns_slowerRun (k : ℕ) :
    PairedRuns exactPython wholeSeconds {} timeOptions (countedRun "a.c") (slowerRun k) where
  mode := ⟨rfl, rfl, rfl, rfl⟩
  counts := rfl
  timed := rfl
  callbacks := rfl
  numerals := readsNumerals_exactPython
  times := readsTimes_wholeSeconds

theorem nodup_countedRun : (readNames (finalPoints {} (countedRun "a.c"))).Nodup := by decide +kernel

theorem measured_tables_home : ∃ s, (homeRecorder regionText).record emptyFiles homeRecordArgs = .ok s ∧
    ∀ i < 2, s.commands[5 + i]? = some "./f" := by
  have hempty : ∀ name, emptyFiles ("/home/out", name) = none := fun _ => rfl
  have hcollect : collectTimes (homeRecorder regionText).host.py (analysedTexts homeRecordArgs regionText) =
      .ok [("f", [1, 2])] := by decide +kernel
  have happ : homeRecordArgs.appWithFlags = "f" := by decide +kernel
  obtain ⟨s, hs, -⟩ := ((launched_homeRecorder regionText).recorded hempty rfl).2 _ hcollect
  have htables := measured_tables (launched_homeRecorder regionText) hempty rfl rfl rfl (n := 2) rfl (by decide) hs
  have hsecond := (htables ("dynamorio_runtime.csv", 5, "./" ++ homeRecordArgs.appWithFlags)
    (by simp [measuredTables])).2
  rw [happ] at hsecond
  exact ⟨s, hs, hsecond⟩

theorem analysis_times_home : ∃ s table, (homeRecorder (homeText {})).record emptyFiles homeRecordArgs = .ok s ∧
    s.files ("/home/out", "roi_runtime.csv") = some (.file table) ∧
    Csv.readTable table.toList =
      some ((roiRows toString [("a", [(4 : ℚ), 5]), ("a1", [5, 5])]).map (·.map String.toList)) := by
  have hempty : ∀ name, emptyFiles ("/home/out", name) = none := fun _ => rfl
  have hseconds : ∀ t, exactPython.float (wholeSeconds t) = some ((exactPython.float (wholeSeconds t)).getD 0) := by
    intro t
    obtain ⟨x, hx⟩ := readsTimes_wholeSeconds.float t
    rw [hx]
    rfl
  have htimes : regionTimes (fun t => (exactPython.float (wholeSeconds t)).getD 0) {} timeOptions (countedRun "a.c")
      slowerRun ((List.range 2).map (1 + ·)) = [("a", [4, 5]), ("a1", [5, 5])] := by decide +kernel
  rw [← htimes]
  exact analysis_times (launched_homeRecorder (homeText {})) hempty rfl rfl rfl (n := 2) rfl (by decide)
    pairedRuns_slowerRun readablePoint_countedRun nodup_countedRun hseconds

end Roofline.Correctness
