import Roofline.Correctness.RecordedRuns

/-! The files of a recording. In every mode, record leaves in a new directory what its runs of the client have
written and what it has measured, and nothing else. -/
namespace Roofline.Correctness
open Library Report
variable {D F : Type} {rec : Recorder D F} {args : RecordArgs} {d : D} {text : Bool → ℕ → String}

/-- The commands of record. An analysis never runs the application under DynamoRIO alone. -/
def recordedCommands (rec : Recorder D F) (args : RecordArgs) : List String :=
  if args.flopsOnly then [runCmd rec args false]
  else if args.timeOnly then [runCmd rec args true]
  else runCmd rec args false ::
    if 1 < args.runTimeAnalysis then analysisCommands rec args args.runTimeAnalysis.toNat else [runCmd rec args true]

/-- The table of the times that some commands take, from one command on. -/
def elapsedTable (rec : Recorder D F) (k n : ℕ) : Node :=
  .file (tableText (runRows rec.host.format ((List.range n).map fun i => rec.elapsed (k + i))))

/-- The files of an analysis that begins with command k: the times of each run behind its own name, then the file
of the last run, and the tables. -/
def analysisTables (rec : Recorder D F) (text : Bool → ℕ → String) (k n : ℕ) (dict : Groups String F) :
    List (String × Node) :=
  [("roofline_time.xml", .file (text true (k + 4 * n - 1))),
    ("roi_runtime.csv", .file (tableText (roiRows rec.host.format dict))),
    ("native_runtime.csv", elapsedTable rec (k + n) n),
    ("dynamorio_runtime.csv", elapsedTable rec (k + 2 * n) n),
    ("dynamorio_and_client_runtime.csv", elapsedTable rec (k + 3 * n) n)]

def analysisFiles (rec : Recorder D F) (text : Bool → ℕ → String) (k n : ℕ) (dict : Groups String F) :
    List (String × Node) :=
  ((List.range n).map fun i => (timeFile i, .file (text true (k + i)))) ++ analysisTables rec text k n dict

def recordedEntries (rec : Recorder D F) (args : RecordArgs) (text : Bool → ℕ → String) (dict : Groups String F) :
    List (String × Node) :=
  ("roofline_meta.xml", .file (metaText args.appWithFlags rec.metaTime)) ::
    if args.flopsOnly then [("roofline.xml", .file (text false 0))]
    else if args.timeOnly then [("roofline_time.xml", .file (text true 0))]
    else ("roofline.xml", .file (text false 0)) ::
      if 1 < args.runTimeAnalysis then analysisFiles rec text 1 args.runTimeAnalysis.toNat dict
      else [("roofline_time.xml", .file (text true 1))]

/-- The texts from which an analysis takes the times of the regions. -/
def analysedTexts (args : RecordArgs) (text : Bool → ℕ → String) : List String :=
  if args.flopsOnly = false ∧ args.timeOnly = false ∧ 1 < args.runTimeAnalysis then
    (List.range args.runTimeAnalysis.toNat).map fun i => text true (1 + i)
  else []

section entries
variable {dir : String → Option Node} {entries : List (String × Node)}

/-- The names of files that have been moved are told apart by their numbers. -/
theorem lists_movedTimes (h : Lists dir entries) (hname : "roofline_time.xml" ∉ entries.map Prod.fst)
    (htimes : ∀ i, timeFile i ∉ entries.map Prod.fst) (texts : ℕ → String) (n : ℕ) :
    Lists (movedTimes texts dir n) (entries ++ (List.range n).map fun i => (timeFile i, .file (texts i))) := by
  induction n with
  | zero =>
    rw [List.range_zero, List.map_nil, List.append_nil]
    exact h
  | succ n ih =>
    have hkeys : (entries ++ (List.range n).map fun i => (timeFile i, Node.file (texts i))).map Prod.fst =
        entries.map Prod.fst ++ (List.range n).map timeFile := by
      rw [List.map_append, List.map_map]
      rfl
    have hold : "roofline_time.xml" ∉
        (entries ++ (List.range n).map fun i => (timeFile i, Node.file (texts i))).map Prod.fst := by
      rw [hkeys, List.mem_append, not_or]
      refine ⟨hname, fun hmem => ?_⟩
      obtain ⟨i, -, hi⟩ := List.mem_map.mp hmem
      exact timeFile_ne (by decide) i hi
    have hnew : timeFile n ∉
        (entries ++ (List.range n).map fun i => (timeFile i, Node.file (texts i))).map Prod.fst := by
      rw [hkeys, List.mem_append, not_or]
      refine ⟨htimes n, fun hmem => ?_⟩
      obtain ⟨i, hi, heq⟩ := List.mem_map.mp hmem
      rw [timeFile_inj] at heq
      exact absurd (List.mem_range.mp hi) (by omega)
    rw [Correctness.movedTimes, ih.remove hold, List.range_succ, List.map_append, ← List.append_assoc]
    exact ih.update hnew _

/-- A directory behind an analysis. -/
theorem lists_analysedDir (h : Lists dir entries) (hentries : ∀ name ∈ entries.map Prod.fst,
      name = "roofline_meta.xml" ∨ name = "roofline.xml") (k n : ℕ) (dict : Groups String F) :
    Lists (analysedDir rec text dir k n dict) (entries ++ analysisFiles rec text k n dict) := by
  have hother {name : String} (hmeta : name ≠ "roofline_meta.xml") (hcounts : name ≠ "roofline.xml") :
      name ∉ entries.map Prod.fst := fun hmem => (hentries name hmem).elim hmeta hcounts
  have htimes (i : ℕ) : timeFile i ∉ entries.map Prod.fst :=
    hother (timeFile_ne (by decide) i) (timeFile_ne (by decide) i)
  have hmoved := lists_movedTimes h (hother (by decide) (by decide)) htimes (fun i => text true (k + i)) n
  have hkeys {name : String} (hmeta : name ≠ "roofline_meta.xml") (hcounts : name ≠ "roofline.xml")
      (htime : ¬ "roofline_time_".toList <+: name.toList) :
      name ∉ (entries ++ (List.range n).map fun i => (timeFile i, Node.file (text true (k + i)))).map Prod.fst := by
    rw [List.map_append, List.map_map, List.mem_append, not_or]
    refine ⟨hother hmeta hcounts, fun hmem => ?_⟩
    obtain ⟨i, -, hi⟩ := List.mem_map.mp hmem
    exact timeFile_ne htime i hi
  have hfresh : ∀ e ∈ analysisTables rec text k n dict, e.1 ∉
      (entries ++ (List.range n).map fun i => (timeFile i, Node.file (text true (k + i)))).map Prod.fst := by
    simp only [analysisTables, List.forall_mem_cons]
    exact ⟨hkeys (by decide) (by decide) (by decide), hkeys (by decide) (by decide) (by decide),
      hkeys (by decide) (by decide) (by decide), hkeys (by decide) (by decide) (by decide),
      hkeys (by decide) (by decide) (by decide), List.forall_mem_nil _⟩
  have hnodup : ((analysisTables rec text k n dict).map Prod.fst).Nodup := by
    simp [analysisTables]
  rw [analysisFiles, ← List.append_assoc]
  exact hmoved.updates hfresh hnodup

end entries

section record

def metaDir (rec : Recorder D F) (args : RecordArgs) : String → Option Node :=
  Function.update (fun _ => none) "roofline_meta.xml" (some (.file (metaText args.appWithFlags rec.metaTime)))

private theorem lists_metaDir (rec : Recorder D F) (args : RecordArgs) :
    Lists (metaDir rec args) [("roofline_meta.xml", .file (metaText args.appWithFlags rec.metaTime))] :=
  (lists_nil fun _ => rfl).update (by simp) _

private theorem ne_directory_of_lists {dir : String → Option Node} {entries : List (String × Node)}
    (h : Lists dir entries)
    (hentries : Node.directory ∉ entries.map Prod.snd) (name : String) : dir name ≠ some .directory := by
  intro hdir
  exact hentries (List.mem_map_of_mem ((h name _).mp hdir))

private theorem runOptions_false (args : RecordArgs) (outDir : String) :
    runOptions args outDir false = args.clientOptions outDir := List.append_nil _

private theorem returns_of_analysedTexts_nil {py : Python F} {x : Except ReportError (Session D)} {s : Session D}
    {P : Groups String F → Session D → Prop} (hx : x = .ok s) (hs : ∀ dict, P dict s) :
    (∀ e, collectTimes py [] = .error e → x = .error e) ∧
      ∀ dict, collectTimes py [] = .ok dict → ∃ s, x = .ok s ∧ P dict s := by
  refine ⟨fun e he => ?_, fun dict _ => ⟨s, hx, hs dict⟩⟩
  cases he

variable [DecidableEq D] {files : Files D}

private theorem Launched.saveMeta (h : Launched rec args d text) (hfresh : ∀ name, files (d, name) = none) :
    ∃ files', rec.host.saveMetaInformation files args.appWithFlags rec.metaTime (rec.outDir args) = .ok files' ∧
      Leaves rec args files d (metaDir rec args) [] ⟨files', []⟩ := by
  have hfree : dirFiles files d "roofline_meta.xml" ≠ some .directory := by
    rw [dirFiles, hfresh]
    simp
  obtain ⟨files', hwrite, hfiles', helsewhere⟩ := writeFile_dir (h.locate "roofline_meta.xml" (by decide)) hfree
    (metaText args.appWithFlags rec.metaTime)
  have hempty : dirFiles files d = fun _ => none := funext hfresh
  refine ⟨files', hwrite, ?_, fun d' hd _ => helsewhere d' hd, rfl⟩
  rw [hfiles', hempty]
  rfl

/-- A run of the client in the directory behind the metainformation. -/
theorem Leaves.firstRun (h : Launched rec args d text) {s : Session D}
    (hs : Leaves rec args files d (metaDir rec args) [] s) (timeRun : Bool) :
    ∃ s' dir', rec.runClient args.appWithFlags (runOptions args (rec.outDir args) timeRun) s = s' ∧
      Leaves rec args files d dir' [runCmd rec args timeRun] s' ∧
      Lists dir' [("roofline_meta.xml", .file (metaText args.appWithFlags rec.metaTime)),
        (clientFile timeRun, .file (text timeRun 0))] := by
  have hname : clientFile timeRun ∉ [("roofline_meta.xml",
      Node.file (metaText args.appWithFlags rec.metaTime))].map Prod.fst := by
    rw [List.map_singleton, List.mem_singleton]
    cases timeRun with
    | false => exact fun h => absurd h (by decide : "roofline.xml" ≠ "roofline_meta.xml")
    | true => exact fun h => absurd h (by decide : "roofline_time.xml" ≠ "roofline_meta.xml")
  exact ⟨_, _, rfl, hs.runClient h timeRun, (lists_metaDir rec args).update hname _⟩

/-- What record does is decided by the texts that its runs for the times leave. -/
theorem Launched.recorded (h : Launched rec args d text) (hfresh : ∀ name, files (d, name) = none)
    (hnew : rec.taken (rec.outDir args) = false) :
    (∀ e, collectTimes rec.host.py (analysedTexts args text) = .error e → rec.record files args = .error e) ∧
      ∀ dict, collectTimes rec.host.py (analysedTexts args text) = .ok dict →
        ∃ s, rec.record files args = .ok s ∧ s.commands = recordedCommands rec args ∧
          Lists (dirFiles s.files d) (recordedEntries rec args text dict) ∧
          ∀ d' ≠ d, Spares rec args d' → dirFiles s.files d' = dirFiles files d' := by
  obtain ⟨files', hmeta, hleaves⟩ := h.saveMeta hfresh
  have htrue : args.clientOptions (rec.outDir args) ++ ["--time_run"] = runOptions args (rec.outDir args) true := rfl
  obtain ⟨counted, dirCounts, hcounted, hcounts, hlistCounts⟩ := hleaves.firstRun h false
  obtain ⟨timed, dirTimes, htimed, htimes, hlistTimes⟩ := hleaves.firstRun h true
  rw [Recorder.record, hnew, if_neg Bool.false_ne_true, hmeta, ok_bind]
  unfold Recorder.runRooflineClient
  dsimp only
  rw [htrue, ← runOptions_false, htimed, hcounted]
  unfold analysedTexts recordedCommands recordedEntries
  by_cases hflops : args.flopsOnly = true
  · have hnot : ¬ (args.flopsOnly = false ∧ args.timeOnly = false ∧ 1 < args.runTimeAnalysis) := by simp [hflops]
    simp only [if_neg hnot, if_pos hflops]
    refine returns_of_analysedTexts_nil rfl fun _ => ⟨hcounts.commands, ?_, hcounts.spared⟩
    rw [hcounts.files]
    exact hlistCounts
  by_cases htime : args.timeOnly = true
  · have hnot : ¬ (args.flopsOnly = false ∧ args.timeOnly = false ∧ 1 < args.runTimeAnalysis) := by simp [htime]
    simp only [if_neg hnot, if_neg hflops, if_pos htime]
    refine returns_of_analysedTexts_nil rfl fun _ => ⟨htimes.commands, ?_, htimes.spared⟩
    rw [htimes.files]
    exact hlistTimes
  by_cases hruns : 1 < args.runTimeAnalysis
  · have hanalyses : args.flopsOnly = false ∧ args.timeOnly = false ∧ 1 < args.runTimeAnalysis :=
      ⟨Bool.eq_false_of_not_eq_true hflops, Bool.eq_false_of_not_eq_true htime, hruns⟩
    simp only [if_pos hanalyses, if_neg hflops, if_neg htime, if_pos hruns]
    obtain ⟨hfails, hsucceeds⟩ := hcounts.runTimeAnalysis h (ne_directory_of_lists hlistCounts (by simp))
      (n := args.runTimeAnalysis.toNat) (by omega)
    refine ⟨hfails, fun dict hdict => ?_⟩
    obtain ⟨s, hs, hend⟩ := hsucceeds dict hdict
    refine ⟨s, hs, hend.commands, ?_, hend.spared⟩
    rw [hend.files]
    exact lists_analysedDir hlistCounts (by simp [clientFile]) _ _ dict
  · have hnot : ¬ (args.flopsOnly = false ∧ args.timeOnly = false ∧ 1 < args.runTimeAnalysis) := by simp [hruns]
    simp only [if_neg hnot, if_neg hflops, if_neg htime, if_neg hruns]
    have hsecond := hcounts.runClient h true
    refine returns_of_analysedTexts_nil rfl fun _ => ⟨hsecond.commands, ?_, hsecond.spared⟩
    have hlist := hlistCounts.update (k := clientFile true) (by simp [clientFile])
      (.file (text true [runCmd rec args false].length))
    rw [← hsecond.files] at hlist
    exact hlist

theorem Launched.left (h : Launched rec args d text) (hfresh : ∀ name, files (d, name) = none)
    (hnew : rec.taken (rec.outDir args) = false) {s : Session D} (hs : rec.record files args = .ok s) :
    ∃ dict, collectTimes rec.host.py (analysedTexts args text) = .ok dict ∧
      s.commands = recordedCommands rec args ∧ Lists (dirFiles s.files d) (recordedEntries rec args text dict) ∧
      ∀ d' ≠ d, Spares rec args d' → dirFiles s.files d' = dirFiles files d' := by
  obtain ⟨hfails, hsucceeds⟩ := h.recorded hfresh hnew
  cases hdict : collectTimes rec.host.py (analysedTexts args text) with
  | error e =>
    rw [hfails e hdict] at hs
    cases hs
  | ok dict =>
    obtain ⟨s', hs', hend⟩ := hsucceeds dict hdict
    obtain rfl := Except.ok.inj (hs.symm.trans hs')
    exact ⟨dict, rfl, hend⟩

/-- Whatever the mode, record leaves its directory as listed, with nothing else in it, and the directories that its
commands spare as they were; and it stops exactly where the times of the regions cannot be collected. -/
theorem record_directory (h : Launched rec args d text) (hfresh : ∀ name, files (d, name) = none)
    (hnew : rec.taken (rec.outDir args) = false) :
    (∀ e, rec.record files args = .error e ↔ collectTimes rec.host.py (analysedTexts args text) = .error e) ∧
      ∀ s, rec.record files args = .ok s → ∃ dict, collectTimes rec.host.py (analysedTexts args text) = .ok dict ∧
        s.commands = recordedCommands rec args ∧ Lists (dirFiles s.files d) (recordedEntries rec args text dict) ∧
        ∀ d' ≠ d, Spares rec args d' → dirFiles s.files d' = dirFiles files d' := by
  refine ⟨fun e => ⟨fun he => ?_, (h.recorded hfresh hnew).1 e⟩, fun s hs => h.left hfresh hnew hs⟩
  cases hdict : collectTimes rec.host.py (analysedTexts args text) with
  | error e' =>
    have hfails := (h.recorded hfresh hnew).1 e' hdict
    rw [he] at hfails
    exact congrArg _ (Except.error.inj hfails).symm
  | ok dict =>
    obtain ⟨s, hs, -⟩ := (h.recorded hfresh hnew).2 dict hdict
    rw [he] at hs
    cases hs

end record

/-- A host that knows a directory by its path, whatever slashes the path ends in. -/
def slashHost : Host String ℚ where
  dirOf path := some (String.ofList (path.toList.reverse.dropWhile (· = '/')).reverse)
  py := exactPython
  format := toString

def homeRecordArgs : RecordArgs := { targetApp := "./f", output := some "out", runTimeAnalysis := 2 }

/-- A script whose commands do nothing yet. -/
def idleRecorder : Recorder String ℚ where
  host := slashHost
  cwd := "/home/"
  rooflineToolDir := "/opt"
  taken _ := false
  dirTime := ""
  metaTime := "t"
  launch _ _ files := files
  elapsed k := k

/-- The same script where the client writes its texts into a directory. -/
def homeLaunch (args : RecordArgs) (dir : String) (text : Bool → ℕ → String) (k : ℕ) (cmd : String)
    (files : Files String) : Files String :=
  if cmd = runCmd idleRecorder args true then withText files (dir, "roofline_time.xml") (text true k)
  else if cmd = runCmd idleRecorder args false then withText files (dir, "roofline.xml") (text false k)
  else files

def recorderFor (args : RecordArgs) (dir : String) (text : Bool → ℕ → String) : Recorder String ℚ :=
  { idleRecorder with launch := homeLaunch args dir text }

section recorder
variable {args : RecordArgs} {dir : String}

private theorem launch_recorderFor (text : Bool → ℕ → String) :
    (recorderFor args dir text).launch = homeLaunch args dir text := rfl

private theorem runCmd_recorderFor (text : Bool → ℕ → String) (timeRun : Bool) :
    runCmd (recorderFor args dir text) args timeRun = runCmd idleRecorder args timeRun := rfl

theorem launched_recorderFor (hdir : idleRecorder.outDir args = dir ++ "/")
    (hout : slashHost.dirOf (dir ++ "/") = some dir) (hslashed : slashHost.dirOf (dir ++ "/" ++ "/") = some dir)
    (hlocate : ∀ timeRun, slashHost.locate (Client.outFileName timeRun (dir ++ "/")) = some (dir, clientFile timeRun))
    (hne : runCmd idleRecorder args false ≠ runCmd idleRecorder args true)
    (happ : ∀ settings timeRun, Recorder.timeInfoCmd args.appWithFlags settings ≠ runCmd idleRecorder args timeRun)
    (text : Bool → ℕ → String) : Launched (recorderFor args dir text) args dir text := by
  have hdir' : (recorderFor args dir text).outDir args = dir ++ "/" := hdir
  constructor
  · rw [hdir']
    exact hout
  · rw [hdir']
    exact hslashed
  · intro timeRun k files x hx
    rw [hdir'] at hx
    obtain rfl := Option.some.inj ((hlocate timeRun).symm.trans hx)
    rw [runCmd_recorderFor, launch_recorderFor, homeLaunch]
    cases timeRun with
    | false =>
      rw [if_neg hne, if_pos rfl]
      rfl
    | true =>
      rw [if_pos rfl]
      rfl
  · intro k settings files
    rw [launch_recorderFor, homeLaunch, if_neg (happ settings true), if_neg (happ settings false)]

/-- The commands write into their own directory only. -/
theorem spares_recorderFor {dir' : String} (hdir : dir' ≠ dir) (text : Bool → ℕ → String) :
    Spares (recorderFor args dir text) args dir' := by
  have hlaunch (k : ℕ) (cmd : String) (files : Files String) :
      dirFiles ((recorderFor args dir text).launch k cmd files) dir' = dirFiles files dir' := by
    rw [launch_recorderFor, homeLaunch]
    split_ifs
    · exact dirFiles_withText_of_ne files hdir _ _
    · exact dirFiles_withText_of_ne files hdir _ _
    · rfl
  exact ⟨fun _ k files => hlaunch k _ files, fun k _ files => hlaunch k _ files⟩

end recorder

def homeRecorder (text : Bool → ℕ → String) : Recorder String ℚ := recorderFor homeRecordArgs "/home/out" text

theorem launched_homeRecorder (text : Bool → ℕ → String) :
    Launched (homeRecorder text) homeRecordArgs "/home/out" text := by
  refine launched_recorderFor (by decide +kernel) (by decide +kernel) (by decide +kernel) ?_ (by decide +kernel) ?_
    text
  · decide +kernel
  · intro settings timeRun
    rw [Recorder.timeInfoCmd]
    by_cases hsettings : settings = ""
    · subst hsettings
      cases timeRun <;> decide +kernel
    · rw [if_pos hsettings]
      cases timeRun <;> decide +kernel

def emptyFiles : Files String := fun _ => none

def regionText (timeRun : Bool) (k : ℕ) : String :=
  if timeRun then "<r><point label='f'><time>" ++ toString k ++ "</time></point></r>" else "<r/>"

theorem record_directory_home : ∃ s, (homeRecorder regionText).record emptyFiles homeRecordArgs = .ok s ∧
    s.commands = recordedCommands (homeRecorder regionText) homeRecordArgs ∧
    Lists (dirFiles s.files "/home/out") (recordedEntries (homeRecorder regionText) homeRecordArgs regionText
      [("f", [1, 2])]) := by
  have hcollect : collectTimes (homeRecorder regionText).host.py (analysedTexts homeRecordArgs regionText) =
      .ok [("f", [1, 2])] := by decide +kernel
  have hempty : ∀ name, emptyFiles ("/home/out", name) = none := fun _ => rfl
  obtain ⟨herror, hleft⟩ := record_directory (launched_homeRecorder regionText) hempty rfl
  cases hs : (homeRecorder regionText).record emptyFiles homeRecordArgs with
  | error e =>
    have hfail := (herror e).mp hs
    rw [hcollect] at hfail
    cases hfail
  | ok s =>
    obtain ⟨dict, hdict, hend⟩ := hleft s hs
    obtain rfl := Except.ok.inj (hcollect.symm.trans hdict)
    exact ⟨s, rfl, hend.1, hend.2.1⟩

end Roofline.Correctness
