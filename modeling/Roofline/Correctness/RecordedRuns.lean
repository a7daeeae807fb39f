import Roofline.Client.Output
import Roofline.Correctness.ReportedAgain
import Roofline.Report.Record

/-! What record leaves in its output directory, and the commands it has run. -/
namespace Roofline.Correctness
open Library Report
variable {D F : Type}

def dirFiles (files : Files D) (d : D) : String → Option Node := fun name => files (d, name)

def clientFile (timeRun : Bool) : String := if timeRun then "roofline_time.xml" else "roofline.xml"

def timeFile (i : ℕ) : String := "roofline_time_" ++ toString i ++ ".xml"

def runOptions (args : RecordArgs) (outDir : String) (timeRun : Bool) : List String :=
  args.clientOptions outDir ++ if timeRun then ["--time_run"] else []

def runCmd (rec : Recorder D F) (args : RecordArgs) (timeRun : Bool) : String :=
  rec.clientCmd args.appWithFlags (runOptions args (rec.outDir args) timeRun)

section measure
variable {rec : Recorder D F}

private theorem measure_snoc (cmd : String) (n : ℕ) (s : Session D) : rec.measure cmd (n + 1) s =
    (rec.call cmd (rec.measure cmd n s).1,
      (rec.measure cmd n s).2 ++ [rec.elapsed (rec.measure cmd n s).1.commands.length]) := by
  rw [Recorder.measure, List.range_succ, List.foldl_append]
  rfl

private theorem measure_eq (cmd : String) (n : ℕ) (s : Session D) :
    (rec.measure cmd n s).1.commands = s.commands ++ List.replicate n cmd ∧
      (rec.measure cmd n s).2 = (List.range n).map fun i => rec.elapsed (s.commands.length + i) := by
  induction n with
  | zero => exact ⟨(List.append_nil _).symm, rfl⟩
  | succ n ih =>
    obtain ⟨hcommands, htimes⟩ := ih
    rw [measure_snoc, htimes, hcommands]
    constructor
    · rw [Recorder.call, hcommands, List.replicate_succ', List.append_assoc]
    · rw [List.range_succ, List.map_append, List.length_append, List.length_replicate]
      rfl

private theorem timeInfoCmd_native (app : String) : Recorder.timeInfoCmd app "" = " ./" ++ app := by
  rw [Recorder.timeInfoCmd, if_neg (not_not.mpr rfl), String.empty_append]

private theorem timeInfoCmd_drrun (app : String) : Recorder.timeInfoCmd app rec.drrun = "./" ++ app := by
  have hdrrun : rec.drrun ≠ "" := by
    rw [Recorder.drrun, Ne, String.append_eq_empty_iff]
    exact fun h => absurd h.2 (by decide)
  rw [Recorder.timeInfoCmd, if_pos hdrrun]

end measure

/-- The rows of the table of regions, and of a table of whole runs. -/
def roiRows (format : F → String) (dict : Groups String F) : List (List String) :=
  dict.flatMap fun l => [l.1] :: l.2.map fun elem => [format elem]

def runRows (format : F → String) (times : List F) : List (List String) :=
  ["time"] :: times.map fun elem => [format elem]

def tableText (rows : List (List String)) : String := String.join (rows.map csvRow)

theorem readTable_tableText {rows : List (List String)} (hrows : ∀ row ∈ rows, row ≠ []) :
    Csv.readTable (tableText rows).toList = some (rows.map (·.map String.toList)) := by
  have htext : (tableText rows).toList = Csv.writeTable (rows.map (·.map String.toList)) := by
    induction rows with
    | nil => rfl
    | cons row rows ih =>
      rw [List.forall_mem_cons] at hrows
      rw [tableText, List.map_cons, String.join_cons, String.toList_append, ← tableText, ih hrows.2, csvRow,
        String.toList_ofList]
      rfl
  rw [htext, Csv.readTable_writeTable]
  intro row hrow
  obtain ⟨fields, hfields, rfl⟩ := List.mem_map.mp hrow
  exact fun hnil => hrows fields hfields (List.map_eq_nil_iff.mp hnil)

variable [DecidableEq D]

/-- What the commands of record do in the output directory: run number k of the client writes its text, and the
application on its own writes nothing there. -/
structure Launched (rec : Recorder D F) (args : RecordArgs) (d : D) (text : Bool → ℕ → String) : Prop where
  outDir : rec.host.dirOf (rec.outDir args) = some d
  slashed : rec.host.dirOf (rec.outDir args ++ "/") = some d
  client : ∀ (timeRun : Bool) (k : ℕ) (files : Files D) (x : Location D),
    rec.host.locate (Client.outFileName timeRun (rec.outDir args)) = some x →
      dirFiles (rec.launch k (runCmd rec args timeRun) files) d = dirFiles (withText files x (text timeRun k)) d
  application : ∀ (k : ℕ) (settings : String) (files : Files D),
    dirFiles (rec.launch k (Recorder.timeInfoCmd args.appWithFlags settings) files) d = dirFiles files d

/-- The commands of record write nothing in a directory. -/
structure Spares (rec : Recorder D F) (args : RecordArgs) (d : D) : Prop where
  client : ∀ (timeRun : Bool) (k : ℕ) (files : Files D),
    dirFiles (rec.launch k (runCmd rec args timeRun) files) d = dirFiles files d
  application : ∀ (k : ℕ) (settings : String) (files : Files D),
    dirFiles (rec.launch k (Recorder.timeInfoCmd args.appWithFlags settings) files) d = dirFiles files d

section files
variable {host : Host D F} {files files' : Files D} {d : D} {name path : String}

private theorem dirFiles_withText (files : Files D) (d : D) (name text : String) :
    dirFiles (withText files (d, name) text) d = Function.update (dirFiles files d) name (some (.file text)) := by
  funext other
  by_cases hname : other = name
  · rw [hname, Function.update_self]
    exact withText_self _ _ _
  · have hne : ((d, other) : Location D) ≠ (d, name) := fun h => hname (congrArg Prod.snd h)
    rw [Function.update_of_ne hname]
    exact withText_of_ne files hne text

/-- A write in another directory. -/
theorem dirFiles_withText_of_ne (files : Files D) {d d' : D} (hd : d' ≠ d) (name text : String) :
    dirFiles (withText files (d, name) text) d' = dirFiles files d' := by
  funext other
  exact withText_of_ne files (fun h => hd (congrArg Prod.fst h)) text

theorem writeFile_dir (hpath : host.locate path = some (d, name)) (hnode : dirFiles files d name ≠ some .directory)
    (text : String) : ∃ files', host.writeFile files path text = .ok files' ∧
      dirFiles files' d = Function.update (dirFiles files d) name (some (.file text)) ∧
      ∀ d' ≠ d, dirFiles files' d' = dirFiles files d' :=
  ⟨_, writeFile_ok hpath hnode text, dirFiles_withText files d name text,
    fun _ hd => dirFiles_withText_of_ne files hd name text⟩

/-- A file that is moved within a directory. -/
theorem move_dir {src dst name' text : String} (hsrc : host.locate src = some (d, name))
    (hdst : host.locate dst = some (d, name')) (htext : dirFiles files d name = some (.file text))
    (hnode : dirFiles files d name' ≠ some .directory) :
    ∃ files', host.move files src dst = .ok files' ∧ dirFiles files' d =
        Function.update (Function.update (dirFiles files d) name none) name' (some (.file text)) ∧
      ∀ d' ≠ d, dirFiles files' d' = dirFiles files d' := by
  have hfile : host.isDir files dst = false := by
    rw [Host.isDir, hdst, Option.any_some, decide_eq_false_iff_not]
    exact hnode
  have htext' : files (d, name) = some (.file text) := htext
  refine ⟨(Write.put (d, name') (.file text)).apply fun z => if z = (d, name) then none else files z, ?_, ?_, ?_⟩
  · unfold Host.move
    simp only [hfile, Bool.false_and, Bool.false_eq_true, if_false, hsrc, hdst, htext']
  · funext other
    by_cases hdst : other = name'
    · rw [hdst, Function.update_self]
      exact if_pos rfl
    · have hne : ((d, other) : Location D) ≠ (d, name') := fun h => hdst (congrArg Prod.snd h)
      rw [Function.update_of_ne hdst]
      refine (if_neg hne).trans ?_
      by_cases hsrc : other = name
      · rw [hsrc, Function.update_self]
        exact if_pos rfl
      · rw [Function.update_of_ne hsrc]
        exact if_neg fun h => hsrc (congrArg Prod.snd h)
  · intro d' hd
    funext other
    have hne (name : String) : ((d', other) : Location D) ≠ (d, name) := fun h => hd (congrArg Prod.fst h)
    exact (if_neg (hne name')).trans (if_neg (hne name))

end files

section tables
variable {host : Host D F}

private theorem saveTimePointStatistics_eq (files : Files D) (dict : Groups String F) (fileName : String) :
    host.saveTimePointStatistics files dict fileName =
      host.writeFile files fileName (tableText (roiRows host.format dict)) := by
  rw [Host.saveTimePointStatistics, tableText, roiRows, List.map_flatMap]
  simp only [List.map_cons, List.map_map]
  rfl

private theorem saveTimeStatistics_eq (files : Files D) (times : List F) (fileName : String) :
    host.saveTimeStatistics files times fileName =
      host.writeFile files fileName (tableText (runRows host.format times)) := by
  rw [Host.saveTimeStatistics, tableText, runRows, List.map_cons, List.map_map]
  rfl

private theorem update_ne_directory {dir : String → Option Node} (hdir : ∀ name, dir name ≠ some .directory)
    (at' text name : String) : Function.update dir at' (some (.file text)) name ≠ some .directory := by
  rw [Function.update_apply]
  split_ifs
  · simp
  · exact hdir name

end tables

section session
variable {rec : Recorder D F} {args : RecordArgs} {d : D} {text : Bool → ℕ → String} {s : Session D}

theorem Launched.locate (h : Launched rec args d text) (name : String) (hname : '/' ∉ name.toList) :
    rec.host.locate (rec.outDir args ++ name) = some (d, name) := by
  have hdir := h.outDir
  rw [Recorder.outDir] at hdir ⊢
  rw [locate_file _ hname, hdir]
  rfl

private theorem Launched.locate_slash (h : Launched rec args d text) {name path : String} (hpath : path = "/" ++ name)
    (hname : '/' ∉ name.toList) : rec.host.locate (rec.outDir args ++ path) = some (d, name) := by
  rw [locate_name _ hpath hname, h.slashed]
  rfl

private theorem Launched.locate_outFileName (h : Launched rec args d text) (timeRun : Bool) :
    rec.host.locate (Client.outFileName timeRun (rec.outDir args)) = some (d, clientFile timeRun) := by
  cases timeRun with
  | false => exact h.locate_slash rfl (by decide)
  | true => exact h.locate_slash rfl (by decide)

/-- A session whose output directory and commands are as given. The directories that the commands spare are still
those from which record has begun. -/
structure Leaves (rec : Recorder D F) (args : RecordArgs) (begun : Files D) (d : D) (dir : String → Option Node)
    (commands : List String) (s : Session D) : Prop where
  files : dirFiles s.files d = dir
  spared : ∀ d' ≠ d, Spares rec args d' → dirFiles s.files d' = dirFiles begun d'
  commands : s.commands = commands

variable {begun : Files D} {dir : String → Option Node} {commands : List String}

theorem Leaves.runClient (h : Launched rec args d text) (hs : Leaves rec args begun d dir commands s)
    (timeRun : Bool) :
    Leaves rec args begun d (Function.update dir (clientFile timeRun) (some (.file (text timeRun commands.length))))
      (commands ++ [runCmd rec args timeRun]) (rec.call (runCmd rec args timeRun) s) := by
  constructor
  · rw [Recorder.call, hs.commands]
    refine (h.client timeRun _ s.files _ (h.locate_outFileName timeRun)).trans ?_
    rw [dirFiles_withText, hs.files]
  · intro d' hd hspares
    exact (hspares.client timeRun _ s.files).trans (hs.spared d' hd hspares)
  · rw [Recorder.call, hs.commands]

theorem Leaves.application (h : Launched rec args d text) (hs : Leaves rec args begun d dir commands s)
    (settings : String) :
    Leaves rec args begun d dir (commands ++ [Recorder.timeInfoCmd args.appWithFlags settings])
      (rec.call (Recorder.timeInfoCmd args.appWithFlags settings) s) := by
  constructor
  · exact (h.application _ settings s.files).trans hs.files
  · intro d' hd hspares
    exact (hspares.application _ settings s.files).trans (hs.spared d' hd hspares)
  · rw [Recorder.call, hs.commands]

/-- A directory behind some runs for the times, each of which has been moved. -/
def movedTimes (text : ℕ → String) (dir : String → Option Node) : ℕ → String → Option Node
  | 0 => dir
  | n + 1 => Function.update (Function.update (movedTimes text dir n) "roofline_time.xml" none) (timeFile n)
      (some (.file (text n)))

private theorem slash_notMem_timeFile (i : ℕ) : '/' ∉ (timeFile i).toList := by
  rw [timeFile, String.toList_append, String.toList_append, List.mem_append, List.mem_append, not_or, not_or]
  refine ⟨⟨by decide, fun hi => ?_⟩, by decide⟩
  exact absurd (isDigit_numeral hi) (by decide)

theorem timeFile_ne {name : String} (h : ¬ "roofline_time_".toList <+: name.toList) (i : ℕ) : timeFile i ≠ name := by
  rintro rfl
  apply h
  rw [timeFile, String.toList_append, String.toList_append, List.append_assoc]
  exact List.prefix_append _ _

theorem timeFile_inj {i j : ℕ} : timeFile i = timeFile j ↔ i = j := by
  rw [timeFile, timeFile, String.append_left_inj, numeral_inj]

private theorem movedTimes_timeFile (texts : ℕ → String) (dir : String → Option Node) {i n : ℕ} (hi : i < n) :
    movedTimes texts dir n (timeFile i) = some (.file (texts i)) := by
  induction n with
  | zero => exact absurd hi (Nat.not_lt_zero i)
  | succ n ih =>
    rw [movedTimes, Function.update_apply]
    split_ifs with hlast
    · rw [timeFile_inj.mp hlast]
    · have hlt : i < n := by
        rw [timeFile_inj] at hlast
        omega
      rw [Function.update_of_ne (timeFile_ne (by decide) i), ih hlt]

private theorem movedTimes_ne_directory (texts : ℕ → String) (hdir : ∀ name, dir name ≠ some .directory) (n : ℕ)
    (name : String) : movedTimes texts dir n name ≠ some .directory := by
  induction n with
  | zero => exact hdir name
  | succ n ih =>
    rw [movedTimes, Function.update_apply, Function.update_apply]
    split_ifs
    · simp
    · simp
    · exact ih

/-- The first loop of the analysis. -/
theorem Leaves.runTimes (h : Launched rec args d text) (hs : Leaves rec args begun d dir commands s)
    (hdir : ∀ name, dir name ≠ some .directory) (n : ℕ) :
    ∃ s', rec.runTimes args.appWithFlags (runOptions args (rec.outDir args) true) (rec.outDir args) n s = .ok s' ∧
      Leaves rec args begun d (movedTimes (fun i => text true (commands.length + i)) dir n)
        (commands ++ List.replicate n (runCmd rec args true)) s' := by
  induction n with
  | zero =>
    refine ⟨s, rfl, ?_⟩
    rw [List.replicate_zero, List.append_nil]
    exact hs
  | succ n ih =>
    obtain ⟨mid, hmid, hleaves⟩ := ih
    have hrun := hleaves.runClient h true
    rw [List.length_append, List.length_replicate] at hrun
    have htime : dirFiles (rec.call (runCmd rec args true) mid).files d "roofline_time.xml" =
        some (.file (text true (commands.length + n))) := by
      rw [hrun.files]
      exact Function.update_self _ _ _
    have hfree : dirFiles (rec.call (runCmd rec args true) mid).files d (timeFile n) ≠ some .directory := by
      rw [hrun.files, Function.update_apply]
      split_ifs
      · simp
      · exact movedTimes_ne_directory _ hdir n _
    obtain ⟨moved, hmove, hmoved, helsewhere⟩ := move_dir (h.locate "roofline_time.xml" (by decide))
      (h.locate _ (slash_notMem_timeFile n)) htime hfree
    refine ⟨⟨moved, (rec.call (runCmd rec args true) mid).commands⟩, ?_, ?_, ?_, ?_⟩
    · rw [Recorder.runTimes, List.range_succ, List.foldlM_append, ← Recorder.runTimes, hmid, ok_bind]
      rw [timeFile, ← String.append_assoc, ← String.append_assoc] at hmove
      rw [List.foldlM_cons]
      dsimp only [Recorder.runClient]
      rw [← runCmd, hmove, ok_bind]
      rfl
    · rw [hmoved, hrun.files, movedTimes, clientFile, if_pos rfl, Function.update_idem]
    · intro d' hd hspares
      exact (helsewhere d' hd).trans (hrun.spared d' hd hspares)
    · rw [hrun.commands, List.replicate_succ', List.append_assoc]

private theorem Leaves.measureApplication (h : Launched rec args d text) (hs : Leaves rec args begun d dir commands s)
    (settings : String) (n : ℕ) : ∃ s', rec.measure (Recorder.timeInfoCmd args.appWithFlags settings) n s =
        (s', (List.range n).map fun i => rec.elapsed (commands.length + i)) ∧
      Leaves rec args begun d dir
        (commands ++ List.replicate n (Recorder.timeInfoCmd args.appWithFlags settings)) s' := by
  refine ⟨_, Prod.ext rfl ?_, ?_⟩
  · rw [← hs.commands]
    exact (measure_eq _ n s).2
  · induction n with
    | zero =>
      rw [List.replicate_zero, List.append_nil]
      exact hs
    | succ n ih =>
      rw [measure_snoc, List.replicate_succ', ← List.append_assoc]
      exact ih.application h settings

/-- Of several runs of the client, the last one remains. -/
theorem Leaves.measureClient (h : Launched rec args d text) (hs : Leaves rec args begun d dir commands s) (n : ℕ) :
    ∃ s', rec.measure (runCmd rec args true) (n + 1) s =
        (s', (List.range (n + 1)).map fun i => rec.elapsed (commands.length + i)) ∧
      Leaves rec args begun d
        (Function.update dir "roofline_time.xml" (some (.file (text true (commands.length + n)))))
        (commands ++ List.replicate (n + 1) (runCmd rec args true)) s' := by
  refine ⟨_, Prod.ext rfl ?_, ?_⟩
  · rw [← hs.commands]
    exact (measure_eq _ (n + 1) s).2
  · induction n with
    | zero =>
      rw [measure_snoc]
      exact hs.runClient h true
    | succ n ih =>
      have hrun := ih.runClient h true
      rw [clientFile, if_pos rfl, Function.update_idem, List.length_append, List.length_replicate, List.append_assoc,
        ← List.replicate_succ'] at hrun
      rw [measure_snoc]
      exact hrun

/-- A file that is written at the end. -/
theorem Leaves.writeFile (h : Launched rec args d text) (hs : Leaves rec args begun d dir commands s) (name : String)
    (hname : '/' ∉ name.toList) (hnode : dir name ≠ some .directory) (content : String) :
    ∃ files', rec.host.writeFile s.files (rec.outDir args ++ name) content = .ok files' ∧
      Leaves rec args begun d (Function.update dir name (some (.file content))) commands ⟨files', s.commands⟩ := by
  have hfree : dirFiles s.files d name ≠ some .directory := by
    rw [hs.files]
    exact hnode
  obtain ⟨files', hwrite, hfiles', helsewhere⟩ := writeFile_dir (h.locate name hname) hfree content
  refine ⟨files', hwrite, hfiles'.trans (by rw [hs.files]), ?_, hs.commands⟩
  intro d' hd hspares
  exact (helsewhere d' hd).trans (hs.spared d' hd hspares)

/-- The tables that are written at the end of an analysis. -/
theorem Leaves.writeTables (h : Launched rec args d text) (hs : Leaves rec args begun d dir commands s)
    (hdir : ∀ name, dir name ≠ some .directory) (roi native dynamorio client : String) :
    ∃ files', (do
        let files ← rec.host.writeFile s.files (rec.outDir args ++ "roi_runtime.csv") roi
        let files ← rec.host.writeFile files (rec.outDir args ++ "native_runtime.csv") native
        let files ← rec.host.writeFile files (rec.outDir args ++ "dynamorio_runtime.csv") dynamorio
        let files ← rec.host.writeFile files (rec.outDir args ++ "dynamorio_and_client_runtime.csv") client
        (.ok ⟨files, s.commands⟩ : Except ReportError (Session D))) = .ok ⟨files', s.commands⟩ ∧
      Leaves rec args begun d (Function.update (Function.update (Function.update (Function.update dir
        "roi_runtime.csv" (some (.file roi))) "native_runtime.csv" (some (.file native)))
        "dynamorio_runtime.csv" (some (.file dynamorio)))
        "dynamorio_and_client_runtime.csv" (some (.file client))) commands ⟨files', s.commands⟩ := by
  have hdir₁ := update_ne_directory hdir "roi_runtime.csv" roi
  have hdir₂ := update_ne_directory hdir₁ "native_runtime.csv" native
  have hdir₃ := update_ne_directory hdir₂ "dynamorio_runtime.csv" dynamorio
  obtain ⟨files₁, hwrite₁, hs₁⟩ := hs.writeFile h "roi_runtime.csv" (by decide) (hdir _) roi
  obtain ⟨files₂, hwrite₂, hs₂⟩ := hs₁.writeFile h "native_runtime.csv" (by decide) (hdir₁ _) native
  obtain ⟨files₃, hwrite₃, hs₃⟩ := hs₂.writeFile h "dynamorio_runtime.csv" (by decide) (hdir₂ _) dynamorio
  obtain ⟨files₄, hwrite₄, hs₄⟩ := hs₃.writeFile h "dynamorio_and_client_runtime.csv" (by decide) (hdir₃ _) client
  refine ⟨files₄, ?_, hs₄⟩
  rw [hwrite₁, ok_bind, hwrite₂, ok_bind, hwrite₃, ok_bind, hwrite₄, ok_bind]

/-- The times in the texts of some files, collected under their labels. -/
def collectTimes (py : Python F) (texts : List String) : Except ReportError (Groups String F) :=
  texts.foldlM (fun dict text => do
    let rootTime ← (orRaise (Xml.parse text) .parseError).mapError .python
    (py.addTimes dict rootTime).mapError .python) []

private theorem foldlM_congr {ε α β γ : Type} {f : γ → α → Except ε γ} {g : γ → β → Except ε γ} {t : α → β}
    {xs : List α}
    (hstep : ∀ x ∈ xs, ∀ c, f c x = g c (t x)) (c : γ) : xs.foldlM f c = (xs.map t).foldlM g c := by
  induction xs generalizing c with
  | nil => rfl
  | cons x xs ih =>
    rw [List.forall_mem_cons] at hstep
    rw [List.map_cons, List.foldlM_cons, List.foldlM_cons, hstep.1]
    cases g c (t x) with
    | error e => rfl
    | ok c' => exact ih hstep.2 c'

/-- The dictionary is made of the texts that the files hold. -/
theorem timeDict_eq (h : Launched rec args d text) (files : Files D) {texts : ℕ → String} {n : ℕ}
    (htexts : ∀ i < n, dirFiles files d (timeFile i) = some (.file (texts i))) :
    rec.host.timeDict files (rec.outDir args) n = collectTimes rec.host.py ((List.range n).map texts) := by
  rw [Host.timeDict, collectTimes]
  apply foldlM_congr
  intro i hi dict
  have hpath : "/roofline_time_" ++ toString i ++ ".xml" = "/" ++ timeFile i := by
    rw [timeFile, ← String.append_assoc, ← String.append_assoc]
    rfl
  have hread : rec.host.readFile files (rec.outDir args ++ "/roofline_time_" ++ toString i ++ ".xml") =
      .ok (texts i) := by
    have hwhole : rec.outDir args ++ "/roofline_time_" ++ toString i ++ ".xml" =
        rec.outDir args ++ ("/roofline_time_" ++ toString i ++ ".xml") := by simp only [String.append_assoc]
    rw [hwhole, readFile_eq_ok (h.locate_slash hpath (slash_notMem_timeFile i))]
    exact htexts i (List.mem_range.mp hi)
  rw [Host.parseFile, hread, ok_bind]

/-- The output directory behind an analysis, in the order in which its files were written. -/
def analysedDir (rec : Recorder D F) (text : Bool → ℕ → String) (dir : String → Option Node) (k n : ℕ)
    (dict : Groups String F) : String → Option Node :=
  Function.update (Function.update (Function.update (Function.update (Function.update
    (movedTimes (fun i => text true (k + i)) dir n)
    "roofline_time.xml" (some (.file (text true (k + 4 * n - 1)))))
    "roi_runtime.csv" (some (.file (tableText (roiRows rec.host.format dict)))))
    "native_runtime.csv" (some (.file (tableText (runRows rec.host.format
      ((List.range n).map fun i => rec.elapsed (k + n + i)))))))
    "dynamorio_runtime.csv" (some (.file (tableText (runRows rec.host.format
      ((List.range n).map fun i => rec.elapsed (k + 2 * n + i)))))))
    "dynamorio_and_client_runtime.csv" (some (.file (tableText (runRows rec.host.format
      ((List.range n).map fun i => rec.elapsed (k + 3 * n + i))))))

def analysisCommands (rec : Recorder D F) (args : RecordArgs) (n : ℕ) : List String :=
  List.replicate n (runCmd rec args true) ++ List.replicate n (" ./" ++ args.appWithFlags) ++
    List.replicate n ("./" ++ args.appWithFlags) ++ List.replicate n (runCmd rec args true)

theorem Leaves.runTimeAnalysis (h : Launched rec args d text) (hs : Leaves rec args begun d dir commands s)
    (hdir : ∀ name, dir name ≠ some .directory) {n : ℕ} (hn : 0 < n) :
    (∀ e, collectTimes rec.host.py ((List.range n).map fun i => text true (commands.length + i)) = .error e →
      rec.runTimeAnalysis args.appWithFlags (runOptions args (rec.outDir args) true) (rec.outDir args) n s =
        .error e) ∧
    ∀ dict, collectTimes rec.host.py ((List.range n).map fun i => text true (commands.length + i)) = .ok dict →
      ∃ s', rec.runTimeAnalysis args.appWithFlags (runOptions args (rec.outDir args) true) (rec.outDir args) n s =
          .ok s' ∧
        Leaves rec args begun d (analysedDir rec text dir commands.length n dict)
          (commands ++ analysisCommands rec args n) s' := by
  obtain ⟨s₁, hruns, hs₁⟩ := hs.runTimes h hdir n
  have hmoved : ∀ i < n, dirFiles s₁.files d (timeFile i) = some (.file (text true (commands.length + i))) := by
    intro i hi
    rw [hs₁.files]
    exact movedTimes_timeFile _ _ hi
  unfold Recorder.runTimeAnalysis
  rw [hruns, ok_bind, timeDict_eq h s₁.files hmoved]
  constructor
  · intro e he
    rw [he]
    rfl
  · intro dict hok
    obtain ⟨m, rfl⟩ : ∃ m, n = m + 1 := ⟨n - 1, by omega⟩
    obtain ⟨s₂, hm₂, hs₂⟩ := hs₁.measureApplication h "" (m + 1)
    obtain ⟨s₃, hm₃, hs₃⟩ := hs₂.measureApplication h rec.drrun (m + 1)
    obtain ⟨s₄, hm₄, hs₄⟩ := hs₃.measureClient h m
    have hdir₁ := movedTimes_ne_directory (fun i => text true (commands.length + i)) hdir (m + 1)
    obtain ⟨files', hwrite, hleaves⟩ := hs₄.writeTables h (update_ne_directory hdir₁ _ _)
      (tableText (roiRows rec.host.format dict)) (tableText (runRows rec.host.format _))
      (tableText (runRows rec.host.format _)) (tableText (runRows rec.host.format _))
    refine ⟨⟨files', s₄.commands⟩, ?_, ?_⟩
    · rw [runCmd] at hm₄
      simp only [hok, ok_bind, hm₂, hm₃, hm₄, saveTimePointStatistics_eq, saveTimeStatistics_eq]
      exact hwrite
    · -- where the loops start, counted in commands
      have hlast : commands.length + (m + 1) + (m + 1) + (m + 1) + m = commands.length + 4 * (m + 1) - 1 := by omega
      have hthird : commands.length + (m + 1) + (m + 1) + (m + 1) = commands.length + 3 * (m + 1) := by omega
      have hsecond : commands.length + (m + 1) + (m + 1) = commands.length + 2 * (m + 1) := by omega
      simp only [List.length_append, List.length_replicate, timeInfoCmd_native, timeInfoCmd_drrun] at hleaves
      rw [hlast, hthird, hsecond] at hleaves
      rw [analysisCommands, ← List.append_assoc, ← List.append_assoc, ← List.append_assoc]
      exact hleaves

end session
end Roofline.Correctness
