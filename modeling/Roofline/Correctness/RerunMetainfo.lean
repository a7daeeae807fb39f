import Roofline.Correctness.SavedRuns
import Roofline.Correctness.PlottedSeries

/-! The metainformation of a report that is run again. The output directory may be one of the
input directories, and then its file is read and replaced. -/
namespace Roofline.Correctness
open Library Report
open Library.Xml (Element writeTree)

section files
variable {D F : Type} {host : Host D F} {files : Files D} {inDir outDir : String} {runs : List SavedRun}
  {y : Location D}

def metaPath (dir : String) : String := dir ++ "/roofline_meta.xml"

/-- A directory whose file says what record saves about one run. -/
def Recorded (host : Host D F) (files : Files D) (inDir : String) (r : SavedRun) : Prop :=
  host.parseFile files (metaPath inDir) = .ok (metainfo [r])

/-- A directory whose file, if it can be read, says what record saves about one run. -/
def Saved (host : Host D F) (files : Files D) (inDir : String) (r : SavedRun) : Prop :=
  ∀ e, host.parseFile files (metaPath inDir) = .ok e → e = metainfo [r]

def applications (host : Host D F) (files : Files D) (dir : String) : Except ReportError (List Element) :=
  (host.parseFile files (metaPath dir)).map fun root => root.children.filter fun e => e.tag = "application"

theorem parseFile_eq_ok {path : String} {e : Element} (hy : host.locate path = some y) :
    host.parseFile files path = .ok e ↔ ∃ text, files y = some (.file text) ∧ Xml.parse text = some e := by
  have hparse (text : String) : (orRaise (Xml.parse text) .parseError).mapError ReportError.python = .ok e ↔
      Xml.parse text = some e := by
    cases Xml.parse text <;> simp [orRaise, Except.mapError]
  rw [Host.parseFile, bind_eq_ok]
  simp only [readFile_eq_ok hy, hparse]

private theorem parseFile_located {path : String} {e : Element} (h : host.parseFile files path = .ok e) :
    ∃ y, host.locate path = some y := by
  cases hy : host.locate path with
  | none =>
    rw [Host.parseFile, Host.readFile, hy] at h
    cases h
  | some y => exact ⟨y, rfl⟩

private theorem valid_of_parseFile {path : String} (h : host.parseFile files path = .ok (metainfo runs)) :
    ∀ r ∈ runs, r.Valid := by
  obtain ⟨y, hy⟩ := parseFile_located h
  obtain ⟨text, -, hparse⟩ := (parseFile_eq_ok hy).mp h
  exact valid_of_parse hparse

private theorem applications_eq_ok {dir : String} {runs' : List SavedRun}
    (h : host.parseFile files (metaPath dir) = .ok (metainfo runs)) :
    applications host files dir = .ok (runs'.map SavedRun.application) ↔ runs = runs' := by
  have hmap : Function.Injective SavedRun.application := fun _ _ => application_injective
  rw [applications, h, Except.map, applications_metainfo, Except.ok.injEq, (List.map_injective_iff.mpr hmap).eq_iff]

private theorem getAppTitle_metainfo {r : SavedRun} {rs rs' : List SavedRun} {files' : Files D} {inDir' : String}
    (h : host.parseFile files (metaPath inDir) = .ok (metainfo (r :: rs)))
    (h' : host.parseFile files' (metaPath inDir') = .ok (metainfo (r :: rs'))) :
    host.getAppTitle files inDir = host.getAppTitle files' inDir' := by
  rw [Host.getAppTitle, ← metaPath, h, ok_bind, Host.getAppTitle, ← metaPath, h', ok_bind]
  rfl

private theorem appendApplication_metainfo (runs rs : List SavedRun) (r : SavedRun) :
    appendApplication (metainfo runs) (metainfo (r :: rs)) = .ok (metainfo (runs ++ [r])) := by
  simp [appendApplication, metainfo, SavedRun.application]

/-- The file of an input directory is the one that is written. -/
def Aliases (host : Host D F) (outDir inDir : String) : Prop :=
  host.locate (metaPath inDir) = host.locate (metaPath outDir)

variable [DecidableEq D]

instance (inDir : String) : Decidable (Aliases host outDir inDir) := inferInstanceAs (Decidable (_ = _))

/-- A directory is recorded if record has saved a run there that needs no escaping. -/
theorem recorded_saveMetaInformation {r : SavedRun} (hr : r.Printable) {files' : Files D}
    (h : host.saveMetaInformation files r.name r.time (inDir ++ "/") = .ok files') :
    Recorded host files' inDir r ↔ ∀ l ∈ r.leaves, Xml.PlainContent l.2 := by
  have hpath : inDir ++ "/" ++ "roofline_meta.xml" = metaPath inDir := by
    rw [metaPath, String.append_assoc]
    rfl
  rw [Host.saveMetaInformation, hpath] at h
  rw [← parse_metaText_iff hr, Recorded]
  cases hy : host.locate (metaPath inDir) with
  | none =>
    rw [Host.writeFile, hy] at h
    cases h
  | some y =>
    rw [Host.writeFile, hy] at h
    simp only at h
    split_ifs at h
    obtain rfl := Except.ok.inj h
    rw [parseFile_eq_ok hy]
    simp [Write.apply]

/-- The file of a directory behind a write to that of the output directory. -/
theorem parseFile_put (hy : host.locate (metaPath outDir) = some y) {text : String} {e : Element}
    (hparse : Xml.parse text = some e) {dir : String} {e' : Element}
    (hdir : host.parseFile files (metaPath dir) = .ok e') :
    host.parseFile ((Write.put y (.file text)).apply files) (metaPath dir) =
      .ok (if Aliases host outDir dir then e else e') := by
  obtain ⟨z, hz⟩ := parseFile_located hdir
  have hsame : Aliases host outDir dir ↔ z = y := by rw [Aliases, hz, hy, Option.some_inj]
  rw [parseFile_eq_ok hz]
  split_ifs with halias
  · exact ⟨text, if_pos (hsame.mp halias), hparse⟩
  · obtain ⟨text', htext', hparse'⟩ := (parseFile_eq_ok hz).mp hdir
    refine ⟨text', ?_, hparse'⟩
    rw [Write.apply_of_ne (w := .put y _) files fun h => halias (hsame.mpr h), htext']

/-- The applications of the first directory, and the first application of each other one, are written. -/
theorem getAndSaveMetainfo_eq {first : String} {others : List String} {heads : List SavedRun}
    (hfirst : host.parseFile files (metaPath first) = .ok (metainfo runs))
    (hothers : List.Forall₂ (fun dir r => ∃ rs, host.parseFile files (metaPath dir) = .ok (metainfo (r :: rs)))
      others heads) :
    host.getAndSaveMetainfo files first others outDir =
      host.writeFile files (metaPath outDir) (writeTree (metainfo (runs ++ heads))) := by
  have hloop : others.foldlM (fun root inDir => do
      let rootIt ← host.parseFile files (inDir ++ "/roofline_meta.xml")
      appendApplication root rootIt) (metainfo runs) = .ok (metainfo (runs ++ heads)) := by
    clear hfirst
    induction hothers generalizing runs with
    | nil => rw [List.append_nil]; rfl
    | cons hdir _ ih =>
      obtain ⟨rs, hdir⟩ := hdir
      rw [List.foldlM_cons, ← metaPath, hdir, ok_bind, appendApplication_metainfo, ok_bind, ih, List.append_assoc]
      rfl
  rw [Host.getAndSaveMetainfo, ← metaPath, hfirst, ok_bind, hloop, ok_bind]
  rfl

/-- What a write of some runs leaves in the files of directories. -/
theorem writeTree_metainfo (hy : host.locate (metaPath outDir) = some y) (hfile : files y ≠ some .directory)
    (hruns : ∀ r ∈ runs, r.Valid) :
    ∃ files', host.writeFile files (metaPath outDir) (writeTree (metainfo runs)) = .ok files' ∧
      files' y ≠ some .directory ∧
      host.parseFile files' (metaPath outDir) = .ok (metainfo (runs.map SavedRun.lineEnded)) ∧
      ∀ (dir : String) (e : Element), host.parseFile files (metaPath dir) = .ok e →
        host.parseFile files' (metaPath dir) =
          .ok (if Aliases host outDir dir then metainfo (runs.map SavedRun.lineEnded) else e) := by
  have hparse := parse_metainfo hruns
  refine ⟨(Write.put y (.file (writeTree (metainfo runs)))).apply files, ?_, ?_, ?_, ?_⟩
  · rw [Host.writeFile, hy]
    exact if_neg hfile
  · simp [Write.apply]
  · exact (parseFile_eq_ok hy).mpr ⟨_, if_pos rfl, hparse⟩
  · exact fun dir e hdir => parseFile_put hy hparse hdir

def secondRuns (host : Host D F) (outDir : String) (first : String × SavedRun) (others : List (String × SavedRun)) :
    List SavedRun :=
  (if Aliases host outDir first.1 then ((first :: others).map Prod.snd).map SavedRun.lineEnded else [first.2]) ++
    others.map fun p => if Aliases host outDir p.1 then first.2.lineEnded else p.2

/-- The first run, as the files of the input directories and of the output directory show it. -/
theorem firstRun (hy : host.locate (metaPath outDir) = some y) (hfile : files y ≠ some .directory)
    {first : String × SavedRun} {others : List (String × SavedRun)}
    (hrecorded : ∀ p ∈ first :: others, Recorded host files p.1 p.2) :
    ∃ files₁, host.getAndSaveMetainfo files first.1 (others.map Prod.fst) outDir = .ok files₁ ∧
      files₁ y ≠ some .directory ∧
      host.parseFile files₁ (metaPath outDir) =
        .ok (metainfo (((first :: others).map Prod.snd).map SavedRun.lineEnded)) ∧
      ∀ p ∈ first :: others, host.parseFile files₁ (metaPath p.1) = .ok (metainfo
        (if Aliases host outDir p.1 then ((first :: others).map Prod.snd).map SavedRun.lineEnded else [p.2])) := by
  have hruns : ∀ r ∈ (first :: others).map Prod.snd, r.Valid := by
    intro r hr
    obtain ⟨p, hp, rfl⟩ := List.mem_map.mp hr
    exact valid_of_parseFile (hrecorded p hp) p.2 List.mem_cons_self
  have hheads : List.Forall₂ (fun dir r => ∃ rs, host.parseFile files (metaPath dir) = .ok (metainfo (r :: rs)))
      (others.map Prod.fst) (others.map Prod.snd) := by
    rw [List.forall₂_map_left_iff, List.forall₂_map_right_iff, List.forall₂_same]
    exact fun p hp => ⟨[], hrecorded p (List.mem_cons_of_mem first hp)⟩
  obtain ⟨files₁, hwrite, hfile₁, hout, hdirs⟩ := writeTree_metainfo hy hfile hruns
  refine ⟨files₁, ?_, hfile₁, hout, ?_⟩
  · rw [getAndSaveMetainfo_eq (hrecorded first List.mem_cons_self) hheads]
    exact hwrite
  · intro p hp
    rw [hdirs p.1 _ (hrecorded p hp), apply_ite metainfo]

/-- Both runs; the second one reads what the first one has left. -/
theorem bothRuns (hy : host.locate (metaPath outDir) = some y) (hfile : files y ≠ some .directory)
    {first : String × SavedRun} {others : List (String × SavedRun)}
    (hrecorded : ∀ p ∈ first :: others, Recorded host files p.1 p.2) :
    ∃ files₁ files₂, host.getAndSaveMetainfo files first.1 (others.map Prod.fst) outDir = .ok files₁ ∧
      host.getAndSaveMetainfo files₁ first.1 (others.map Prod.fst) outDir = .ok files₂ ∧
      (∀ p ∈ first :: others, host.parseFile files₁ (metaPath p.1) = .ok (metainfo
        (if Aliases host outDir p.1 then ((first :: others).map Prod.snd).map SavedRun.lineEnded else [p.2]))) ∧
      host.parseFile files₁ (metaPath outDir) =
        .ok (metainfo (((first :: others).map Prod.snd).map SavedRun.lineEnded)) ∧
      host.parseFile files₂ (metaPath outDir) =
        .ok (metainfo ((secondRuns host outDir first others).map SavedRun.lineEnded)) := by
  obtain ⟨files₁, hrun₁, hfile₁, hout₁, hdirs₁⟩ := firstRun hy hfile hrecorded
  have hheads : List.Forall₂ (fun dir r => ∃ rs, host.parseFile files₁ (metaPath dir) = .ok (metainfo (r :: rs)))
      (others.map Prod.fst) (others.map fun p => if Aliases host outDir p.1 then first.2.lineEnded else p.2) := by
    rw [List.forall₂_map_left_iff, List.forall₂_map_right_iff, List.forall₂_same]
    intro p hp
    have hdir := hdirs₁ p (List.mem_cons_of_mem first hp)
    split_ifs at hdir ⊢
    · exact ⟨_, hdir⟩
    · exact ⟨[], hdir⟩
  have hvalid : ∀ p ∈ first :: others, p.2.Valid :=
    fun p hp => valid_of_parseFile (hrecorded p hp) p.2 List.mem_cons_self
  have hended := valid_of_parseFile hout₁
  have hruns : ∀ r ∈ secondRuns host outDir first others, r.Valid := by
    intro r hr
    rcases List.mem_append.mp hr with hr | hr
    · split_ifs at hr
      · exact hended r hr
      · rw [List.mem_singleton.mp hr]
        exact hvalid first List.mem_cons_self
    · obtain ⟨p, hp, rfl⟩ := List.mem_map.mp hr
      split_ifs
      · exact hended _ List.mem_cons_self
      · exact hvalid p (List.mem_cons_of_mem first hp)
  obtain ⟨files₂, hwrite, -, hout₂, -⟩ := writeTree_metainfo hy hfile₁ hruns
  refine ⟨files₁, files₂, hrun₁, ?_, hdirs₁, hout₁, hout₂⟩
  rw [getAndSaveMetainfo_eq (hdirs₁ first List.mem_cons_self) hheads]
  exact hwrite

/-- After report has gathered the metainformation, every input directory has its title, and gathering it
again leaves one application for each input directory, in order. -/
def RerunKeeps (host : Host D F) (files : Files D) (first : String × SavedRun) (others : List (String × SavedRun))
    (outDir : String) : Prop :=
  ∃ files₁ files₂, host.getAndSaveMetainfo files first.1 (others.map Prod.fst) outDir = .ok files₁ ∧
    (∀ p ∈ first :: others, host.getAppTitle files₁ p.1 = host.getAppTitle files p.1) ∧
    applications host files₁ outDir = .ok ((first :: others).map fun p => p.2.application) ∧
    host.getAndSaveMetainfo files₁ first.1 (others.map Prod.fst) outDir = .ok files₂ ∧
    applications host files₂ outDir = .ok ((first :: others).map fun p => p.2.application)

/-- Runs are read as they were saved if every character survives. -/
theorem map_lineEnded_eq {runs : List SavedRun} : runs.map SavedRun.lineEnded = runs ↔ ∀ r ∈ runs, r.Kept := by
  induction runs with
  | nil => simp
  | cons r runs ih => rw [List.map_cons, List.cons.injEq, lineEnded_eq, ih, List.forall_mem_cons]

/-- The second run gathers the same if it reads the first application only once, and in no other place. -/
theorem secondRuns_eq {first : String × SavedRun} {others : List (String × SavedRun)}
    (hkept : ∀ r ∈ (first :: others).map Prod.snd, r.Kept) :
    (secondRuns host outDir first others).map SavedRun.lineEnded = (first :: others).map Prod.snd ↔
      (Aliases host outDir first.1 → others = []) ∧ ∀ p ∈ others, Aliases host outDir p.1 → p.2 = first.2 := by
  have hfirst : first.2.lineEnded = first.2 := lineEnded_eq.mpr (hkept first.2 List.mem_cons_self)
  have hsecond : secondRuns host outDir first others =
      (if Aliases host outDir first.1 then (first :: others).map Prod.snd else [first.2]) ++
        others.map fun p => if Aliases host outDir p.1 then first.2 else p.2 := by
    rw [secondRuns, map_lineEnded_eq.mpr hkept, hfirst]
  have hsame : (secondRuns host outDir first others).map SavedRun.lineEnded =
      secondRuns host outDir first others := by
    rw [map_lineEnded_eq, hsecond]
    intro r hr
    rcases List.mem_append.mp hr with hr | hr
    · split_ifs at hr
      · exact hkept r hr
      · rw [List.mem_singleton.mp hr]
        exact hkept first.2 List.mem_cons_self
    · obtain ⟨p, hp, rfl⟩ := List.mem_map.mp hr
      split_ifs
      · exact hkept first.2 List.mem_cons_self
      · exact hkept p.2 (List.mem_map_of_mem (List.mem_cons_of_mem first hp))
  rw [hsame, hsecond]
  by_cases halias : Aliases host outDir first.1
  · rw [if_pos halias, List.append_right_eq_self, List.map_eq_nil_iff]
    constructor
    · rintro rfl
      simp
    · exact fun h => h.1 halias
  · rw [if_neg halias, List.singleton_append, List.map_cons, List.cons.injEq, List.map_inj_left]
    constructor
    · rintro ⟨-, hothers⟩
      refine ⟨fun h => absurd h halias, ?_⟩
      intro p hp hsame
      have h := hothers p hp
      rw [if_pos hsame] at h
      exact h.symm
    · rintro ⟨-, hothers⟩
      refine ⟨rfl, ?_⟩
      intro p hp
      split_ifs with hsame
      · exact (hothers p hp hsame).symm
      · rfl

theorem rerunKeeps_iff_of_recorded (hy : host.locate (metaPath outDir) = some y) (hfile : files y ≠ some .directory)
    {first : String × SavedRun} {others : List (String × SavedRun)}
    (hrecorded : ∀ p ∈ first :: others, Recorded host files p.1 p.2) :
    RerunKeeps host files first others outDir ↔ (∀ p ∈ first :: others, p.2.Kept) ∧
      (Aliases host outDir first.1 → others = []) ∧ ∀ p ∈ others, Aliases host outDir p.1 → p.2 = first.2 := by
  obtain ⟨files₁, files₂, hrun₁, hrun₂, hdirs, hout₁, hout₂⟩ := bothRuns hy hfile hrecorded
  have hruns : (first :: others).map (fun p => p.2.application) =
      ((first :: others).map Prod.snd).map SavedRun.application := by rw [List.map_map]; rfl
  have hkept_iff : (∀ p ∈ first :: others, p.2.Kept) ↔ ∀ r ∈ (first :: others).map Prod.snd, r.Kept := by
    rw [List.forall_mem_map]
  rw [hkept_iff]
  constructor
  · rintro ⟨files₁', files₂', hrun₁', -, hwritten₁, hrun₂', hwritten₂⟩
    obtain rfl := Except.ok.inj (hrun₁.symm.trans hrun₁')
    obtain rfl := Except.ok.inj (hrun₂.symm.trans hrun₂')
    rw [hruns, applications_eq_ok hout₁] at hwritten₁
    rw [hruns, applications_eq_ok hout₂] at hwritten₂
    have hkept := map_lineEnded_eq.mp hwritten₁
    exact ⟨hkept, (secondRuns_eq hkept).mp hwritten₂⟩
  · rintro ⟨hkept, hfirst, hothers⟩
    refine ⟨files₁, files₂, hrun₁, ?_, ?_, hrun₂, ?_⟩
    · intro p hp
      have hdir := hdirs p hp
      rw [map_lineEnded_eq.mpr hkept] at hdir
      have hsame : Aliases host outDir p.1 → p.2 = first.2 := by
        rcases List.mem_cons.mp hp with rfl | hp
        · exact fun _ => rfl
        · exact hothers p hp
      split_ifs at hdir with halias
      · rw [List.map_cons, ← hsame halias] at hdir
        exact getAppTitle_metainfo hdir (hrecorded p hp)
      · exact getAppTitle_metainfo hdir (hrecorded p hp)
    · rw [hruns, applications_eq_ok hout₁]
      exact map_lineEnded_eq.mpr hkept
    · rw [hruns, applications_eq_ok hout₂]
      exact (secondRuns_eq hkept).mpr ⟨hfirst, hothers⟩

/-- A report reads the files of all its input directories. -/
theorem parseFile_of_getAndSaveMetainfo {files' : Files D} {first : String} {others : List String}
    (h : host.getAndSaveMetainfo files first others outDir = .ok files') :
    ∀ dir ∈ first :: others, ∃ e, host.parseFile files (metaPath dir) = .ok e := by
  have hothers (root root' : Element) (hloop : others.foldlM (fun root inDir => do
      let rootIt ← host.parseFile files (inDir ++ "/roofline_meta.xml")
      appendApplication root rootIt) root = .ok root') :
      ∀ dir ∈ others, ∃ e, host.parseFile files (metaPath dir) = .ok e := by
    clear h
    induction others generalizing root with
    | nil => exact fun dir hdir => absurd hdir List.not_mem_nil
    | cons dir others ih =>
      rw [List.foldlM_cons] at hloop
      obtain ⟨root₁, hstep, hloop⟩ := bind_eq_ok.mp hloop
      obtain ⟨e, he, -⟩ := bind_eq_ok.mp hstep
      rw [List.forall_mem_cons]
      exact ⟨⟨e, he⟩, ih root₁ hloop⟩
  obtain ⟨root, hfirst, h⟩ := bind_eq_ok.mp h
  obtain ⟨root', hloop, -⟩ := bind_eq_ok.mp h
  rw [List.forall_mem_cons]
  exact ⟨⟨root, hfirst⟩, hothers root root' hloop⟩

/-- Running a report again keeps the metainformation if all files can be read, and if the output directory is
no input directory, or the only one, or one with the application of the first one. Carriage returns do not
survive. -/
theorem rerunKeeps_iff (hy : host.locate (metaPath outDir) = some y) (hfile : files y ≠ some .directory)
    {first : String × SavedRun} {others : List (String × SavedRun)}
    (hsaved : ∀ p ∈ first :: others, Saved host files p.1 p.2) :
    RerunKeeps host files first others outDir ↔ (∀ p ∈ first :: others, Recorded host files p.1 p.2) ∧
      (∀ p ∈ first :: others, p.2.Kept) ∧
      (Aliases host outDir first.1 → others = []) ∧ ∀ p ∈ others, Aliases host outDir p.1 → p.2 = first.2 := by
  constructor
  · intro hkeeps
    have hrecorded : ∀ p ∈ first :: others, Recorded host files p.1 p.2 := by
      intro p hp
      obtain ⟨files₁, -, hrun₁, -⟩ := hkeeps
      obtain ⟨e, he⟩ := parseFile_of_getAndSaveMetainfo hrun₁ p.1 (List.mem_map_of_mem hp)
      rw [hsaved p hp e he] at he
      exact he
    exact ⟨hrecorded, (rerunKeeps_iff_of_recorded hy hfile hrecorded).mp hkeeps⟩
  · rintro ⟨hrecorded, hkept⟩
    exact (rerunKeeps_iff_of_recorded hy hfile hrecorded).mpr hkept

end files

def firstRecorded : SavedRun := ⟨"a.out 100", "2020-01-01 10:00:00"⟩

def secondRecorded : SavedRun := ⟨"b.out", "2020-01-02 10:00:00"⟩

def recordedFiles : Files String := fun x =>
  List.lookup x [(("a/", "roofline_meta.xml"), .file (metaText firstRecorded.name firstRecorded.time)),
    (("b/", "roofline_meta.xml"), .file (metaText secondRecorded.name secondRecorded.time))]

private theorem recorded_recordedFiles :
    ∀ p ∈ [("a", firstRecorded), ("b", secondRecorded)], Recorded plainHost recordedFiles p.1 p.2 := by
  have hlocated : plainHost.locate (metaPath "a") = some ("a/", "roofline_meta.xml") ∧
      plainHost.locate (metaPath "b") = some ("b/", "roofline_meta.xml") := by decide
  have hfirst : Xml.parse (metaText firstRecorded.name firstRecorded.time) = some (metainfo [firstRecorded]) := by
    refine parse_metaText_plain (r := firstRecorded) ⟨rfl, rfl⟩ (forall_leaves.mpr ⟨?_, ?_⟩)
    · exact Xml.plainContent_of_not_mem (by decide) (by decide) (by decide)
    · exact Xml.plainContent_of_not_mem (by decide) (by decide) (by decide)
  have hsecond : Xml.parse (metaText secondRecorded.name secondRecorded.time) = some (metainfo [secondRecorded]) := by
    refine parse_metaText_plain (r := secondRecorded) ⟨rfl, rfl⟩ (forall_leaves.mpr ⟨?_, ?_⟩)
    · exact Xml.plainContent_of_not_mem (by decide) (by decide) (by decide)
    · exact Xml.plainContent_of_not_mem (by decide) (by decide) (by decide)
  rw [List.forall_mem_cons, List.forall_mem_singleton]
  exact ⟨(parseFile_eq_ok hlocated.1).mpr ⟨_, rfl, hfirst⟩, (parseFile_eq_ok hlocated.2).mpr ⟨_, rfl, hsecond⟩⟩

theorem rerunKeeps_iff_freshDirectory :
    RerunKeeps plainHost recordedFiles ("a", firstRecorded) [("b", secondRecorded)] "out" := by
  have hlocated : plainHost.locate (metaPath "out") = some ("out/", "roofline_meta.xml") := by decide
  have hrecorded := recorded_recordedFiles
  apply (rerunKeeps_iff hlocated (by decide) ?_).mpr
  · have hkept : ∀ p ∈ [("a", firstRecorded), ("b", secondRecorded)], p.2.Kept := by decide
    have hfresh : ∀ p ∈ [("a", firstRecorded), ("b", secondRecorded)], ¬ Aliases plainHost "out" p.1 := by decide
    rw [List.forall_mem_cons] at hfresh
    exact ⟨hrecorded, hkept, fun halias => absurd halias hfresh.1, fun p hp halias => absurd halias (hfresh.2 p hp)⟩
  · intro p hp e he
    rw [hrecorded p hp] at he
    exact (Except.ok.inj he).symm

/-- A report into the first of two directories is not kept. -/
theorem aliasedFirst_not_kept :
    (∀ p ∈ [("a", firstRecorded), ("b", secondRecorded)], Recorded plainHost recordedFiles p.1 p.2) ∧
      ¬ RerunKeeps plainHost recordedFiles ("a", firstRecorded) [("b", secondRecorded)] "a" := by
  have hlocated : plainHost.locate (metaPath "a") = some ("a/", "roofline_meta.xml") := by decide
  refine ⟨recorded_recordedFiles, ?_⟩
  rw [rerunKeeps_iff_of_recorded hlocated (by decide) recorded_recordedFiles]
  rintro ⟨-, hfirst, -⟩
  exact absurd (hfirst rfl) (List.cons_ne_nil _ _)

end Roofline.Correctness
