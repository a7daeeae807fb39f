import Roofline.Correctness.RecordedReport

/-! Several recordings, one after the other, and a report over all of them. -/
namespace Roofline.Correctness
open Client Library Report
variable {τ F D : Type}

section planned
variable {host : Host D F} {files : Files D} {α : Type} {inDir title : α → String} {C : α → Prop}
  {Q : α → List (Report.Point F) → Prop}

/-- The plan over directories each of which is read in a known way. -/
theorem planned_iff {xs : List α} (htitle : ∀ x ∈ xs, host.getAppTitle files (inDir x) = .ok (title x))
    (hreads : ∀ x ∈ xs, ∀ (colourN : ℤ) (name : String),
      (∃ Ps, host.getPoints files (inDir x) colourN name = .ok Ps) ↔ colourN ≤ 5 ∧ C x) :
    (∃ plotted, planned host files (xs.map inDir) = .ok plotted) ↔ xs.length ≤ 5 ∧ ∀ x ∈ xs, C x := by
  induction xs using List.reverseRecOn with
  | nil => exact iff_of_true ⟨[], rfl⟩ ⟨Nat.zero_le _, List.forall_mem_nil _⟩
  | append_singleton xs x ih =>
    rw [List.forall_mem_append, List.forall_mem_singleton] at htitle hreads
    have hinit := ih htitle.1 hreads.1
    have hlast := hreads.2 ((xs.map inDir).length + 1) (title x)
    have hlength : ((xs.map inDir).length + 1 : ℤ) ≤ 5 ↔ (xs ++ [x]).length ≤ 5 := by
      rw [List.length_map, List.length_append, List.length_singleton]
      omega
    rw [hlength] at hlast
    rw [List.map_append, List.map_singleton, List.forall_mem_append, List.forall_mem_singleton]
    constructor
    · rintro ⟨plotted, hplotted⟩
      obtain ⟨ps, p, -, hps, hname, hpoints⟩ := planned_snoc_eq_ok hplotted
      obtain ⟨hfive, hx⟩ := hlast.mp ⟨p.points, by rwa [← Except.ok.inj (htitle.2.symm.trans hname)] at hpoints⟩
      exact ⟨hfive, (hinit.mp ⟨ps, hps⟩).2, hx⟩
    · rintro ⟨hfive, hxs, hx⟩
      have hinit' : xs.length ≤ 5 := by
        rw [List.length_append] at hfive
        omega
      obtain ⟨ps, hps⟩ := hinit.mpr ⟨hinit', hxs⟩
      obtain ⟨Ps, hPs⟩ := hlast.mpr ⟨hfive, hx⟩
      refine ⟨ps ++ [⟨title x, Ps⟩], ?_⟩
      rw [planned_snoc, hps, ok_bind, htitle.2, ok_bind, hPs]
      rfl

private theorem planned_forall₂ {xs : List α} (htitle : ∀ x ∈ xs, host.getAppTitle files (inDir x) = .ok (title x))
    (hreads : ∀ x ∈ xs, ∀ (colourN : ℤ) (name : String) (Ps : List (Report.Point F)),
      host.getPoints files (inDir x) colourN name = .ok Ps → Q x Ps)
    {plotted : List (Host.Plotted F)} (h : planned host files (xs.map inDir) = .ok plotted) :
    List.Forall₂ (fun x p => p.appName = title x ∧ Q x p.points) xs plotted := by
  induction xs using List.reverseRecOn generalizing plotted with
  | nil =>
    obtain rfl := Except.ok.inj h
    exact .nil
  | append_singleton xs x ih =>
    rw [List.forall_mem_append, List.forall_mem_singleton] at htitle hreads
    rw [List.map_append, List.map_singleton] at h
    obtain ⟨ps, p, rfl, hps, hname, hpoints⟩ := planned_snoc_eq_ok h
    have hlast : p.appName = title x ∧ Q x p.points :=
      ⟨Except.ok.inj (hname.symm.trans htitle.2), hreads.2 _ _ _ hpoints⟩
    exact List.rel_append (ih htitle.1 hreads.1 hps) (.cons hlast .nil)

end planned

/-- One recording: the script and its arguments, the directory that it makes, the path under which report gets it, and
the runs of the client. -/
structure Job (D F τ : Type) where
  recorder : Recorder D F
  args : RecordArgs
  dir : D
  inDir : String
  opts : Options
  opts' : Options
  es : List (Event τ)
  es' : ℕ → List (Event τ)

namespace Job
variable (job : Job D F τ)

def title : String := job.args.appWithFlags.map fun c => if c = ' ' then '_' else c

def saved : SavedRun := ⟨job.args.appWithFlags, job.recorder.metaTime⟩

def lastTimes : List (Event τ) := job.es' (lastRun job.args)

variable [Zero τ] [Sub τ]

def text (fmtF : τ → String) : Bool → ℕ → String := clientText job.opts job.opts' fmtF job.es job.es'

/-- A recording for both counts and times, of an application whose command line needs no escaping. -/
structure Sound [DecidableEq D] (host : Host D F) (fmtF : τ → String) (job : Job D F τ) : Prop where
  sameHost : job.recorder.host = host
  launched : Launched job.recorder job.args job.dir (job.text fmtF)
  untaken : job.recorder.taken (job.recorder.outDir job.args) = false
  counts : job.args.flopsOnly = false
  times : job.args.timeOnly = false
  runs : ∀ k, PairedRuns host.py fmtF job.opts job.opts' job.es (job.es' k)
  readable : ∀ p ∈ finalPoints job.opts job.es, ReadablePoint p
  input : host.dirOf (job.inDir ++ "/") = some job.dir
  printable : job.saved.Printable
  plain : ∀ l ∈ job.saved.leaves, Xml.PlainContent l.2
  named : job.args.appWithFlags ≠ ""

private theorem Sound.readableRuns [DecidableEq D] {host : Host D F} {fmtF : τ → String} {job : Job D F τ}
    (h : job.Sound host fmtF) (k : ℕ) : ReadableRuns host.py fmtF job.opts job.opts' job.es (job.es' k) :=
  ⟨h.runs k, h.readable⟩

end Job

/-- Two recordings that write nothing into the directory of each other. -/
structure Apart (a b : Job D F τ) : Prop where
  dirs : a.dir ≠ b.dir
  first : Spares a.recorder a.args b.dir
  second : Spares b.recorder b.args a.dir

section series
variable [Zero τ] [Sub τ] [DecidableEq D] {host : Host D F} {fmtF : τ → String} {jobs : List (Job D F τ)}
  {files : Files D}

def recordAll (jobs : List (Job D F τ)) (files : Files D) : Except ReportError (Files D) :=
  jobs.foldlM (fun files job => do
    let s ← job.recorder.record files job.args
    return s.files) files

/-- The directory of a recording as record has left it. -/
def Job.Kept (fmtF : τ → String) (files : Files D) (job : Job D F τ) : Prop :=
  ∃ dict, Lists (dirFiles files job.dir) (recordedEntries job.recorder job.args (job.text fmtF) dict)

private theorem recordAll_ok (hsound : ∀ job ∈ jobs, job.Sound host fmtF) (hapart : jobs.Pairwise Apart)
    (hfresh : ∀ job ∈ jobs, ∀ name, files (job.dir, name) = none) :
    ∃ files', recordAll jobs files = .ok files' ∧ (∀ job ∈ jobs, job.Kept fmtF files') ∧
      ∀ d, (∀ job ∈ jobs, d ≠ job.dir ∧ Spares job.recorder job.args d) → dirFiles files' d = dirFiles files d := by
  induction jobs generalizing files with
  | nil => exact ⟨files, rfl, List.forall_mem_nil _, fun _ _ => rfl⟩
  | cons job jobs ih =>
    rw [List.forall_mem_cons] at hsound hfresh
    rw [List.pairwise_cons] at hapart
    obtain ⟨hjob, hrest⟩ := hsound
    have hruns := hjob.readableRuns
    rw [← hjob.sameHost] at hruns
    obtain ⟨s, dict, hs, hlist, hspared⟩ := hjob.launched.returns hfresh.1 hjob.untaken hruns
    have hfresh' : ∀ job' ∈ jobs, ∀ name, s.files (job'.dir, name) = none := by
      intro job' hjob' name
      have happart := hapart.1 job' hjob'
      exact (congrFun (hspared job'.dir happart.dirs.symm happart.first) name).trans (hfresh.2 job' hjob' name)
    obtain ⟨files', hall, hkept, hothers⟩ := ih hrest hapart.2 hfresh'
    refine ⟨files', ?_, ?_, ?_⟩
    · rw [recordAll, List.foldlM_cons, hs, ok_bind]
      exact hall
    · rw [List.forall_mem_cons]
      refine ⟨⟨dict, ?_⟩, hkept⟩
      rw [hothers job.dir fun job' hjob' => ⟨(hapart.1 job' hjob').dirs, (hapart.1 job' hjob').second⟩]
      exact hlist
    · intro d hd
      rw [List.forall_mem_cons] at hd
      rw [hothers d hd.2, hspared d hd.1.1 hd.1.2]

theorem Job.Kept.getAppTitle {job : Job D F τ} (hjob : job.Sound host fmtF) (hkept : job.Kept fmtF files) :
    host.getAppTitle files job.inDir = .ok job.title := by
  obtain ⟨dict, hlist⟩ := hkept
  exact getAppTitle_recorded hjob.input hjob.printable hjob.plain hjob.named
    ((hlist _ _).mpr meta_mem_recordedEntries)

theorem Job.Kept.getPoints {job : Job D F τ} (hjob : job.Sound host fmtF) (hkept : job.Kept fmtF files) (colourN : ℤ)
    (name : String) (Ps : List (Report.Point F)) : host.getPoints files job.inDir colourN name = .ok Ps ↔
      host.py.getPoints colourN name (outputFile job.opts fmtF job.es) (outputFile job.opts' fmtF job.lastTimes) =
        .ok Ps := by
  obtain ⟨dict, hlist⟩ := hkept
  have hinput := hjob.input
  rw [← hjob.sameHost] at hinput ⊢
  exact reads_recorded hlist hjob.counts hjob.times hinput colourN name Ps

/-- A report over several recordings. They can be plotted together exactly if there are at most five of them and each
one can be plotted on its own; each one then has its own title, and its points, where its own runs put them. -/
theorem recordings_planned (hsound : ∀ job ∈ jobs, job.Sound host fmtF) (hapart : jobs.Pairwise Apart)
    (hfresh : ∀ job ∈ jobs, ∀ name, files (job.dir, name) = none) :
    ∃ files', recordAll jobs files = .ok files' ∧
      ((∃ plotted, planned host files' (jobs.map Job.inDir) = .ok plotted) ↔ jobs.length ≤ 5 ∧
        ∀ job ∈ jobs, Plottable host.py fmtF job.opts job.opts' job.es job.lastTimes) ∧
      ∀ plotted, planned host files' (jobs.map Job.inDir) = .ok plotted →
        List.Forall₂ (fun job p => p.appName = job.title ∧
          PlottedAt host.py fmtF job.opts job.opts' job.es job.lastTimes p.points) jobs plotted := by
  obtain ⟨files', hall, hkept, -⟩ := recordAll_ok hsound hapart hfresh
  have htitle : ∀ job ∈ jobs, host.getAppTitle files' job.inDir = .ok job.title :=
    fun job hjob => (hkept job hjob).getAppTitle (hsound job hjob)
  refine ⟨files', hall, ?_, fun plotted hplotted => ?_⟩
  · apply planned_iff htitle
    intro job hjob colourN name
    simp only [(hkept job hjob).getPoints (hsound job hjob)]
    exact ((hsound job hjob).readableRuns _).getPoints_iff colourN name
  · refine planned_forall₂ htitle (fun job hjob colourN name Ps hPs => ?_) hplotted
    rw [(hkept job hjob).getPoints (hsound job hjob)] at hPs
    exact ((hsound job hjob).readableRuns _).getPoints_placed hPs

end series

def secondArgs : RecordArgs := { targetApp := "./g", targetAppArgs := ["x"], output := some "b" }

private theorem launched_secondArgs (text : Bool → ℕ → String) :
    Launched (recorderFor secondArgs "/home/b" text) secondArgs "/home/b" text := by
  refine launched_recorderFor (by decide +kernel) (by decide +kernel) (by decide +kernel) ?_ (by decide +kernel) ?_
    text
  · decide +kernel
  · intro settings timeRun
    rw [Recorder.timeInfoCmd]
    by_cases hsettings : settings = ""
    · subst hsettings
      cases timeRun <;> decide +kernel
    · rw [if_pos hsettings]
      cases timeRun <;> decide +kernel

def jobFor (opts : Options) (args : RecordArgs) (dir : String) : Job String ℚ ℕ :=
  ⟨recorderFor args dir (homeText opts), args, dir, dir, opts, timeOptions, countedRun "a.c", slowerRun⟩

private theorem sound_homeJob : (jobFor {} homeRecordArgs "/home/out").Sound slashHost wholeSeconds := by
  have happ : homeRecordArgs.appWithFlags = "f" := by decide +kernel
  obtain ⟨hprintable, hplain, hname⟩ := savedRun_plain (.inl happ)
  exact ⟨rfl, launched_homeRecorder (homeText {}), rfl, rfl, rfl, pairedRuns_slowerRun, readablePoint_countedRun,
    (by decide +kernel : slashHost.dirOf ("/home/out" ++ "/") = some "/home/out"), hprintable, hplain, hname⟩

private theorem sound_secondJob : (jobFor {} secondArgs "/home/b").Sound slashHost wholeSeconds := by
  have happ : secondArgs.appWithFlags = "g x" := by decide +kernel
  obtain ⟨hprintable, hplain, hname⟩ := savedRun_plain (.inr happ)
  exact ⟨rfl, launched_secondArgs (homeText {}), rfl, rfl, rfl, pairedRuns_slowerRun, readablePoint_countedRun,
    (by decide +kernel : slashHost.dirOf ("/home/b" ++ "/") = some "/home/b"), hprintable, hplain, hname⟩

def homeJobs (opts : Options) : List (Job String ℚ ℕ) :=
  [jobFor opts homeRecordArgs "/home/out", jobFor opts secondArgs "/home/b"]

theorem recordings_planned_home : ∃ files' plotted, recordAll (homeJobs {}) emptyFiles = .ok files' ∧
    planned slashHost files' ["/home/out", "/home/b"] = .ok plotted ∧ plotted.map (·.appName) = ["f", "g_x"] := by
  have hsound : ∀ job ∈ homeJobs {}, job.Sound slashHost wholeSeconds := by
    rw [homeJobs, List.forall_mem_cons, List.forall_mem_singleton]
    exact ⟨sound_homeJob, sound_secondJob⟩
  have hapart : (homeJobs {}).Pairwise Apart := by
    have hdirs : ("/home/out" : String) ≠ "/home/b" := by decide
    rw [homeJobs, List.pairwise_pair]
    exact ⟨hdirs, spares_recorderFor hdirs.symm _, spares_recorderFor hdirs _⟩
  have hplottable : ∀ job ∈ homeJobs {},
      Plottable exactPython wholeSeconds job.opts job.opts' job.es job.lastTimes := by
    rw [homeJobs, List.forall_mem_cons, List.forall_mem_singleton]
    exact ⟨plottable_slowerRun (k := 8) (by decide +kernel), plottable_slowerRun (k := 1) (by decide +kernel)⟩
  have hempty : ∀ job ∈ homeJobs {}, ∀ name, emptyFiles (job.dir, name) = none := fun _ _ _ => rfl
  have htitles : (homeJobs {}).map Job.title = ["f", "g_x"] := by decide +kernel
  obtain ⟨files', hall, hiff, hplotted⟩ := recordings_planned hsound hapart hempty
  obtain ⟨plotted, hplan⟩ := hiff.mpr ⟨by decide, hplottable⟩
  have hnames : List.Forall₂ (fun job p => p.appName = job.title) (homeJobs {}) plotted :=
    (hplotted plotted hplan).imp fun _ _ h => h.1
  have hsame : List.Forall₂ Eq (plotted.map (·.appName)) ((homeJobs {}).map Job.title) :=
    List.forall₂_map_left_iff.mpr (List.forall₂_map_right_iff.mpr hnames.flip)
  rw [List.forall₂_eq_eq_eq, htitles] at hsame
  exact ⟨files', plotted, hall, hplan, hsame⟩

end Roofline.Correctness
