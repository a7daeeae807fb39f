import Roofline.Correctness.AnalysisTimes

/-! From record to report: the runs of the client decide what report makes of the directory of a recording. -/
namespace Roofline.Correctness
open Client Library Report
variable {τ F D : Type}

/-- The number of the last run for the times, whose file report reads. -/
def lastRun (args : RecordArgs) : ℕ := if 1 < args.runTimeAnalysis then 4 * args.runTimeAnalysis.toNat else 1

section entries
variable {rec : Recorder D F} {args : RecordArgs} {text : Bool → ℕ → String} {dict : Groups String F}

theorem meta_mem_recordedEntries :
    ("roofline_meta.xml", .file (metaText args.appWithFlags rec.metaTime)) ∈ recordedEntries rec args text dict :=
  List.mem_cons_self

/-- The files of both runs that report joins. -/
theorem runs_mem_recordedEntries (hflops : args.flopsOnly = false) (htime : args.timeOnly = false) :
    ("roofline.xml", .file (text false 0)) ∈ recordedEntries rec args text dict ∧
      ("roofline_time.xml", .file (text true (lastRun args))) ∈ recordedEntries rec args text dict := by
  rw [recordedEntries, hflops, htime, if_neg Bool.false_ne_true, if_neg Bool.false_ne_true, lastRun]
  refine ⟨List.mem_cons_of_mem _ List.mem_cons_self, List.mem_cons_of_mem _ (List.mem_cons_of_mem _ ?_)⟩
  split_ifs with hruns
  · have hlast : 1 + 4 * args.runTimeAnalysis.toNat - 1 = 4 * args.runTimeAnalysis.toNat :=
      Nat.add_sub_cancel_left _ _
    rw [analysisFiles, analysisTables, hlast]
    exact List.mem_append_right _ List.mem_cons_self
  · exact List.mem_singleton_self _

end entries

section report
variable {host : Host D F} {files : Files D} {d : D} {inDir : String}

private theorem readFile_dir (hin : host.dirOf (inDir ++ "/") = some d) {name text : String} (path : String)
    (hpath : path = "/" ++ name) (hname : '/' ∉ name.toList) (htext : dirFiles files d name = some (.file text)) :
    host.readFile files (inDir ++ path) = .ok text := by
  have hlocate : host.locate (inDir ++ path) = some (d, name) := by
    rw [locate_name _ hpath hname, hin]
    rfl
  exact (readFile_eq_ok hlocate).mpr htext

/-- Report takes the application of a recording, with its flags, for the title. -/
theorem getAppTitle_recorded (hin : host.dirOf (inDir ++ "/") = some d) {r : SavedRun} (hr : r.Printable)
    (hplain : ∀ l ∈ r.leaves, Xml.PlainContent l.2) (hname : r.name ≠ "")
    (hmeta : dirFiles files d "roofline_meta.xml" = some (.file (metaText r.name r.time))) :
    host.getAppTitle files inDir = .ok (r.name.map fun c => if c = ' ' then '_' else c) := by
  have hread := readFile_dir hin "/roofline_meta.xml" rfl (by decide) hmeta
  have hparse : host.parseFile files (inDir ++ "/roofline_meta.xml") = .ok (metainfo [r]) := by
    rw [Host.parseFile, hread, ok_bind, parse_metaText_plain hr hplain]
    rfl
  have hfind : (metainfo [r]).children.find? (fun e => e.tag = "application") = some r.application := rfl
  have htext : (textOf r.application "name").mapError ReportError.python = .ok (some r.name) := by
    have hleaf : textOf r.application "name" = .ok (textIn r.name) := rfl
    rw [hleaf, textIn, if_neg hname]
    rfl
  rw [Host.getAppTitle, hparse, ok_bind, hfind]
  dsimp only
  rw [htext, ok_bind]
  rfl

variable [Zero τ] [Sub τ] {rec : Recorder D F} {args : RecordArgs} {opts opts' : Options}
  {fmtF : τ → String} {es : List (Event τ)} {es' : ℕ → List (Event τ)}

/-- What report makes of the files of a recording is decided by the two runs that they are from. -/
theorem reads_recorded {dict : Groups String F} (hlist : Lists (dirFiles files d)
      (recordedEntries rec args (clientText opts opts' fmtF es es') dict))
    (hflops : args.flopsOnly = false) (htime : args.timeOnly = false) (hin : rec.host.dirOf (inDir ++ "/") = some d)
    (colourN : ℤ) (name : String) (Ps : List (Report.Point F)) :
    rec.host.getPoints files inDir colourN name = .ok Ps ↔ rec.host.py.getPoints colourN name
      (outputFile opts fmtF es) (outputFile opts' fmtF (es' (lastRun args))) = .ok Ps := by
  have hentries : ("roofline.xml", .file (clientText opts opts' fmtF es es' false 0)) ∈
        recordedEntries rec args (clientText opts opts' fmtF es es') dict ∧
      ("roofline_time.xml", .file (clientText opts opts' fmtF es es' true (lastRun args))) ∈
        recordedEntries rec args (clientText opts opts' fmtF es es') dict := runs_mem_recordedEntries hflops htime
  have hread := readFile_dir hin "/roofline.xml" rfl (by decide) ((hlist _ _).mpr hentries.1)
  have hreadTime := readFile_dir hin "/roofline_time.xml" rfl (by decide) ((hlist _ _).mpr hentries.2)
  rw [Host.getPoints, hread, ok_bind, hreadTime, ok_bind, clientText, clientText, if_neg Bool.false_ne_true,
    if_pos rfl]
  cases rec.host.py.getPoints colourN name (outputFile opts fmtF es)
    (outputFile opts' fmtF (es' (lastRun args))) <;> simp [Except.mapError]

variable [DecidableEq D]

/-- What record leaves, report reads. Where the command line needs no escaping, the title is the application. When there
are points is decided by what the files of both runs say. Where labels and file names are read back as they are, record
ends, and there are points exactly if there are at most five inputs, every region has drained some bytes, the names are
distinct and the last run for the times has none that is read as zero; and a point stands where its operations, its
bytes and its time in that run put it. -/
theorem recorded_report (h : Launched rec args d (clientText opts opts' fmtF es es'))
    (hfresh : ∀ name, files (d, name) = none) (hnew : rec.taken (rec.outDir args) = false)
    (hflops : args.flopsOnly = false) (htime : args.timeOnly = false)
    (hruns : ∀ k, PairedRuns rec.host.py fmtF opts opts' es (es' k)) (hfind : NoAsserts rec.host.py)
    (hin : rec.host.dirOf (inDir ++ "/") = some d) :
    (∀ s, rec.record files args = .ok s →
      (SavedRun.Printable ⟨args.appWithFlags, rec.metaTime⟩ →
        (∀ l ∈ SavedRun.leaves ⟨args.appWithFlags, rec.metaTime⟩, Xml.PlainContent l.2) → args.appWithFlags ≠ "" →
        rec.host.getAppTitle s.files inDir = .ok (args.appWithFlags.map fun c => if c = ' ' then '_' else c)) ∧
      ∀ (colourN : ℤ) (name : String), (∃ Ps, rec.host.getPoints s.files inDir colourN name = .ok Ps) ↔
        colourN ≤ 5 ∧ Complete rec.host.py (outputFile opts fmtF es) (outputFile opts' fmtF (es' (lastRun args)))) ∧
    ((∀ p ∈ finalPoints opts es, ReadablePoint p) → ∃ s, rec.record files args = .ok s ∧
      ∀ (colourN : ℤ) (name : String),
        ((∃ Ps, rec.host.getPoints s.files inDir colourN name = .ok Ps) ↔
          colourN ≤ 5 ∧ Plottable rec.host.py fmtF opts opts' es (es' (lastRun args))) ∧
          ∀ Ps, rec.host.getPoints s.files inDir colourN name = .ok Ps →
            PlottedAt rec.host.py fmtF opts opts' es (es' (lastRun args)) Ps) := by
  constructor
  · intro s hs
    obtain ⟨dict, -, -, hlist, -⟩ := h.left hfresh hnew hs
    refine ⟨fun happ hplain hname => ?_, fun colourN name => ?_⟩
    · exact getAppTitle_recorded hin happ hplain hname ((hlist _ _).mpr meta_mem_recordedEntries)
    · simp only [reads_recorded hlist hflops htime hin]
      exact getPoints_returns_iff hfind colourN name
  · intro hreadable
    have hruns (k : ℕ) : ReadableRuns rec.host.py fmtF opts opts' es (es' k) := ⟨hruns k, hreadable⟩
    obtain ⟨s, dict, hs, hlist, -⟩ := h.returns hfresh hnew hruns
    refine ⟨s, hs, fun colourN name => ?_⟩
    simp only [reads_recorded hlist hflops htime hin]
    exact ⟨(hruns _).getPoints_iff colourN name, fun Ps hPs => (hruns _).getPoints_placed hPs⟩

end report

/-- The runs of countedRun and slowerRun can be plotted. -/
theorem plottable_slowerRun {k : ℕ} (h : ∀ t ∈ finalPoints timeOptions (slowerRun k),
      (exactPython.float (wholeSeconds t.elapsed)).any exactPython.isZero = false) :
    Plottable exactPython wholeSeconds {} timeOptions (countedRun "a.c") (slowerRun k) := by
  refine ⟨by decide +kernel, nodup_countedRun, fun t ht x hx => ?_⟩
  have hzero := h t ht
  rwa [hx] at hzero

/-- A command line of one or two words has nothing that is escaped. -/
theorem savedRun_plain {app : String} (happ : app = "f" ∨ app = "g x") :
    SavedRun.Printable ⟨app, "t"⟩ ∧ (∀ l ∈ SavedRun.leaves ⟨app, "t"⟩, Xml.PlainContent l.2) ∧ app ≠ "" := by
  have htime : Xml.PlainContent "t".toList := Xml.plainContent_of_not_mem (by decide) (by decide) (by decide)
  rw [forall_leaves]
  rcases happ with rfl | rfl
  · exact ⟨⟨rfl, rfl⟩, ⟨Xml.plainContent_of_not_mem (by decide) (by decide) (by decide), htime⟩, by decide⟩
  · exact ⟨⟨rfl, rfl⟩, ⟨Xml.plainContent_of_not_mem (by decide) (by decide) (by decide), htime⟩, by decide⟩

theorem recorded_report_home : ∃ s Ps, (homeRecorder (homeText {})).record emptyFiles homeRecordArgs = .ok s ∧
    slashHost.getAppTitle s.files "/home/out" = .ok "f" ∧ slashHost.getPoints s.files "/home/out" 1 "f" = .ok Ps ∧
    Ps.map (·.label) = ["a", "a1"] := by
  have hempty : ∀ name, emptyFiles ("/home/out", name) = none := fun _ => rfl
  have happ : homeRecordArgs.appWithFlags = "f" := by decide +kernel
  obtain ⟨hprintable, hplain, hname⟩ := savedRun_plain (.inl happ)
  have hlast : lastRun homeRecordArgs = 8 := rfl
  have hin : slashHost.dirOf ("/home/out" ++ "/") = some "/home/out" := by decide +kernel
  obtain ⟨hleft, hreadable⟩ := recorded_report (launched_homeRecorder (homeText {})) hempty rfl rfl rfl
    pairedRuns_slowerRun noAsserts_exactPython hin
  obtain ⟨s, hs, hreport⟩ := hreadable readablePoint_countedRun
  have htitle := (hleft s hs).1 hprintable hplain hname
  have hnoSpace : homeRecordArgs.appWithFlags.map (fun c => if c = ' ' then '_' else c) = "f" := by decide +kernel
  rw [hnoSpace] at htitle
  rw [hlast] at hreport
  obtain ⟨hiff, hplaced⟩ := hreport 1 "f"
  obtain ⟨Ps, hPs⟩ := hiff.mpr ⟨by decide, plottable_slowerRun (by decide +kernel)⟩
  have hlabels : readNames (finalPoints {} (countedRun "a.c")) = ["a", "a1"] := by decide +kernel
  exact ⟨s, Ps, hs, htitle, hPs, (hplaced Ps hPs).labels.trans hlabels⟩

end Roofline.Correctness
