import Roofline.Correctness.DivisionSafety

/-! The points that report makes of a recording: when there are any, and where they stand in the plot. -/
namespace Roofline.Correctness
open Client Library.Xml Report
variable {τ F : Type}

/-- The operations of the clean calls that count for region j. -/
def countedFlops (opts : Options) (es : List (Event τ)) (j : ℕ) : ℤ :=
  ((origin opts es j).map fun k => (es[k]?.map Event.fpCount).getD 0).sum

/-- Both files are XML, and the loop makes a point of every point of the first one. -/
def Complete (py : Python F) (roofline rooflineTime : String) : Prop :=
  ∃ root rootTime, parse roofline = some root ∧ parse rooflineTime = some rootTime ∧
    ∀ p ∈ pointsOf root, Divides py rootTime p

section point
variable {py : Python F}

/-- The coordinates of a point that the loop appends. -/
theorem getPoint_coordinates {colourN : ℤ} {name : String} {rootTime p : Element} {P : Report.Point F}
    (h : py.getPoint colourN name rootTime p = .ok P) :
    P.flopsPerByte = py.div P.totalFlops P.totalBytes ∧
      P.gflopsPerSec = py.div (py.div P.totalFlops py.giga) P.totalTime := by
  unfold Python.getPoint at h
  obtain ⟨label, -, h⟩ := bind_eq_ok.mp h
  obtain ⟨flops, -, h⟩ := bind_eq_ok.mp h
  obtain ⟨bytes, -, h⟩ := bind_eq_ok.mp h
  obtain ⟨reads, -, h⟩ := bind_eq_ok.mp h
  obtain ⟨writes, -, h⟩ := bind_eq_ok.mp h
  obtain ⟨startSrc, -, h⟩ := bind_eq_ok.mp h
  obtain ⟨endSrc, -, h⟩ := bind_eq_ok.mp h
  obtain ⟨startLine, -, h⟩ := bind_eq_ok.mp h
  obtain ⟨endLine, -, h⟩ := bind_eq_ok.mp h
  obtain ⟨found, -, h⟩ := bind_eq_ok.mp h
  match found, h with
  | [], h => cases h
  | _ :: _ :: _, h => cases h
  | [t], h =>
    obtain ⟨time, -, h⟩ := bind_eq_ok.mp h
    split_ifs at h with hzero
    · cases h
    · obtain ⟨perByte, hbyte, h⟩ := bind_eq_ok.mp h
      obtain ⟨perSec, hsec, h⟩ := bind_eq_ok.mp h
      obtain rfl := Except.ok.inj h
      unfold Python.quotient at hbyte hsec
      split_ifs at hbyte hsec
      exact ⟨(Except.ok.inj hbyte).symm, (Except.ok.inj hsec).symm⟩

/-- Report makes points of two files exactly if there are at most five inputs, both files are XML, and each point of
the first one is complete. -/
theorem getPoints_returns_iff {roofline rooflineTime : String} (hfind : NoAsserts py) (colourN : ℤ)
    (name : String) :
    (∃ Ps, py.getPoints colourN name roofline rooflineTime = .ok Ps) ↔
      colourN ≤ 5 ∧ Complete py roofline rooflineTime := by
  by_cases hcolour : colourN ≤ 5
  · rw [and_iff_right hcolour, Complete]
    cases hroot : parse roofline with
    | none =>
      rw [Python.getPoints, if_neg (not_not.mpr hcolour), hroot]
      exact iff_of_false (by rintro ⟨Ps, hPs⟩; cases hPs) (by simp)
    | some root =>
      cases hrootTime : parse rooflineTime with
      | none =>
        rw [Python.getPoints, if_neg (not_not.mpr hcolour), hroot, hrootTime]
        exact iff_of_false (by rintro ⟨Ps, hPs⟩; cases hPs) (by simp)
      | some rootTime =>
        rw [getPoints_joinPoints hcolour hroot hrootTime, joinPoints, exists_mapM_iff]
        simp only [getPoint_returns_iff colourN name hfind, Option.some.injEq, exists_eq_left', exists_and_left]
  · refine iff_of_false ?_ fun hcond => hcolour hcond.1
    rintro ⟨Ps, hPs⟩
    rw [Python.getPoints, if_pos hcolour] at hPs
    cases hPs

end point

/-- A point that stands where its counts and its time put it. -/
structure Placed (py : Python F) (flops bytes : ℕ) (time : String) (P : Report.Point F) : Prop where
  flops : py.float (toString flops) = some P.totalFlops
  bytes : py.float (toString bytes) = some P.totalBytes
  time : py.float time = some P.totalTime
  flopsPerByte : P.flopsPerByte = py.div P.totalFlops P.totalBytes
  gflopsPerSec : P.gflopsPerSec = py.div (py.div P.totalFlops py.giga) P.totalTime

section counts

theorem flops_counted [Zero τ] {opts : Options} {es : List (Event τ)} {k : ℕ} {p : Client.Point τ}
    (hp : (finalPoints opts es)[k]? = some p) :
    p.flops.toNat = (countedFlops opts es k % 2 ^ 64).toNat := by
  rw [(finalPoints_origin opts es hp).1, ← countedFlops, ← toNat_ofInt, Int.toNat_natCast]

/-- No assertion stops the loop where names are distinct and times are not read as zero. -/
theorem forall_not_assertsAt [Sub τ] {py : Python F} {fmtF : τ → String} {ts : List (Client.Point τ)} :
    (∀ k < ts.length, ¬ AssertsAt py fmtF ts k) ↔ (readNames ts).Nodup ∧
      ∀ t ∈ ts, ∀ x, py.float (fmtF t.elapsed) = some x → py.isZero x = false := by
  have hlength : (readNames ts).length = ts.length := by rw [readNames, List.length_map, length_outputNames]
  constructor
  · intro h
    refine ⟨?_, fun t ht x hx => ?_⟩
    · rw [List.nodup_iff_count_eq_one]
      intro name hname
      obtain ⟨i, hi⟩ := List.getElem?_of_mem hname
      have hlt : i < ts.length := hlength ▸ (List.getElem?_eq_some_iff.mp hi).1
      by_contra hcount
      exact h i hlt (.inl ⟨name, hi, hcount⟩)
    · obtain ⟨i, hi⟩ := List.getElem?_of_mem ht
      rw [← Bool.not_eq_true]
      intro hzero
      exact h i (List.getElem?_eq_some_iff.mp hi).1 (.inr ⟨t, x, hi, hx, hzero⟩)
  · rintro ⟨hnodup, htimes⟩ k - (⟨name, hname, hcount⟩ | ⟨t, x, ht, hx, hzero⟩)
    · exact hcount (List.nodup_iff_count_eq_one.mp hnodup name (List.mem_of_getElem? hname))
    · rw [htimes t (List.mem_of_getElem? ht) x hx] at hzero
      cases hzero

end counts

section files
variable [Zero τ] {opts opts' : Options} {fmtF : τ → String} {py : Python F} {es es' : List (Event τ)}

/-- The two runs behind the files that report joins. -/
structure PairedRuns (py : Python F) (fmtF : τ → String) (opts opts' : Options) (es es' : List (Event τ)) : Prop where
  mode : SameMode opts opts'
  counts : opts.timeRun = false
  timed : opts'.timeRun = true
  callbacks : es.filterMap callbackArgs = es'.filterMap callbackArgs
  numerals : ReadsNumerals py
  times : ReadsTimes py fmtF

/-- Runs whose labels and file names are read back from their files as they are. -/
structure ReadableRuns (py : Python F) (fmtF : τ → String) (opts opts' : Options) (es es' : List (Event τ)) : Prop
    extends PairedRuns py fmtF opts opts' es es' where
  readable : ∀ p ∈ finalPoints opts es, ReadablePoint p

/-- The runs write the same names. -/
theorem PairedRuns.readNames_eq (h : PairedRuns py fmtF opts opts' es es') :
    readNames (finalPoints opts' es') = readNames (finalPoints opts es) := by
  have hnames := congrArg (List.map nameValue) (outputNames_run h.mode h.callbacks)
  rw [List.map_map, List.map_map] at hnames
  exact hnames.symm

theorem PairedRuns.length_eq (h : PairedRuns py fmtF opts opts' es es') :
    (finalPoints opts' es').length = (finalPoints opts es).length := by
  have hlength := congrArg List.length (outputNames_run h.mode h.callbacks)
  rw [List.length_map, List.length_map, length_outputNames, length_outputNames] at hlength
  exact hlength.symm

variable [Sub τ]

/-- What report sees of the file of the times. -/
theorem ReadableRuns.parse_times (h : ReadableRuns py fmtF opts opts' es es') :
    ∃ rootTime, parse (outputFile opts' fmtF es') = some rootTime ∧
      pointsOf rootTime = (outputNames (finalPoints opts' es')).map fun q => pointElement opts' fmtF q.1 q.2 := by
  have hreadable : ∀ q ∈ finalPoints opts' es', ReadablePoint q := by
    intro q hq
    obtain ⟨p, hp, heq⟩ := exists_outline h.mode h.callbacks hq
    exact (h.readable p hp).of_outline heq
  rw [outputFile_document]
  exact parse_readable opts' h.times hreadable

private theorem ReadableRuns.getPoints_eq (h : ReadableRuns py fmtF opts opts' es es') {colourN : ℤ}
    (hcolour : colourN ≤ 5)
    (name : String) : ∃ rootTime,
      pointsOf rootTime = (outputNames (finalPoints opts' es')).map (fun q => pointElement opts' fmtF q.1 q.2) ∧
      py.getPoints colourN name (outputFile opts fmtF es) (outputFile opts' fmtF es') =
        ((outputNames (finalPoints opts es)).map fun q => pointElement opts fmtF q.1 q.2).mapM
          (py.getPoint colourN name rootTime) := by
  obtain ⟨root, hroot, hpoints⟩ := parse_readable opts h.times h.readable
  obtain ⟨rootTime, hrootTime, hpointsTime⟩ := h.parse_times
  refine ⟨rootTime, hpointsTime, ?_⟩
  rw [outputFile_document, getPoints_joinPoints hcolour hroot hrootTime, joinPoints, hpoints]

/-- What the loop does with one region. -/
theorem ReadableRuns.point_iff (h : ReadableRuns py fmtF opts opts' es es') {rootTime : Element}
    (hroot : pointsOf rootTime = (outputNames (finalPoints opts' es')).map fun q => pointElement opts' fmtF q.1 q.2)
    (colourN : ℤ) (app : String) {k : ℕ} {p : Client.Point τ} {name : String}
    (hk : (outputNames (finalPoints opts es))[k]? = some (p, name)) :
    (∃ P, py.getPoint colourN app rootTime (pointElement opts fmtF p name) = .ok P) ↔
      ¬ AssertsAt py fmtF (finalPoints opts' es') k ∧ drainedBytes opts es k % 2 ^ 64 ≠ 0 := by
  obtain ⟨t, hk', ht⟩ := exists_sameName h.mode h.callbacks hk
  obtain ⟨hasserts, hdivides, hreturns⟩ := getPoint_outcome h.numerals h.times h.counts h.timed hroot
    (apostrophe_outputNames h.readable (List.mem_of_getElem? hk)) hk' ht colourN app
  rw [← bytes_drained (getElem?_of_outputNames hk)]
  constructor
  · rintro ⟨P, hP⟩
    have hnot : ¬ AssertsAt py fmtF (finalPoints opts' es') k := by
      intro hassert
      obtain ⟨message, herror⟩ := hasserts hassert
      rw [hP] at herror
      cases herror
    refine ⟨hnot, fun hzero => ?_⟩
    have herror := hdivides hnot hzero
    rw [hP] at herror
    cases herror
  · rintro ⟨hnot, hbytes⟩
    exact hreturns hnot hbytes

/-- A point that the loop appends for a region. -/
theorem ReadableRuns.placed (h : ReadableRuns py fmtF opts opts' es es') {rootTime : Element}
    (hroot : pointsOf rootTime = (outputNames (finalPoints opts' es')).map fun q => pointElement opts' fmtF q.1 q.2)
    {colourN : ℤ} {app : String} {k : ℕ} {p t : Client.Point τ} {name : String}
    (hk : (outputNames (finalPoints opts es))[k]? = some (p, name)) (ht : (finalPoints opts' es')[k]? = some t)
    {P : Report.Point F} (hP : py.getPoint colourN app rootTime (pointElement opts fmtF p name) = .ok P) :
    P.label = nameValue name ∧
      Placed py (countedFlops opts es k % 2 ^ 64).toNat (drainedBytes opts es k % 2 ^ 64) (fmtF t.elapsed) P := by
  obtain ⟨e, hj⟩ := getPoint_eq_ok hP
  obtain ⟨hperByte, hperSec⟩ := getPoint_coordinates hP
  obtain ⟨t', hk', ht'⟩ := exists_sameName h.mode h.callbacks hk
  obtain rfl := Option.some.inj (ht.symm.trans ht')
  have hname := apostrophe_outputNames h.readable (List.mem_of_getElem? hk)
  have hlabel : P.label = nameValue name := by
    have hread := hj.label
    rw [attribOf_pointElement] at hread
    exact (Except.ok.inj hread).symm
  have hfound : e = pointElement opts' fmtF t name := by
    obtain ⟨found, hsearch, -, hmem⟩ := findPoints_readNames py hname hroot
    have hone := hj.found
    rw [hlabel, hsearch, Except.ok.injEq] at hone
    have hthis := hmem t (List.mem_of_getElem? hk')
    rw [hone, List.mem_singleton] at hthis
    exact hthis.symm
  have hcombined := combined_of_joined h.counts h.timed hj hfound
  refine ⟨hlabel, ?_, ?_, hcombined.time, hperByte, hperSec⟩
  · rw [← flops_counted (getElem?_of_outputNames hk)]
    exact hcombined.flops
  · rw [← bytes_drained (getElem?_of_outputNames hk)]
    exact hcombined.bytes

/-- The loop returns if no region stops it. -/
theorem ReadableRuns.loop_iff (h : ReadableRuns py fmtF opts opts' es es') {rootTime : Element}
    (hroot : pointsOf rootTime = (outputNames (finalPoints opts' es')).map fun q => pointElement opts' fmtF q.1 q.2)
    (colourN : ℤ) (name : String) :
    (∃ Ps, ((outputNames (finalPoints opts es)).map fun q => pointElement opts fmtF q.1 q.2).mapM
        (py.getPoint colourN name rootTime) = .ok Ps) ↔
      (∀ k < (finalPoints opts es).length, drainedBytes opts es k % 2 ^ 64 ≠ 0) ∧
        ∀ k < (finalPoints opts' es').length, ¬ AssertsAt py fmtF (finalPoints opts' es') k := by
  rw [exists_mapM_iff, List.forall_mem_map, h.length_eq]
  constructor
  · intro hall
    have heach : ∀ k < (finalPoints opts es).length, ¬ AssertsAt py fmtF (finalPoints opts' es') k ∧
        drainedBytes opts es k % 2 ^ 64 ≠ 0 := by
      intro k hk
      obtain ⟨p, hp⟩ : ∃ p, (finalPoints opts es)[k]? = some p := ⟨_, List.getElem?_eq_getElem hk⟩
      obtain ⟨n, hn⟩ := exists_name hp
      have hpoint : ∃ P, py.getPoint colourN name rootTime (pointElement opts fmtF p n) = .ok P :=
        hall (p, n) (List.mem_of_getElem? hn)
      exact (h.point_iff hroot colourN name hn).mp hpoint
    exact ⟨fun k hk => (heach k hk).2, fun k hk => (heach k hk).1⟩
  · rintro ⟨hbytes, hasserts⟩ ⟨p, n⟩ hq
    obtain ⟨k, hk⟩ := List.getElem?_of_mem hq
    have hlt := (List.getElem?_eq_some_iff.mp (getElem?_of_outputNames hk)).1
    exact (h.point_iff hroot colourN name hk).mpr ⟨hasserts k hlt, hbytes k hlt⟩

/-- The points that the loop returns, by position. -/
theorem ReadableRuns.loop_placed (h : ReadableRuns py fmtF opts opts' es es') {rootTime : Element}
    (hroot : pointsOf rootTime = (outputNames (finalPoints opts' es')).map fun q => pointElement opts' fmtF q.1 q.2)
    {colourN : ℤ} {name : String} {Ps : List (Report.Point F)}
    (hPs : ((outputNames (finalPoints opts es)).map fun q => pointElement opts fmtF q.1 q.2).mapM
      (py.getPoint colourN name rootTime) = .ok Ps) :
    Ps.map (·.label) = readNames (finalPoints opts es) ∧
      ∀ (i : ℕ) (P : Report.Point F) (t : Client.Point τ), Ps[i]? = some P → (finalPoints opts' es')[i]? = some t →
        Placed py (countedFlops opts es i % 2 ^ 64).toNat (drainedBytes opts es i % 2 ^ 64) (fmtF t.elapsed) P := by
  have hall := mapM_eq_ok hPs
  rw [List.forall₂_map_left_iff] at hall
  have hlength : Ps.length = (finalPoints opts es).length := by rw [← hall.length_eq, length_outputNames]
  have hplaced : ∀ (i : ℕ) (P : Report.Point F) (q : Client.Point τ × String) (t : Client.Point τ), Ps[i]? = some P →
      (outputNames (finalPoints opts es))[i]? = some q → (finalPoints opts' es')[i]? = some t →
        P.label = nameValue q.2 ∧ Placed py (countedFlops opts es i % 2 ^ 64).toNat
          (drainedBytes opts es i % 2 ^ 64) (fmtF t.elapsed) P := by
    intro i P q t hP hq ht
    have hPoint : py.getPoint colourN name rootTime (pointElement opts fmtF q.1 q.2) = .ok P :=
      forall₂_getElem? hall hq hP
    exact h.placed hroot hq ht hPoint
  constructor
  · apply List.ext_getElem
    · rw [List.length_map, hlength, readNames, List.length_map, length_outputNames]
    · intro i hi hi'
      rw [List.length_map] at hi
      have hp : i < (finalPoints opts es).length := hlength ▸ hi
      have ht : i < (finalPoints opts' es').length := h.length_eq ▸ hp
      have hq : i < (outputNames (finalPoints opts es)).length := by rwa [length_outputNames]
      simp only [readNames, List.getElem_map]
      exact (hplaced i _ _ _ (List.getElem?_eq_getElem hi) (List.getElem?_eq_getElem hq)
        (List.getElem?_eq_getElem ht)).1
  · intro i P t hP ht
    have hp : i < (finalPoints opts es).length := hlength ▸ (List.getElem?_eq_some_iff.mp hP).1
    obtain ⟨n, hn⟩ := exists_name (List.getElem?_eq_getElem hp)
    exact (hplaced i P _ t hP hn ht).2

/-- A recording whose regions have distinct names, drain some bytes and take some time in the last run. -/
structure Plottable (py : Python F) (fmtF : τ → String) (opts opts' : Options) (es run : List (Event τ)) : Prop where
  drained : ∀ k < (finalPoints opts es).length, drainedBytes opts es k % 2 ^ 64 ≠ 0
  names : (readNames (finalPoints opts es)).Nodup
  timed : ∀ t ∈ finalPoints opts' run, ∀ x, py.float (fmtF t.elapsed) = some x → py.isZero x = false

/-- The points of a recording: one for each region, where its operations, its bytes and its time put it. -/
structure PlottedAt (py : Python F) (fmtF : τ → String) (opts opts' : Options) (es run : List (Event τ))
    (Ps : List (Report.Point F)) : Prop where
  labels : Ps.map (·.label) = readNames (finalPoints opts es)
  placed : ∀ (i : ℕ) (P : Report.Point F) (t : Client.Point τ), Ps[i]? = some P →
    (finalPoints opts' run)[i]? = some t →
      Placed py (countedFlops opts es i % 2 ^ 64).toNat (drainedBytes opts es i % 2 ^ 64) (fmtF t.elapsed) P

/-- When the loop returns, whatever the colour. -/
theorem ReadableRuns.getPoints_iff (h : ReadableRuns py fmtF opts opts' es es') (colourN : ℤ) (name : String) :
    (∃ Ps, py.getPoints colourN name (outputFile opts fmtF es) (outputFile opts' fmtF es') = .ok Ps) ↔
      colourN ≤ 5 ∧ Plottable py fmtF opts opts' es es' := by
  by_cases hcolour : colourN ≤ 5
  · obtain ⟨rootTime, hroot, heq⟩ := h.getPoints_eq hcolour name
    rw [heq, h.loop_iff hroot, forall_not_assertsAt, h.readNames_eq]
    constructor
    · rintro ⟨hdrained, hnames, htimed⟩
      exact ⟨hcolour, hdrained, hnames, htimed⟩
    · rintro ⟨-, hdrained, hnames, htimed⟩
      exact ⟨hdrained, hnames, htimed⟩
  · refine iff_of_false ?_ fun hcond => hcolour hcond.1
    rintro ⟨Ps, hPs⟩
    rw [Python.getPoints, if_pos hcolour] at hPs
    cases hPs

theorem ReadableRuns.getPoints_placed (h : ReadableRuns py fmtF opts opts' es es') {colourN : ℤ} {name : String}
    {Ps : List (Report.Point F)}
    (hPs : py.getPoints colourN name (outputFile opts fmtF es) (outputFile opts' fmtF es') = .ok Ps) :
    PlottedAt py fmtF opts opts' es es' Ps := by
  have hcolour := ((h.getPoints_iff colourN name).mp ⟨Ps, hPs⟩).1
  obtain ⟨rootTime, hroot, heq⟩ := h.getPoints_eq hcolour name
  rw [heq] at hPs
  exact ⟨(h.loop_placed hroot hPs).1, (h.loop_placed hroot hPs).2⟩

/-- When report makes points of a recording. In general that is decided by what its files say; where labels and file
names are read back as they are, there must be at most five inputs, every region must drain some bytes, the names must
be distinct, and no time may be read as zero. Then there is a point for each region, in order, at its operations by
its bytes, and at its operations by its time. -/
theorem recorded_points (h : PairedRuns py fmtF opts opts' es es') (hfind : NoAsserts py) (colourN : ℤ)
    (name : String) :
    ((∃ Ps, py.getPoints colourN name (outputFile opts fmtF es) (outputFile opts' fmtF es') = .ok Ps) ↔
      colourN ≤ 5 ∧ Complete py (outputFile opts fmtF es) (outputFile opts' fmtF es')) ∧
    ((∀ p ∈ finalPoints opts es, ReadablePoint p) →
      ((∃ Ps, py.getPoints colourN name (outputFile opts fmtF es) (outputFile opts' fmtF es') = .ok Ps) ↔
        colourN ≤ 5 ∧ Plottable py fmtF opts opts' es es') ∧
        ∀ Ps, py.getPoints colourN name (outputFile opts fmtF es) (outputFile opts' fmtF es') = .ok Ps →
          PlottedAt py fmtF opts opts' es es' Ps) := by
  refine ⟨getPoints_returns_iff hfind colourN name, fun hreadable => ?_⟩
  have hruns : ReadableRuns py fmtF opts opts' es es' := ⟨h, hreadable⟩
  exact ⟨hruns.getPoints_iff colourN name, fun _ hPs => hruns.getPoints_placed hPs⟩

end files

private theorem pairedRuns_countedRun (file : String) :
    PairedRuns exactPython wholeSeconds {} timeOptions (countedRun file) (timedRun file) where
  mode := ⟨rfl, rfl, rfl, rfl⟩
  counts := rfl
  timed := rfl
  callbacks := rfl
  numerals := readsNumerals_exactPython
  times := readsTimes_wholeSeconds

/-- The regions of countedRun, once in a file whose name is a reference. -/
theorem recorded_points_countedRun :
    Complete exactPython (outputFile {} wholeSeconds (countedRun "a&lt;b.c"))
      (outputFile timeOptions wholeSeconds (timedRun "a&lt;b.c")) ∧
    ∃ Ps, recordedPoints "a.c" = .ok Ps ∧
      (∀ k < (finalPoints {} (countedRun "a.c")).length, drainedBytes {} (countedRun "a.c") k % 2 ^ 64 ≠ 0) ∧
      Ps.map (·.label) = readNames (finalPoints {} (countedRun "a.c")) := by
  have hok : (recordedPoints "a.c").isOk && (recordedPoints "a&lt;b.c").isOk = true := by
    rw [recordedPoints, recordedPoints, Python.getPoints, Python.getPoints, parse_eq, parse_eq, parse_eq, parse_eq]
    decide +kernel
  rw [Bool.and_eq_true] at hok
  constructor
  · have hiff := (recorded_points (pairedRuns_countedRun "a&lt;b.c") noAsserts_exactPython 1 "app").1
    cases h : recordedPoints "a&lt;b.c" with
    | error e =>
      rw [h] at hok
      cases hok.2
    | ok Ps => exact (hiff.mp ⟨Ps, h⟩).2
  · obtain ⟨hiff, hplaced⟩ := (recorded_points (pairedRuns_countedRun "a.c") noAsserts_exactPython 1 "app").2
      readablePoint_countedRun
    cases h : recordedPoints "a.c" with
    | error e =>
      rw [h] at hok
      cases hok.1
    | ok Ps => exact ⟨Ps, rfl, (hiff.mp ⟨Ps, h⟩).2.drained, (hplaced Ps h).labels⟩

end Roofline.Correctness
