import Roofline.Correctness.RoundTrip
import Roofline.Correctness.Provenance
import Mathlib.Algebra.Order.BigOperators.Group.Multiset
import Mathlib.Data.List.TakeWhile

/-! When get_points divides by zero. The time of a point is checked before anything is divided
by it; the bytes are not, and a region in which no reference is drained has none. -/
namespace Roofline.Correctness
open Client Library.Xml Report
variable {τ F : Type}

/-- A point for each of n elements, or one of the assertions of get_points. -/
def DivisionSafe (n : ℕ) (result : Except PyError (List (Report.Point F))) : Prop :=
  (∃ Ps, result = .ok Ps ∧ Ps.length = n) ∨ ∃ message, result = .error (.assertionError message)

/-- What the elements of the two files must say: an assertion stops the loop at one of them, and it
makes a point of each one before that, or there are n elements and it makes a point of each. -/
def LoopSafe (py : Python F) (n : ℕ) (root rootTime : Element) : Prop :=
  (∃ before p after, pointsOf root = before ++ p :: after ∧ Stops py rootTime p ∧
      ∀ q ∈ before, Divides py rootTime q) ∨
    (pointsOf root).length = n ∧ ∀ p ∈ pointsOf root, Divides py rootTime p

/-- The bytes of the references that are drained in region j. -/
def drainedBytes (opts : Options) (es : List (Event τ)) (j : ℕ) : ℕ :=
  ((origin opts es j).map fun k => (es[k]?.map Event.refSize).getD 0).sum

/-- The labels of the points, as they are read. -/
def readNames (ps : List (Client.Point τ)) : List String := (outputNames ps).map fun q => nameValue q.2

/-- An assertion stops the loop at point i: its label is there more than once, or its time is zero. -/
def AssertsAt [Sub τ] (py : Python F) (fmtF : τ → String) (ts : List (Client.Point τ)) (i : ℕ) : Prop :=
  (∃ name, (readNames ts)[i]? = some name ∧ (readNames ts).count name ≠ 1) ∨
    ∃ t x, ts[i]? = some t ∧ py.float (fmtF t.elapsed) = some x ∧ py.isZero x = true

/-- Natural numbers can be read as floats, and only zero is read as zero. -/
def ReadsNumerals (py : Python F) : Prop :=
  ∀ n : ℕ, ∃ x, py.float (toString n) = some x ∧ (py.isZero x = true ↔ n = 0)

/-- Times are written without markup and can be read as floats. -/
structure ReadsTimes (py : Python F) (fmtF : τ → String) : Prop where
  content : ∀ t, PlainContent (fmtF t).toList
  clean : ∀ t, (fmtF t).toList.all isClean = true
  ne_empty : ∀ t, fmtF t ≠ ""
  float : ∀ t, ∃ x, py.float (fmtF t) = some x

/-- The strings of a point can be read back, and its label can be searched for. -/
structure ReadablePoint (p : Client.Point τ) : Prop where
  unescaped : UnescapedPoint p
  apostrophe : apostrophe ∉ p.label.toList
  label : p.label.toList.all isClean = true
  fileStart : p.srcFileStart.toList.all isClean = true
  fileEnd : p.srcFileEnd.toList.all isClean = true

/-- The loop is safe if every division by zero has an assertion before it. -/
theorem mapM_divisionSafe_iff {α : Type} {f : α → Except PyError (Report.Point F)} {xs : List α}
    (asserts zero : ℕ → Prop) (h : ∀ (k : ℕ) (x : α), xs[k]? = some x →
      (asserts k → ∃ message, f x = .error (.assertionError message)) ∧
        (¬ asserts k → zero k → f x = .error .zeroDivisionError) ∧ (¬ asserts k → ¬ zero k → ∃ P, f x = .ok P)) :
    DivisionSafe xs.length (xs.mapM f) ↔ ∀ k < xs.length, zero k → ∃ i ≤ k, asserts i := by
  induction xs generalizing asserts zero with
  | nil => exact iff_of_true (.inl ⟨[], rfl, rfl⟩) fun k hk => absurd hk (Nat.not_lt_zero k)
  | cons x xs ih =>
    obtain ⟨hstops, hdivides, hreturns⟩ := h 0 x rfl
    by_cases hassert : asserts 0
    · obtain ⟨message, hx⟩ := hstops hassert
      refine iff_of_true (.inr ⟨message, ?_⟩) fun k _ _ => ⟨0, Nat.zero_le k, hassert⟩
      rw [List.mapM_cons, hx]
      rfl
    by_cases hzero : zero 0
    · have herror : (x :: xs).mapM f = .error .zeroDivisionError := by
        rw [List.mapM_cons, hdivides hassert hzero]
        rfl
      rw [herror]
      refine iff_of_false ?_ fun hbefore => ?_
      · rintro (⟨Ps, hPs, -⟩ | ⟨message, hmessage⟩)
        · cases hPs
        · cases hmessage
      · obtain ⟨i, hi, hi'⟩ := hbefore 0 (Nat.succ_pos _) hzero
        obtain rfl := Nat.le_zero.mp hi
        exact hassert hi'
    · obtain ⟨P, hx⟩ := hreturns hassert hzero
      have hstep : DivisionSafe (x :: xs).length ((x :: xs).mapM f) ↔ DivisionSafe xs.length (xs.mapM f) := by
        rw [List.mapM_cons, hx, ok_bind]
        cases xs.mapM f with
        | error e => simp [DivisionSafe, bind, Except.bind]
        | ok Ps => simp [DivisionSafe, bind, Except.bind, pure, Except.pure]
      rw [hstep, ih (fun k => asserts (k + 1)) (fun k => zero (k + 1)) fun k y hy => h (k + 1) y hy]
      constructor
      · intro hbefore k hk hk'
        cases k with
        | zero => exact absurd hk' hzero
        | succ k =>
          obtain ⟨i, hi, hi'⟩ := hbefore k (Nat.lt_of_succ_lt_succ hk) hk'
          exact ⟨i + 1, Nat.succ_le_succ hi, hi'⟩
      · intro hbefore k hk hk'
        obtain ⟨i, hi, hi'⟩ := hbefore (k + 1) (Nat.succ_lt_succ hk) hk'
        cases i with
        | zero => exact absurd hi' hassert
        | succ i => exact ⟨i, Nat.le_of_succ_le_succ hi, hi'⟩

section parsed
variable {py : Python F} {colourN : ℤ} {name roofline rooflineTime : String}

/-- A loop over elements, whatever they say. -/
theorem joinPoints_divisionSafe_iff (hfind : NoAsserts py) {n : ℕ} {root rootTime : Element} :
    DivisionSafe n (joinPoints py colourN name root rootTime) ↔ LoopSafe py n root rootTime := by
  rw [DivisionSafe, LoopSafe, or_comm]
  apply or_congr
  · constructor
    · rintro ⟨message, h⟩
      obtain ⟨before, p, after, hpoints, hp, hbefore⟩ := mapM_eq_error.mp h
      exact ⟨before, p, after, hpoints, (getPoint_asserts_iff colourN name hfind).mp ⟨message, hp⟩,
        fun q hq => (getPoint_returns_iff colourN name hfind).mp (hbefore q hq)⟩
    · rintro ⟨before, p, after, hpoints, hp, hbefore⟩
      obtain ⟨message, hmessage⟩ := (getPoint_asserts_iff colourN name hfind).mpr hp
      exact ⟨message, mapM_eq_error.mpr ⟨before, p, after, hpoints, hmessage,
        fun q hq => (getPoint_returns_iff colourN name hfind).mpr (hbefore q hq)⟩⟩
  · constructor
    · rintro ⟨Ps, h, hlength⟩
      refine ⟨(mapM_eq_ok h).length_eq.trans hlength, fun p hp => ?_⟩
      exact (getPoint_returns_iff colourN name hfind).mp (exists_mapM_iff.mp ⟨Ps, h⟩ p hp)
    · rintro ⟨hlength, hpoints⟩
      obtain ⟨Ps, h⟩ := exists_mapM_iff.mpr fun p hp =>
        (getPoint_returns_iff colourN name hfind).mpr (hpoints p hp)
      exact ⟨Ps, h, (mapM_eq_ok h).length_eq.symm.trans hlength⟩

/-- get_points on any two files. -/
theorem getPoints_divisionSafe_iff (hfind : NoAsserts py) {n : ℕ} :
    DivisionSafe n (py.getPoints colourN name roofline rooflineTime) ↔
      5 < colourN ∨ ∃ root rootTime, parse roofline = some root ∧ parse rooflineTime = some rootTime ∧
        LoopSafe py n root rootTime := by
  have hparse : ¬ DivisionSafe n (.error .parseError : Except PyError (List (Report.Point F))) := by
    rintro (⟨Ps, h, -⟩ | ⟨message, h⟩) <;> cases h
  by_cases hcolour : colourN ≤ 5
  · rw [or_iff_right (by omega)]
    cases hroot : parse roofline with
    | none =>
      rw [Python.getPoints, if_neg (not_not.mpr hcolour), hroot]
      exact iff_of_false hparse (by simp)
    | some root =>
      cases hrootTime : parse rooflineTime with
      | none =>
        rw [Python.getPoints, if_neg (not_not.mpr hcolour), hroot, hrootTime]
        exact iff_of_false hparse (by simp)
      | some rootTime =>
        rw [getPoints_joinPoints hcolour hroot hrootTime, joinPoints_divisionSafe_iff hfind]
        simp
  · have hassert : py.getPoints colourN name roofline rooflineTime =
        .error (.assertionError "Please select less than 5 different files") := by
      rw [Python.getPoints, if_pos hcolour]
      rfl
    exact iff_of_true (.inr ⟨_, hassert⟩) (.inl (by omega))

end parsed

section point
variable [Sub τ] {opts opts' : Options} {fmtF : τ → String} {py : Python F} {ts : List (Client.Point τ)}
  {p t : Client.Point τ} {name : String} {i : ℕ}

theorem floatOf_text {e : Element} {tag s : String} {x : F} (hs : s ≠ "") (h : textOf e tag = .ok (textIn s))
    (hx : py.float s = some x) : py.floatOf e tag = .ok x := by
  rw [Python.floatOf, h, textIn, if_neg hs]
  exact orRaise_eq_ok.mpr hx

/-- Everything in the element of a point can be read; its bytes are zero if the counter is. -/
theorem readings_pointElement (hpy : ReadsNumerals py) (ht : opts.timeRun = false) (fmtF : τ → String)
    (p : Client.Point τ) (name : String) :
    ∃ flops bytes, Readings py (pointElement opts fmtF p name) (nameValue name) flops bytes ∧
      (py.isZero bytes = true ↔ p.bytes.toNat = 0) := by
  have hfloat {tag : String} {n : ℕ} {x : F} (hmem : (tag, toString n) ∈ fields opts fmtF p)
      (hx : py.float (toString n) = some x) : py.floatOf (pointElement opts fmtF p name) tag = .ok x :=
    floatOf_text (toString_ne_empty n) (textOf_pointElement hmem) hx
  obtain ⟨flops, hflops, -⟩ := hpy p.flops.toNat
  obtain ⟨bytes, hbytes, hzero⟩ := hpy p.bytes.toNat
  obtain ⟨reads, hreads, -⟩ := hpy p.readBytes.toNat
  obtain ⟨writes, hwrites, -⟩ := hpy p.writeBytes.toNat
  refine ⟨flops, bytes, ?_, hzero⟩
  exact {
    label := attribOf_pointElement
    flops := hfloat (by simp [fields, ht]) hflops
    bytes := hfloat (by simp [fields, ht]) hbytes
    readBytes := ⟨reads, hfloat (by simp [fields, ht]) hreads⟩
    writeBytes := ⟨writes, hfloat (by simp [fields, ht]) hwrites⟩
    startSrc := ⟨_, textOf_pointElement (s := p.srcFileStart) (by simp [fields, ht])⟩
    endSrc := ⟨_, textOf_pointElement (s := p.srcFileEnd) (by simp [fields, ht])⟩
    startLine := ⟨_, intOf_numeral (textOf_pointElement (s := toString p.lineNumberStart.toNat) (by simp [fields, ht]))⟩
    endLine := ⟨_, intOf_numeral (textOf_pointElement (s := toString p.lineNumberEnd.toNat) (by simp [fields, ht]))⟩ }

/-- The search finds as many elements as there are points of the name. -/
theorem findPoints_readNames (py : Python F) {rootTime : Element} (hname : apostrophe ∉ name.toList)
    (hroot : pointsOf rootTime = (outputNames ts).map fun q => pointElement opts' fmtF q.1 q.2) :
    ∃ found, py.findPoints rootTime (nameValue name) = .ok found ∧
      found.length = (readNames ts).count (nameValue name) ∧
      ∀ t, (t, name) ∈ outputNames ts → pointElement opts' fmtF t name ∈ found := by
  refine ⟨_, findPoints_eq (apostrophe_nameValue hname), ?_, ?_⟩
  · rw [hroot, List.filter_map, List.length_map, readNames, List.count, List.countP_map,
      List.countP_eq_length_filter]
    congr 1
    refine List.filter_congr fun q _ => ?_
    rw [Bool.eq_iff_iff]
    simp [pointElement]
  · intro t ht
    rw [List.mem_filter, hroot]
    exact ⟨List.mem_map.mpr ⟨(t, name), ht, rfl⟩, by simp [pointElement]⟩

/-- What the loop does with point i: it stops by an assertion, it divides by zero if no bytes
are counted, and otherwise it appends a point. -/
theorem getPoint_outcome (hpy : ReadsNumerals py) (htimes : ReadsTimes py fmtF) (ht : opts.timeRun = false)
    (ht' : opts'.timeRun = true) {rootTime : Element}
    (hroot : pointsOf rootTime = (outputNames ts).map fun q => pointElement opts' fmtF q.1 q.2)
    (hname : apostrophe ∉ name.toList) (hi : (outputNames ts)[i]? = some (t, name)) (hti : ts[i]? = some t)
    (colourN : ℤ) (app : String) :
    (AssertsAt py fmtF ts i → ∃ message, py.getPoint colourN app rootTime (pointElement opts fmtF p name) =
        .error (.assertionError message)) ∧
      (¬ AssertsAt py fmtF ts i → p.bytes.toNat = 0 →
        py.getPoint colourN app rootTime (pointElement opts fmtF p name) = .error .zeroDivisionError) ∧
      (¬ AssertsAt py fmtF ts i → p.bytes.toNat ≠ 0 →
        ∃ P, py.getPoint colourN app rootTime (pointElement opts fmtF p name) = .ok P) := by
  obtain ⟨flops, bytes, hreadings, hbytes⟩ := readings_pointElement hpy ht fmtF p name
  obtain ⟨found, hfound, hlen, hmem⟩ := findPoints_readNames py hname hroot
  have hread : (readNames ts)[i]? = some (nameValue name) := by
    rw [readNames, List.getElem?_map, hi]
    rfl
  by_cases hcount : (readNames ts).count (nameValue name) = 1
  · obtain ⟨x, hx⟩ := htimes.float t.elapsed
    have htime : py.floatOf (pointElement opts' fmtF t name) "time" = .ok x :=
      floatOf_text (htimes.ne_empty _) (textOf_pointElement (by simp [fields, ht'])) hx
    obtain ⟨e, rfl⟩ := List.length_eq_one_iff.mp (hlen.trans hcount)
    obtain rfl := List.mem_singleton.mp (hmem t (List.mem_of_getElem? hi))
    obtain ⟨hstop, hzero, hok⟩ := getPoint_found colourN app hreadings hfound htime
    have hassert : AssertsAt py fmtF ts i ↔ py.isZero x = true := by
      constructor
      · rintro (⟨n, hn, hne⟩ | ⟨t', x', ht', hx', hzero'⟩)
        · rw [hread, Option.some.injEq] at hn
          exact absurd (hn ▸ hcount) hne
        · rw [hti, Option.some.injEq] at ht'
          rw [← ht', hx, Option.some.injEq] at hx'
          rwa [hx']
      · exact fun hzero' => .inr ⟨t, x, hti, hx, hzero'⟩
    simp only [hassert, Bool.not_eq_true, ← hbytes, ne_eq]
    exact ⟨hstop, hzero, hok⟩
  · have hassert : AssertsAt py fmtF ts i := .inl ⟨_, hread, hcount⟩
    exact ⟨fun _ => getPoint_ambiguous colourN app hreadings hfound (hlen ▸ hcount), fun h => absurd hassert h,
      fun h => absurd hassert h⟩

end point
section files
variable {opts : Options} {fmtF : τ → String} {py : Python F} {ps : List (Client.Point τ)}

theorem ReadablePoint.of_outline {p q : Client.Point τ} (h : ReadablePoint p) (heq : outline p = outline q) :
    ReadablePoint q := by
  simp only [outline, Outline.mk.injEq] at heq
  obtain ⟨hlabel, hstart, hend, -, -⟩ := heq
  exact ⟨⟨hlabel ▸ h.unescaped.label, hstart ▸ h.unescaped.fileStart, hend ▸ h.unescaped.fileEnd⟩,
    hlabel ▸ h.apostrophe, hlabel ▸ h.label, hstart ▸ h.fileStart, hend ▸ h.fileEnd⟩

theorem apostrophe_outputNames (hps : ∀ p ∈ ps, ReadablePoint p) {q : Client.Point τ × String}
    (hq : q ∈ outputNames ps) : apostrophe ∉ q.2.toList := by
  refine forall_outputNames (P := fun s => apostrophe ∉ s.toList) (fun s n hs => ?_)
    (fun p hp => (hps p hp).apostrophe) q hq
  rw [String.toList_append, List.mem_append, not_or]
  exact ⟨hs, not_mem_toString (by decide) n⟩

private theorem clean_outputNames (hps : ∀ p ∈ ps, ReadablePoint p) {q : Client.Point τ × String}
    (hq : q ∈ outputNames ps) : q.2.toList.all isClean = true := by
  refine forall_outputNames (P := fun s => s.toList.all isClean = true) (fun s n hs => ?_)
    (fun p hp => (hps p hp).label) q hq
  rw [String.toList_append, List.all_append, Bool.and_eq_true]
  exact ⟨hs, (printable_toString n).clean⟩

private theorem forall_fields_of [Sub τ] {P : String → Prop} (hnumeral : ∀ n : ℕ, P (toString n))
    (htime : ∀ t, P (fmtF t))
    {p : Client.Point τ} (hstart : P p.srcFileStart) (hend : P p.srcFileEnd) : ∀ l ∈ fields opts fmtF p, P l.2 := by
  cases ht : opts.timeRun with
  | false => exact (forall_fields ht hnumeral).mpr ⟨hstart, hend⟩
  | true =>
    intro l hl
    simp only [fields, ht, Bool.true_eq_false, if_false, List.mem_singleton] at hl
    rw [hl]
    exact htime _

/-- A file of readable points is read as these points, in both runs. -/
theorem parse_readable [Sub τ] (opts : Options) (htimes : ReadsTimes py fmtF) (hps : ∀ p ∈ ps, ReadablePoint p) :
    ∃ root, parse (document opts fmtF ps) = some root ∧
      pointsOf root = (outputNames ps).map fun q => pointElement opts fmtF q.1 q.2 := by
  refine parse_document (fun q hq => ?_) fun q hq => ?_
  · have hp := hps q.1 (mem_outputNames hq).1
    exact clean_pointNode.mpr ⟨clean_outputNames hps hq, forall_fields_of (P := fun s => s.toList.all isClean = true)
      (fun n => (printable_toString n).clean) htimes.clean hp.fileStart hp.fileEnd⟩
  · have hp := (hps q.1 (mem_outputNames hq).1).unescaped
    exact plain_pointNode.mpr ⟨(plainValue_outputNames hq).mpr hp.label,
      forall_fields_of (P := fun s => PlainContent s.toList) plainContent_toString htimes.content hp.fileStart
        hp.fileEnd⟩

end files

/-- The bytes of a written point are those that were drained in its region, modulo 2^64. -/
theorem bytes_drained [Zero τ] {opts : Options} {es : List (Event τ)} {k : ℕ} {p : Client.Point τ}
    (hp : (finalPoints opts es)[k]? = some p) : p.bytes.toNat = drainedBytes opts es k % 2 ^ 64 := by
  rw [(finalPoints_origin opts es hp).2, UInt64.toNat_ofNat']
  rfl

/-- A region has no bytes if only references without a size are drained in it, for instance none. -/
theorem drainedBytes_eq_zero {opts : Options} {es : List (Event τ)} {j : ℕ} :
    drainedBytes opts es j = 0 ↔ ∀ (k c : ℕ) (r : MemRef), es[k]? = some (.saveRef r) → countedBy es k = some c →
      roiAt opts es c = some j → (opts.merged = true ∨ ∀ ev, nextCallback es c = some ev → ev.isEnd = true) →
        r.size = 0 := by
  rw [drainedBytes, Multiset.sum_eq_zero_iff]
  constructor
  · intro h k c r hr hc hat hend
    have hk : k ∈ origin opts es j := (mem_origin opts es j k).mpr ⟨c, hc, hat, hend⟩
    have hsize := h _ (Multiset.mem_map_of_mem _ hk)
    rw [hr] at hsize
    exact UInt16.toNat_inj.mp hsize
  · intro h x hx
    obtain ⟨k, hk, rfl⟩ := Multiset.mem_map.mp hx
    obtain ⟨c, hc, hat, hend⟩ := (mem_origin opts es j k).mp hk
    cases hev : es[k]? with
    | none => rfl
    | some ev =>
      cases ev with
      | saveRef r =>
        have hsize := h k c r hev hc hat hend
        simp [Event.refSize, hsize]
      | _ => rfl

/-- On the files of two runs whose strings can be read back, get_points divides by zero at the first
point without bytes if no assertion has stopped it before. -/
theorem divisionSafe_of_readable [Zero τ] [Sub τ] {opts opts' : Options} (hmode : SameMode opts opts')
    (htimeRun : opts.timeRun = false) (htimeRun' : opts'.timeRun = true) {fmtF : τ → String} {py : Python F}
    (hpy : ReadsNumerals py) (htimes : ReadsTimes py fmtF) {es es' : List (Event τ)}
    (hargs : es.filterMap callbackArgs = es'.filterMap callbackArgs)
    (hread : ∀ p ∈ finalPoints opts es, ReadablePoint p) (colourN : ℤ) (name : String) :
    DivisionSafe (finalPoints opts es).length
        (py.getPoints colourN name (outputFile opts fmtF es) (outputFile opts' fmtF es')) ↔
      5 < colourN ∨ ∀ k < (finalPoints opts es).length, drainedBytes opts es k % 2 ^ 64 = 0 →
        ∃ i ≤ k, AssertsAt py fmtF (finalPoints opts' es') i := by
  by_cases hcolour : colourN ≤ 5
  · have hread' : ∀ q ∈ finalPoints opts' es', ReadablePoint q := by
      intro q hq
      obtain ⟨p, hp, heq⟩ := exists_outline hmode hargs hq
      exact (hread p hp).of_outline heq
    obtain ⟨root, hroot, hpoints⟩ := parse_readable opts htimes hread
    obtain ⟨rootTime, hrootTime, hpointsTime⟩ := parse_readable opts' htimes hread'
    have hjoin : py.getPoints colourN name (outputFile opts fmtF es) (outputFile opts' fmtF es') =
        ((outputNames (finalPoints opts es)).map fun q => pointElement opts fmtF q.1 q.2).mapM
          (py.getPoint colourN name rootTime) := by
      rw [outputFile_document, outputFile_document, getPoints_joinPoints hcolour hroot hrootTime, joinPoints, hpoints]
    have hlen : ((outputNames (finalPoints opts es)).map fun q => pointElement opts fmtF q.1 q.2).length =
        (finalPoints opts es).length := by
      rw [List.length_map, length_outputNames]
    rw [hjoin, ← hlen, mapM_divisionSafe_iff (AssertsAt py fmtF (finalPoints opts' es'))
      fun k => drainedBytes opts es k % 2 ^ 64 = 0]
    · exact (or_iff_right (by omega)).symm
    · intro k e he
      rw [List.getElem?_map, Option.map_eq_some_iff] at he
      obtain ⟨⟨p, n⟩, hq, rfl⟩ := he
      obtain ⟨t, hq', ht⟩ := exists_sameName hmode hargs hq
      rw [← bytes_drained (getElem?_of_outputNames hq)]
      exact getPoint_outcome hpy htimes htimeRun htimeRun' hpointsTime
        (apostrophe_outputNames hread (List.mem_of_getElem? hq)) hq' ht colourN name
  · have hassert : py.getPoints colourN name (outputFile opts fmtF es) (outputFile opts' fmtF es') =
        .error (.assertionError "Please select less than 5 different files") := by
      rw [Python.getPoints, if_pos hcolour]
      rfl
    exact iff_of_true (.inr ⟨_, hassert⟩) (.inl (by omega))

/-- get_points is safe exactly if what the two files say is; where the strings of the runs can be read
back, that is if each point without bytes comes at or behind one at which an assertion stops the loop. -/
theorem divisionSafe_iff [Zero τ] [Sub τ] {opts opts' : Options} (hmode : SameMode opts opts')
    (htimeRun : opts.timeRun = false) (htimeRun' : opts'.timeRun = true) {fmtF : τ → String} {py : Python F}
    (hpy : ReadsNumerals py) (htimes : ReadsTimes py fmtF) (hfind : NoAsserts py) {es es' : List (Event τ)}
    (hargs : es.filterMap callbackArgs = es'.filterMap callbackArgs) (colourN : ℤ) (name : String) :
    (DivisionSafe (finalPoints opts es).length
        (py.getPoints colourN name (outputFile opts fmtF es) (outputFile opts' fmtF es')) ↔
      5 < colourN ∨ ∃ root rootTime, parse (outputFile opts fmtF es) = some root ∧
        parse (outputFile opts' fmtF es') = some rootTime ∧
          LoopSafe py (finalPoints opts es).length root rootTime) ∧
    ((∀ p ∈ finalPoints opts es, ReadablePoint p) →
      (DivisionSafe (finalPoints opts es).length
          (py.getPoints colourN name (outputFile opts fmtF es) (outputFile opts' fmtF es')) ↔
        5 < colourN ∨ ∀ k < (finalPoints opts es).length, drainedBytes opts es k % 2 ^ 64 = 0 →
          ∃ i ≤ k, AssertsAt py fmtF (finalPoints opts' es') i)) :=
  ⟨getPoints_divisionSafe_iff hfind, fun hread =>
    divisionSafe_of_readable hmode htimeRun htimeRun' hpy htimes hargs hread colourN name⟩

section exactPython

private theorem ne_dot_toString (n : ℕ) : ∀ c ∈ (toString n).toList, decide (c ≠ '.') = true := by
  intro c hc
  rw [decide_eq_true_eq]
  rintro rfl
  exact absurd hc (not_mem_toString (by decide) n)

private theorem decimal_toString (n : ℕ) : decimal (toString n) = some (n : ℚ) := by
  have hspan : (toString n).toList.span (· ≠ '.') = ((toString n).toList, []) := by
    rw [List.span_eq_takeWhile_dropWhile, List.takeWhile_eq_self_iff.mpr (ne_dot_toString n),
      List.dropWhile_eq_nil_iff.mpr (ne_dot_toString n)]
  rw [decimal, hspan]
  simp only [intDigits_toString]
  rfl

private theorem decimal_wholeSeconds (t : ℕ) : ∃ x, decimal (wholeSeconds t) = some x := by
  have hspan : (wholeSeconds t).toList.span (· ≠ '.') = ((toString t).toList, ".000000".toList) := by
    rw [List.span_eq_takeWhile_dropWhile, wholeSeconds, String.toList_append,
      List.takeWhile_append_of_pos (ne_dot_toString t), List.dropWhile_append_of_pos (ne_dot_toString t)]
    simp
  have hpart : ".000000".toList = '.' :: "000000".toList := rfl
  have hzero : intDigits false 0 "000000".toList = some 0 := by decide
  rw [decimal, hspan, hpart]
  simp only [intDigits_toString, hzero]
  exact ⟨_, rfl⟩

theorem readsNumerals_exactPython : ReadsNumerals exactPython := by
  intro n
  refine ⟨n, decimal_toString n, ?_⟩
  simp [exactPython]

theorem readsTimes_wholeSeconds : ReadsTimes exactPython wholeSeconds := by
  have hpart : (".000000".toList).all isPrintable = true := by decide
  refine ⟨fun t => ?_, fun t => ?_, fun t h => ?_, decimal_wholeSeconds⟩
  · have hplain := plainText_wholeSeconds t
    have hbracket : ']' ∉ (wholeSeconds t).toList := by
      rw [wholeSeconds, String.toList_append, List.mem_append, not_or]
      exact ⟨not_mem_toString (by decide) t, by decide⟩
    exact plainContent_of_not_mem hplain.lt hplain.amp hbracket
  · have hprintable : Printable (wholeSeconds t) := by
      rw [Printable, wholeSeconds, String.toList_append, List.all_append, hpart, Bool.and_true]
      exact printable_toString t
    exact hprintable.clean
  · have hlen := congrArg String.length h
    simp [wholeSeconds] at hlen

end exactPython

theorem readablePoint_countedRun : ∀ p ∈ finalPoints {} (countedRun "a.c"), ReadablePoint p := by
  have hstrings : ∀ p ∈ finalPoints {} (countedRun "a.c"),
      p.label = "a" ∧ p.srcFileStart = "a.c" ∧ p.srcFileEnd = "a.c" := by decide
  have hlabel : PlainValue "a".toList := ⟨by decide, by decide, by decide⟩
  have hfile : PlainContent "a.c".toList := ⟨by decide, by decide, by decide⟩
  intro p hp
  obtain ⟨h, hstart, hend⟩ := hstrings p hp
  exact ⟨⟨h ▸ hlabel, hstart ▸ hfile, hend ▸ hfile⟩, h ▸ by decide, h ▸ by decide, hstart ▸ by decide,
    hend ▸ by decide⟩

theorem noAsserts_exactPython : NoAsserts exactPython := by
  intro root path message h
  cases h

private theorem recordedPoints_safe {file : String}
    (h : (recordedPoints file).toOption.map List.length = some 2) : DivisionSafe 2 (recordedPoints file) := by
  cases hpoints : recordedPoints file with
  | error e =>
    rw [hpoints] at h
    cases h
  | ok Ps =>
    rw [hpoints] at h
    exact .inl ⟨Ps, rfl, Option.some.inj h⟩

/-- Two regions with bytes and with a time, one run in a file whose name is a reference. -/
theorem divisionSafe_iff_countedRun :
    (∃ root rootTime, parse (outputFile {} wholeSeconds (countedRun "a&lt;b.c")) = some root ∧
      parse (outputFile timeOptions wholeSeconds (timedRun "a&lt;b.c")) = some rootTime ∧
        LoopSafe exactPython 2 root rootTime) ∧
    ∀ k < 2, drainedBytes {} (countedRun "a.c") k % 2 ^ 64 = 0 →
      ∃ i ≤ k, AssertsAt exactPython wholeSeconds (finalPoints timeOptions (timedRun "a.c")) i := by
  have hmode : SameMode {} timeOptions := ⟨rfl, rfl, rfl, rfl⟩
  have hargs (file : String) :
      (countedRun file).filterMap callbackArgs = (timedRun file).filterMap callbackArgs := rfl
  have hreferred : DivisionSafe 2 (recordedPoints "a&lt;b.c") := by
    apply recordedPoints_safe
    rw [recordedPoints, Python.getPoints, parse_eq, parse_eq]
    decide +kernel
  have hplain : DivisionSafe 2 (recordedPoints "a.c") := by
    apply recordedPoints_safe
    rw [recordedPoints, Python.getPoints, parse_eq, parse_eq]
    decide +kernel
  constructor
  · have hiff := (divisionSafe_iff hmode rfl rfl readsNumerals_exactPython readsTimes_wholeSeconds
      noAsserts_exactPython (hargs "a&lt;b.c") 1 "app").1
    exact (hiff.mp hreferred).resolve_left (by decide)
  · have hiff := (divisionSafe_iff hmode rfl rfl readsNumerals_exactPython readsTimes_wholeSeconds
      noAsserts_exactPython (hargs "a.c") 1 "app").2 readablePoint_countedRun
    exact (hiff.mp hplain).resolve_left (by decide)

/-- A region that only computes. -/
def idleRun : List (Event ℕ) :=
  [.roiInit ⟨"a", 10, "a.c"⟩ 0, .cleanCall 2, .roiEnd ⟨"a", 12, "a.c"⟩ 0]

def timedIdleRun : List (Event ℕ) := [.roiInit ⟨"a", 10, "a.c"⟩ 1, .roiEnd ⟨"a", 12, "a.c"⟩ 4]

/-- The division by the bytes of a region that only computes. -/
theorem idleRun_not_divisionSafe :
    idleRun.filterMap callbackArgs = timedIdleRun.filterMap callbackArgs ∧
      ¬ DivisionSafe (finalPoints {} idleRun).length
        (exactPython.getPoints 1 "app" (outputFile {} wholeSeconds idleRun)
          (outputFile timeOptions wholeSeconds timedIdleRun)) := by
  refine ⟨rfl, ?_⟩
  have hdivides : (exactPython.getPoints 1 "app" (outputFile {} wholeSeconds idleRun)
      (outputFile timeOptions wholeSeconds timedIdleRun)) = .error .zeroDivisionError := by
    rw [Python.getPoints, parse_eq, parse_eq]
    decide +kernel
  rw [hdivides]
  rintro (⟨Ps, hPs, -⟩ | ⟨message, hmessage⟩)
  · cases hPs
  · cases hmessage

end Roofline.Correctness
