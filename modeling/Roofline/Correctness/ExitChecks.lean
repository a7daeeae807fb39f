import Roofline.Correctness.Isolation

/-! The checks at exit compare two totals. What they leave open is the order of the
callbacks, and with it which region a saved point belongs to. -/
namespace Roofline.Correctness
open Client Library
variable {τ : Type}

/-- No callback lies strictly between two positions. -/
def Quiet (es : List (Event τ)) (i j : ℕ) : Prop :=
  ∀ k, i < k → k < j → ∀ ev, es[k]? = some ev → ev.isCallback = false

/-- The start S is the last callback before the end E: it began the region that E saves. -/
def Opens (es : List (Event τ)) (S E : Callback τ) : Prop := S.pos < E.pos ∧ Quiet es S.pos E.pos

section callbacks
variable {es : List (Event τ)}

private theorem mem_starts_iff {S : Callback τ} : S ∈ starts es ↔ es[S.pos]? = some (.roiInit S.cxt S.now) := by
  refine ⟨mem_starts, fun h => ?_⟩
  exact List.mem_filterMap.mpr ⟨(.roiInit S.cxt S.now, S.pos), List.mem_zipIdx_iff_getElem?.mpr h, rfl⟩

private theorem mem_ends_iff {E : Callback τ} : E ∈ ends es ↔ es[E.pos]? = some (.roiEnd E.cxt E.now) := by
  refine ⟨mem_ends, fun h => ?_⟩
  exact List.mem_filterMap.mpr ⟨(.roiEnd E.cxt E.now, E.pos), List.mem_zipIdx_iff_getElem?.mpr h, rfl⟩

private theorem start_ext {S S' : Callback τ} (h : S ∈ starts es) (h' : S' ∈ starts es)
    (hpos : S.pos = S'.pos) : S = S' := by
  obtain ⟨pos, cxt, now⟩ := S
  obtain ⟨pos', cxt', now'⟩ := S'
  obtain rfl : pos = pos' := hpos
  have hev : es[pos]? = some (.roiInit cxt' now') := mem_starts h'
  simpa using (mem_starts h).symm.trans hev

private theorem end_ext {E E' : Callback τ} (h : E ∈ ends es) (h' : E' ∈ ends es) (hpos : E.pos = E'.pos) :
    E = E' := by
  obtain ⟨pos, cxt, now⟩ := E
  obtain ⟨pos', cxt', now'⟩ := E'
  obtain rfl : pos = pos' := hpos
  have hev : es[pos]? = some (.roiEnd cxt' now') := mem_ends h'
  simpa using (mem_ends h).symm.trans hev

private theorem Quiet.not_callback {i j k : ℕ} (h : Quiet es i j) {ev : Event τ} (hk : es[k]? = some ev)
    (hev : ev.isCallback = true) : k ≤ i ∨ j ≤ k := by
  by_contra hne
  have := h k (by omega) (by omega) ev hk
  simp [hev] at this

private theorem Opens.start_unique {S S' E : Callback τ} (hS : S ∈ starts es) (hS' : S' ∈ starts es)
    (h : Opens es S E) (h' : Opens es S' E) : S = S' := by
  apply start_ext hS hS'
  have h1 := h.2.not_callback (mem_starts hS') rfl
  have h2 := h'.2.not_callback (mem_starts hS) rfl
  have := h.1
  have := h'.1
  omega

private theorem Opens.end_unique {S E E' : Callback τ} (hE : E ∈ ends es) (hE' : E' ∈ ends es)
    (h : Opens es S E) (h' : Opens es S E') : E = E' := by
  apply end_ext hE hE'
  have h1 := h.2.not_callback (mem_ends hE') rfl
  have h2 := h'.2.not_callback (mem_ends hE) rfl
  have := h.1
  have := h'.1
  omega

private theorem last_succ_callback {n : ℕ} {ev : Event τ} (hn : es[n]? = some ev) (hev : ev.isCallback = true)
    (S : Callback τ) : (S.pos < n + 1 ∧ Quiet es S.pos (n + 1)) ↔ S.pos = n := by
  constructor
  · rintro ⟨hlt, hq⟩
    have := hq.not_callback hn hev
    omega
  · rintro rfl
    refine ⟨by omega, fun k h1 h2 => ?_⟩
    omega

/-- Another event leaves the last callback as it was. -/
theorem last_succ_other {n : ℕ} {ev : Event τ} (hn : es[n]? = some ev) (hev : ev.isCallback = false)
    {S : Callback τ} (hS : S ∈ starts es) :
    (S.pos < n + 1 ∧ Quiet es S.pos (n + 1)) ↔ S.pos < n ∧ Quiet es S.pos n := by
  constructor
  · rintro ⟨hlt, hq⟩
    have hne : S.pos ≠ n := by
      rintro rfl
      rw [mem_starts hS] at hn
      cases hn
      cases hev
    exact ⟨by omega, fun k h1 h2 => hq k h1 (by omega)⟩
  · rintro ⟨hlt, hq⟩
    refine ⟨by omega, fun k h1 h2 ev' hk => ?_⟩
    rcases Nat.lt_or_ge k n with h | h
    · exact hq k h1 h ev' hk
    · obtain rfl : k = n := by omega
      rw [hn] at hk
      cases hk
      exact hev

private theorem active_take_succ {n : ℕ} {ev : Event τ} (hn : es[n]? = some ev) :
    active (es.take (n + 1)) = ((active (es.take n) || ev.isStart) && !ev.isEnd) := by
  rw [List.take_add_one, hn, Option.toList_some, active_snoc]

/-- A region is active after n events exactly if some start is the last callback so far. -/
theorem active_take_iff (n : ℕ) (hn : n ≤ es.length) :
    active (es.take n) = true ↔ ∃ S ∈ starts es, S.pos < n ∧ Quiet es S.pos n := by
  induction n with
  | zero => simp [active]
  | succ n ih =>
    have hev := List.getElem?_eq_getElem hn
    rw [active_take_succ hev]
    cases hcase : es[n] with
    | roiInit cxt now =>
      rw [hcase] at hev
      simp only [Event.isStart, Event.isEnd, Bool.or_true, Bool.not_false, Bool.and_self, true_iff]
      exact ⟨⟨n, cxt, now⟩, mem_starts_iff.mpr hev, (last_succ_callback hev rfl _).mpr rfl⟩
    | roiEnd cxt now =>
      rw [hcase] at hev
      simp only [Event.isEnd, Bool.not_true, Bool.and_false, Bool.false_eq_true, false_iff]
      rintro ⟨S, hS, hlast⟩
      have hpos := (last_succ_callback hev rfl S).mp hlast
      rw [← hpos, mem_starts hS] at hev
      cases hev
    | saveRef r =>
      rw [hcase] at hev
      simp only [Event.isStart, Event.isEnd, Bool.or_false, Bool.not_false, Bool.and_true,
        ih (by omega)]
      apply exists_congr
      intro S
      exact and_congr_right fun hS => (last_succ_other hev rfl hS).symm
    | cleanCall m =>
      rw [hcase] at hev
      simp only [Event.isStart, Event.isEnd, Bool.or_false, Bool.not_false, Bool.and_true,
        ih (by omega)]
      apply exists_congr
      intro S
      exact and_congr_right fun hS => (last_succ_other hev rfl hS).symm

/-- Callbacks alternate if each of them finds the right state of affairs. -/
theorem alternating_iff (es : List (Event τ)) :
    Alternating false es ↔ ∀ n ev, es[n]? = some ev →
      (ev.isStart = true → active (es.take n) = false) ∧ (ev.isEnd = true → active (es.take n) = true) := by
  induction es using List.reverseRecOn with
  | nil => simp [Alternating]
  | append_singleton es ev ih =>
    have hlast : (es ++ [ev]).take es.length = es := by simp
    rw [alternating_snoc_iff, ih]
    constructor
    · rintro ⟨halt, hev⟩ n ev' hn
      rcases getElem?_snoc_eq_some.mp hn with hn | ⟨rfl, rfl⟩
      · rw [List.take_append_of_le_length (List.getElem?_eq_some_iff.mp hn).1.le]
        exact halt n ev' hn
      · rw [hlast]
        exact hev
    · intro h
      constructor
      · intro n ev' hn
        have hprev := h n ev' (getElem?_snoc_eq_some.mpr (.inl hn))
        rwa [List.take_append_of_le_length (List.getElem?_eq_some_iff.mp hn).1.le] at hprev
      · have hev := h es.length ev List.getElem?_concat_length
        rwa [hlast] at hev

/-- Every end has a start of its own, and every start an end. -/
structure Matched (es : List (Event τ)) : Prop where
  ends_own : ∀ E ∈ ends es, ∃ S ∈ starts es, Opens es S E
  starts_own : ∀ S ∈ starts es, ∃ E ∈ ends es, Opens es S E

theorem Matched.alternating (h : Matched es) : Alternating false es := by
  rw [alternating_iff]
  intro n ev hn
  have hlt := (List.getElem?_eq_some_iff.mp hn).1
  constructor
  · intro hstart
    rw [Bool.eq_false_iff, Ne, active_take_iff n hlt.le]
    -- a start inside a region would leave the start before it without an end
    rintro ⟨S, hS, hpos, hq⟩
    obtain ⟨E, hE, ho⟩ := h.starts_own S hS
    have h1 := ho.2.not_callback hn (by simp [Event.isCallback, hstart])
    have h2 := hq.not_callback (mem_ends hE) rfl
    have := ho.1
    obtain rfl : E.pos = n := by omega
    rw [mem_ends hE] at hn
    cases hn
    cases hstart
  · intro hend
    cases ev with
    | roiEnd cxt now =>
      obtain ⟨S, hS, ho⟩ := h.ends_own ⟨n, cxt, now⟩ (mem_ends_iff.mpr hn)
      exact (active_take_iff n hlt.le).mpr ⟨S, hS, ho⟩
    | roiInit cxt now => cases hend
    | saveRef r => cases hend
    | cleanCall m => cases hend

private theorem matched_of_alternating (halt : Alternating false es)
    (hlen : (starts es).length = (ends es).length) :
    Matched es := by
  have hbegun := (paired es halt).begun
  have hidle : active es = false := by
    rw [Bool.eq_false_iff]
    intro ha
    simp [ha] at hbegun
    omega
  rw [alternating_iff] at halt
  constructor
  · intro E hE
    have hlt := (List.getElem?_eq_some_iff.mp (mem_ends hE)).1
    obtain ⟨S, hS, ho⟩ := (active_take_iff E.pos hlt.le).mp ((halt E.pos _ (mem_ends hE)).2 rfl)
    exact ⟨S, hS, ho⟩
  · intro S hS
    have hSlt := (List.getElem?_eq_some_iff.mp (mem_starts hS)).1
    have hnext : ∃ k, S.pos < k ∧ ∃ ev, es[k]? = some ev ∧ ev.isCallback = true := by
      by_contra hnone
      have hq : Quiet es S.pos es.length := by
        intro k h1 _ ev hk
        rw [Bool.eq_false_iff]
        exact fun hev => hnone ⟨k, h1, ev, hk, hev⟩
      have ha := (active_take_iff es.length le_rfl).mpr ⟨S, hS, hSlt, hq⟩
      rw [List.take_length, hidle] at ha
      cases ha
    -- the next callback after S is an end
    classical
    obtain ⟨hpos, ev, hev, hcb⟩ := Nat.find_spec hnext
    generalize hk : Nat.find hnext = k at hpos hev
    have hq : Quiet es S.pos k := by
      intro i h1 h2 ev' hi
      have hmin := Nat.find_min hnext (hk ▸ h2)
      rw [Bool.eq_false_iff]
      exact fun hev' => hmin ⟨h1, ev', hi, hev'⟩
    have ha := (active_take_iff k (List.getElem?_eq_some_iff.mp hev).1.le).mpr ⟨S, hS, hpos, hq⟩
    cases ev with
    | roiEnd cxt now => exact ⟨⟨k, cxt, now⟩, mem_ends_iff.mpr hev, hpos, hq⟩
    | roiInit cxt now =>
      have := (halt k _ hev).1 rfl
      simp [ha] at this
    | saveRef r => cases hcb
    | cleanCall m => cases hcb

end callbacks

variable [Zero τ] (opts : Options) (es : List (Event τ))

private theorem run_take_succ {n : ℕ} {ev : Event τ} (hn : es[n]? = some ev) :
    run opts (es.take (n + 1)) = step opts (run opts (es.take n)) ev := by
  rw [List.take_add_one, hn, Option.toList_some, run_snoc]

private theorem run_detected :
    (run opts es).roiStartDetected = Int32.ofNat (starts es).length ∧
      (run opts es).roiEndDetected = Int32.ofNat (ends es).length := by
  induction es using List.reverseRecOn with
  | nil => exact ⟨rfl, rfl⟩
  | append_singleton es ev ih =>
    rw [run_snoc, starts_snoc, ends_snoc]
    cases ev with
    | roiInit cxt now => rw [step_roiInit]; simp [ih]
    | roiEnd cxt now => rw [step_roiEnd]; simp [ih]
    | saveRef r => rw [step_saveRef]; simp [ih]
    | cleanCall n => rw [step_cleanCall]; simp [ih]

/-- Below 2^31 callbacks of each kind, the checks compare the numbers of callbacks. -/
theorem eventExitChecks_iff (hstarts : (starts es).length < 2 ^ 31) (hends : (ends es).length < 2 ^ 31) :
    eventExitChecks (run opts es) ↔ 0 < (starts es).length ∧ (starts es).length = (ends es).length := by
  obtain ⟨hstart, hend⟩ := run_detected opts es
  have hcount {n : ℕ} (h : n < 2 ^ 31) : (Int32.ofNat n).toInt = n := Int32.toInt_ofNat_of_lt h
  have hpos {n : ℕ} (h : n < 2 ^ 31) : 0 < Int32.ofNat n ↔ 0 < n := by
    rw [Int32.lt_iff_toInt_lt, hcount h, Int32.toInt_zero, Int.natCast_pos]
  rw [eventExitChecks, hstart, hend, hpos hstarts, hpos hends, ← Int32.toInt_inj, hcount hstarts, hcount hends,
    Int.ofNat_inj]
  omega

/-- Every saved point is the current point of its end. -/
theorem pointList_run (hm : opts.merged = false) :
    (run opts es).data.pointList =
      (ends es).map fun E => (run opts (es.take E.pos)).data.curPoint.ended opts E.cxt E.now := by
  induction es using List.reverseRecOn with
  | nil => rfl
  | append_singleton es ev ih =>
    have hprev : (run opts es).data.pointList = (ends es).map fun E =>
        (run opts ((es ++ [ev]).take E.pos)).data.curPoint.ended opts E.cxt E.now := by
      rw [ih]
      refine List.map_congr_left fun E hE => ?_
      have hlt := (List.getElem?_eq_some_iff.mp (mem_ends hE)).1
      rw [List.take_append_of_le_length hlt.le]
    rw [run_snoc, ends_snoc, List.map_append, ← hprev]
    cases ev with
    | roiInit cxt now => rw [step_roiInit]; simp
    | roiEnd cxt now => rw [step_roiEnd]; simp [hm]
    | saveRef r => rw [step_saveRef]; simp
    | cleanCall n => rw [step_cleanCall]; simp

private theorem label_step_quiet (σ : ClientState τ) {ev : Event τ} (hev : ev.isCallback = false) :
    (step opts σ ev).data.curPoint.label = σ.data.curPoint.label := by
  cases ev with
  | roiInit cxt now => cases hev
  | roiEnd cxt now => cases hev
  | saveRef r => rfl
  | cleanCall m =>
    rw [step_cleanCall]
    split_ifs
    · exact congrArg Region.label (Point.region_drained m σ.data.buf σ.data.curPoint)
    · rfl

/-- The current label is that of the last start, or empty after an end. -/
theorem label_run (hf : opts.traceF = "") (n : ℕ) (hn : n ≤ es.length) :
    (active (es.take n) = false → (run opts (es.take n)).data.curPoint.label = "") ∧
      ∀ S ∈ starts es, S.pos < n → Quiet es S.pos n →
        (run opts (es.take n)).data.curPoint.label = givenLabel opts S.cxt := by
  have hsep : opts.callsAsSeparateRoi = false := by
    rw [Bool.eq_false_iff]
    exact fun hs => opts.separate hs hf
  have hm : opts.merged = false := by simp [Options.merged, hf]
  induction n with
  | zero => exact ⟨fun _ => rfl, by simp⟩
  | succ n ih =>
    obtain ⟨hidle, hlast⟩ := ih (by omega)
    have hev := List.getElem?_eq_getElem hn
    rw [run_take_succ opts es hev, active_take_succ hev]
    cases hcase : es[n] with
    | roiInit cxt now =>
      rw [hcase] at hev
      refine ⟨by simp [Event.isStart, Event.isEnd], fun S hS hlt hq => ?_⟩
      have hpos := (last_succ_callback hev rfl S).mp ⟨hlt, hq⟩
      rw [← hpos, mem_starts hS] at hev
      cases hev
      rw [step_roiInit, hm, Bool.false_and, if_neg Bool.false_ne_true, Point.opened_eq]
      rw [roiLabel, hsep, getLabel_startDelimiter]
      rfl
    | roiEnd cxt now =>
      rw [hcase] at hev
      refine ⟨fun _ => ?_, fun S hS hlt hq => ?_⟩
      · rw [step_roiEnd]
        simp [hm, Point.reset]
      · have hpos := (last_succ_callback hev rfl S).mp ⟨hlt, hq⟩
        rw [← hpos, mem_starts hS] at hev
        cases hev
    | saveRef r =>
      rw [hcase] at hev
      rw [label_step_quiet opts _ rfl]
      refine ⟨by simpa [Event.isStart, Event.isEnd] using hidle, ?_⟩
      intro S hS hlt hq
      obtain ⟨hlt, hq⟩ := (last_succ_other hev rfl hS).mp ⟨hlt, hq⟩
      exact hlast S hS hlt hq
    | cleanCall m =>
      rw [hcase] at hev
      rw [label_step_quiet opts _ rfl]
      refine ⟨by simpa [Event.isStart, Event.isEnd] using hidle, ?_⟩
      intro S hS hlt hq
      obtain ⟨hlt, hq⟩ := (last_succ_other hev rfl hS).mp ⟨hlt, hq⟩
      exact hlast S hS hlt hq

/-- Every written point belongs to the end at its index. -/
theorem point_owned (hf : opts.traceF = "") {j : ℕ} {p : Point τ}
    (hp : (finalPoints opts es)[j]? = some p) :
    ∃ E, (ends es)[j]? = some E ∧
      ((∃ S ∈ starts es, Opens es S E ∧ p.label = givenLabel opts S.cxt) ∨
        (∀ S ∈ starts es, ¬ Opens es S E) ∧ p.label = "") := by
  have hm : opts.merged = false := by simp [Options.merged, hf]
  have hfinal : finalPoints opts es = (run opts es).data.pointList := by simp [finalPoints_eq, hm]
  rw [hfinal, pointList_run opts es hm, List.getElem?_map] at hp
  obtain ⟨E, hE, rfl⟩ := Option.map_eq_some_iff.mp hp
  have hlt := (List.getElem?_eq_some_iff.mp (mem_ends (List.mem_of_getElem? hE))).1
  have hlabel (q : Point τ) : (q.ended opts E.cxt E.now).label = q.label := by rw [Point.ended_eq]
  obtain ⟨hidle, hlast⟩ := label_run opts es hf E.pos hlt.le
  refine ⟨E, hE, ?_⟩
  rw [hlabel]
  by_cases hS : ∃ S ∈ starts es, Opens es S E
  · obtain ⟨S, hS, ho⟩ := hS
    exact .inl ⟨S, hS, ho, hlast S hS ho.1 ho.2⟩
  · have hact : active (es.take E.pos) = false := by
      rw [Bool.eq_false_iff, Ne, active_take_iff E.pos hlt.le]
      exact hS
    exact .inr ⟨fun S hmem ho => hS ⟨S, hmem, ho⟩, hidle hact⟩

/-- What passing the checks should mean: points and starts correspond one to one, each
point carries the label of its own start, and every region begun is saved. -/
structure ExitSound : Prop where
  owned : ∀ (j : ℕ) (p : Point τ), (finalPoints opts es)[j]? = some p → ∃ E, (ends es)[j]? = some E ∧
    ∃! S, S ∈ starts es ∧ Opens es S E ∧ p.label = givenLabel opts S.cxt
  saved : ∀ S ∈ starts es, ∃! E, E ∈ ends es ∧ Opens es S E

/-- What the checks do guarantee below 2^31 callbacks of each kind: as many points as starts, each with
the label of the last start before its end. The regions are all there exactly if the callbacks alternate. -/
theorem exitChecks (hf : opts.traceF = "") (hstarts : (starts es).length < 2 ^ 31)
    (hends : (ends es).length < 2 ^ 31) (hchecks : eventExitChecks (run opts es)) :
    (finalPoints opts es).length = (starts es).length ∧
      (∀ (j : ℕ) (p : Point τ), (finalPoints opts es)[j]? = some p → ∃ E, (ends es)[j]? = some E ∧
        ((∃ S ∈ starts es, Opens es S E ∧ p.label = givenLabel opts S.cxt) ∨
          (∀ S ∈ starts es, ¬ Opens es S E) ∧ p.label = "")) ∧
      (ExitSound opts es ↔ Alternating false es) := by
  have hm : opts.merged = false := by simp [Options.merged, hf]
  have heq := ((eventExitChecks_iff opts es hstarts hends).mp hchecks).2
  have hlen : (finalPoints opts es).length = (ends es).length := by
    rw [finalPoints_eq, hm, pointList_run opts es hm]
    simp
  refine ⟨hlen.trans heq.symm, fun j p hp => point_owned opts es hf hp, ?_⟩
  constructor
  · rintro ⟨howned, hsaved⟩
    apply Matched.alternating
    constructor
    · intro E hE
      obtain ⟨j, hj⟩ := List.getElem?_of_mem hE
      have hlt : j < (finalPoints opts es).length := hlen ▸ (List.getElem?_eq_some_iff.mp hj).1
      obtain ⟨E', hE', S, ⟨hS, ho, -⟩, -⟩ := howned j _ (List.getElem?_eq_getElem hlt)
      obtain rfl := Option.some.inj (hj.symm.trans hE')
      exact ⟨S, hS, ho⟩
    · intro S hS
      obtain ⟨E, hE, -⟩ := hsaved S hS
      exact ⟨E, hE.1, hE.2⟩
  · intro halt
    obtain ⟨hends, hstarts⟩ := matched_of_alternating halt heq
    constructor
    · intro j p hp
      obtain ⟨E, hE, hlabel⟩ := point_owned opts es hf hp
      refine ⟨E, hE, ?_⟩
      rcases hlabel with ⟨S, hS, ho, hl⟩ | ⟨hnone, -⟩
      · exact ⟨S, ⟨hS, ho, hl⟩, fun S' hS' => hS'.2.1.start_unique hS'.1 hS ho⟩
      · obtain ⟨S, hS, ho⟩ := hends E (List.mem_of_getElem? hE)
        exact absurd ho (hnone S hS)
    · intro S hS
      obtain ⟨E, hE, ho⟩ := hstarts S hS
      exact ⟨E, ⟨hE, ho⟩, fun E' hE' => hE'.2.end_unique hE'.1 hE ho⟩

/-- Two starts and then two ends, with the totals that the checks ask for. -/
def nestedMarkers : List (Event ℕ) :=
  [.roiInit ⟨"a", 1, "f.c"⟩ 0, .roiInit ⟨"b", 2, "f.c"⟩ 0, .roiEnd ⟨"b", 3, "f.c"⟩ 0,
    .roiEnd ⟨"a", 4, "f.c"⟩ 0]

theorem exitChecks_nestedMarkers :
    (finalPoints {} nestedMarkers).length = 2 ∧
      (∀ p, (finalPoints {} nestedMarkers)[0]? = some p → p.label = "b") ∧
      (∀ p, (finalPoints {} nestedMarkers)[1]? = some p → p.label = "") ∧
      (ExitSound {} nestedMarkers ↔ Alternating false nestedMarkers) := by
  obtain ⟨hlength, hlabels, hsound⟩ := exitChecks {} nestedMarkers rfl (by decide) (by decide) (by decide)
  have hstarts : starts nestedMarkers = [⟨0, ⟨"a", 1, "f.c"⟩, 0⟩, ⟨1, ⟨"b", 2, "f.c"⟩, 0⟩] := rfl
  rw [hstarts] at hlabels
  refine ⟨hlength, fun p hp => ?_, fun p hp => ?_, hsound⟩
  · obtain ⟨E, hE, hlabel⟩ := hlabels 0 p hp
    obtain rfl : (⟨2, ⟨"b", 3, "f.c"⟩, 0⟩ : Callback ℕ) = E := Option.some.inj hE
    have hinner : Opens nestedMarkers ⟨1, ⟨"b", 2, "f.c"⟩, 0⟩ ⟨2, ⟨"b", 3, "f.c"⟩, 0⟩ :=
      ⟨by decide, fun k hk hk' => by simp only at hk hk'; omega⟩
    rcases hlabel with ⟨S, hS, ho, hl⟩ | ⟨hnone, -⟩
    · rcases List.mem_pair.mp hS with rfl | rfl
      · cases ho.2 1 (by decide) (by decide) _ rfl
      · exact hl
    · exact absurd hinner (hnone _ (by simp))
  · obtain ⟨E, hE, hlabel⟩ := hlabels 1 p hp
    obtain rfl : (⟨3, ⟨"a", 4, "f.c"⟩, 0⟩ : Callback ℕ) = E := Option.some.inj hE
    rcases hlabel with ⟨S, hS, ho, -⟩ | ⟨-, hl⟩
    · have hlt : S.pos < 2 := by rcases List.mem_pair.mp hS with rfl | rfl <;> decide
      cases ho.2 2 hlt (by decide) _ rfl
    · exact hl

/-- The checks pass, but the second point is nobody's: it has the empty label of a reset point. -/
theorem nestedMarkers_not_sound :
    eventExitChecks (run {} nestedMarkers) ∧ (finalPoints {} nestedMarkers)[1]?.map (·.label) = some "" ∧
      ¬ ExitSound {} nestedMarkers := by
  refine ⟨by decide, by decide, fun h => ?_⟩
  obtain ⟨E, hE, S, ⟨hS, -, hl⟩, -⟩ := h.owned 1 _ rfl
  have hlabels : (starts nestedMarkers).map (fun S => givenLabel {} S.cxt) = ["a", "b"] := by decide
  have hmem := List.mem_map_of_mem (f := fun S => givenLabel {} S.cxt) hS
  rw [hlabels] at hmem
  have hempty : givenLabel {} S.cxt = "" := hl.symm
  simp [hempty] at hmem

end Roofline.Correctness
