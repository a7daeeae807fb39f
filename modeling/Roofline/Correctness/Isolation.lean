import Roofline.Correctness.Accounting
import Roofline.Library.Numerals

/-! Separate regions stay separate: every saved point belongs to one pair of callbacks
and holds what was drained between them. -/
namespace Roofline.Correctness
open Client Library
variable {τ : Type}

/-- The function that is traced, or else the one that begins regions, or else what the marker is called with. -/
def givenLabel (opts : Options) (cxt : WrapCxt) : String :=
  if opts.traceF ≠ "" then opts.traceF else if opts.roiStart ≠ "" then opts.roiStart else cxt.arg0

/-- The label of region j, whose beginning callback had the given arguments; a call has its number, an int. -/
def ownLabel (opts : Options) (j : ℕ) (cxt : WrapCxt) : String :=
  if opts.callsAsSeparateRoi then opts.traceF ++ toString (Int32.ofNat (j + 1)).toInt else givenLabel opts cxt

/-- What region j records between its callbacks. Only markers are called with a line and a file. -/
def openRegion [Zero τ] (opts : Options) (j : ℕ) (S : Callback τ) : Region τ where
  label := ownLabel opts j S.cxt
  srcFileStart := if opts.traceF = "" ∧ opts.roiStart = "" then S.cxt.arg2 else ""
  srcFileEnd := ""
  lineNumberStart := if opts.traceF = "" ∧ opts.roiStart = "" then S.cxt.arg1.toUInt32 else 0
  lineNumberEnd := 0
  startTime := if opts.timeRun then S.now else 0
  endTime := 0

/-- What region j has recorded once it is saved. -/
def regionOf [Zero τ] (opts : Options) (j : ℕ) (S E : Callback τ) : Region τ :=
  { openRegion opts j S with
    srcFileEnd := if opts.traceF = "" ∧ opts.roiEnd = "" then E.cxt.arg2 else ""
    lineNumberEnd := if opts.traceF = "" ∧ opts.roiEnd = "" then E.cxt.arg1.toUInt32 else 0
    endTime := if opts.timeRun then E.now else 0 }

section arguments
variable (opts : Options) (cxt : WrapCxt)

private theorem startDelimiter_eq_empty : opts.startDelimiter = "" ↔ opts.traceF = "" ∧ opts.roiStart = "" := by
  unfold Options.startDelimiter
  by_cases hf : opts.traceF = "" <;> simp [hf]

private theorem endDelimiter_eq_empty : opts.endDelimiter = "" ↔ opts.traceF = "" ∧ opts.roiEnd = "" := by
  unfold Options.endDelimiter
  by_cases hf : opts.traceF = "" <;> simp [hf]

theorem getLabel_startDelimiter : getLabel cxt opts.startDelimiter = givenLabel opts cxt := by
  unfold getLabel Options.startDelimiter givenLabel
  by_cases hf : opts.traceF = "" <;> simp [hf]

private theorem getSrcFileName_startDelimiter :
    getSrcFileName cxt opts.startDelimiter = if opts.traceF = "" ∧ opts.roiStart = "" then cxt.arg2 else "" := by
  simp only [getSrcFileName, ne_eq, ite_not, startDelimiter_eq_empty]

private theorem getLineN_startDelimiter :
    getLineN cxt opts.startDelimiter =
      if opts.traceF = "" ∧ opts.roiStart = "" then cxt.arg1.toUInt32 else 0 := by
  simp only [getLineN, ne_eq, ite_not, startDelimiter_eq_empty]

private theorem getSrcFileName_endDelimiter :
    getSrcFileName cxt opts.endDelimiter = if opts.traceF = "" ∧ opts.roiEnd = "" then cxt.arg2 else "" := by
  simp only [getSrcFileName, ne_eq, ite_not, endDelimiter_eq_empty]

private theorem getLineN_endDelimiter :
    getLineN cxt opts.endDelimiter = if opts.traceF = "" ∧ opts.roiEnd = "" then cxt.arg1.toUInt32 else 0 := by
  simp only [getLineN, ne_eq, ite_not, endDelimiter_eq_empty]

end arguments

/-- The callbacks of an alternating run come in pairs. -/
structure Paired (es : List (Event τ)) : Prop where
  begun : (starts es).length = (ends es).length + (active es).toNat
  before : ∀ (i : ℕ) (S E : Callback τ), (starts es)[i]? = some S → (ends es)[i]? = some E → S.pos < E.pos
  bounded : ∀ S ∈ starts es, S.pos < es.length

theorem paired (es : List (Event τ)) (h : Alternating false es) : Paired es := by
  induction es using List.reverseRecOn with
  | nil => exact ⟨rfl, by simp [starts], by simp [starts]⟩
  | append_singleton es ev ih =>
    obtain ⟨halt, hstart, hend⟩ := (alternating_snoc_iff es ev).mp h
    obtain ⟨hbegun, hbefore, hbound⟩ := ih halt
    have hlater : ∀ S ∈ starts es, S.pos < es.length + 1 :=
      fun S hS => (hbound S hS).trans (Nat.lt_succ_self _)
    cases ev with
    | saveRef r => exact ⟨by simpa [starts_snoc, ends_snoc, Event.isStart, Event.isEnd] using hbegun,
        by simpa [starts_snoc, ends_snoc] using hbefore, by simpa [starts_snoc] using hlater⟩
    | cleanCall n => exact ⟨by simpa [starts_snoc, ends_snoc, Event.isStart, Event.isEnd] using hbegun,
        by simpa [starts_snoc, ends_snoc] using hbefore, by simpa [starts_snoc] using hlater⟩
    | roiInit cxt now =>
      simp only [hstart rfl, Bool.toNat_false, Nat.add_zero] at hbegun
      refine ⟨by simp [starts_snoc, ends_snoc, Event.isStart, Event.isEnd, hbegun], fun i S E hS hE => ?_, ?_⟩
      · simp only [ends_snoc, List.append_nil] at hE
        have hi := (List.getElem?_eq_some_iff.mp hE).1
        rw [starts_snoc, List.getElem?_append_left (by omega)] at hS
        exact hbefore i S E hS hE
      · intro S hS
        rw [starts_snoc, List.mem_append, List.mem_singleton] at hS
        rcases hS with hS | rfl
        · simpa using hlater S hS
        · simp
    | roiEnd cxt now =>
      simp only [hend rfl, Bool.toNat_true] at hbegun
      refine ⟨by simp [starts_snoc, ends_snoc, Event.isStart, Event.isEnd, hbegun], fun i S E hS hE => ?_,
        by simpa [starts_snoc] using hlater⟩
      simp only [starts_snoc, List.append_nil] at hS
      rw [ends_snoc] at hE
      rcases getElem?_snoc_eq_some.mp hE with hE | ⟨-, rfl⟩
      · exact hbefore i S E hS hE
      · exact hbound S (List.mem_of_getElem? hS)

section windows
variable (opts : Options) (es : List (Event τ))

private theorem stamps_entries (hm : opts.merged = false) :
    Ledger.stamps .opening (entries opts es) = (starts es).map (·.pos) ∧
      Ledger.stamps .closing (entries opts es) = (ends es).map (·.pos) := by
  induction es using List.reverseRecOn with
  | nil => exact ⟨rfl, rfl⟩
  | append_singleton es ev ih =>
    rw [entries_snoc, Ledger.stamps_snoc, Ledger.stamps_snoc, ih.1, ih.2, starts_snoc, ends_snoc]
    cases ev <;> simp [Ledger.stampsOf, entryOf, hm, Entry.turning, Entry.deferring, Entry.posting, entries]

theorem alternates_entries (hm : opts.merged = false) (h : Alternating false es) :
    Ledger.Along Ledger.Alternates (entries opts es) := by
  refine along_entries opts es h ?_
  intro es ev h
  obtain ⟨-, hstart, hend⟩ := (alternating_snoc_iff es ev).mp h
  rw [← run_entries_active opts es] at hstart hend
  cases ev with
  | saveRef r => exact ⟨trivial, trivial⟩
  | cleanCall n => exact ⟨trivial, trivial⟩
  | roiInit cxt now =>
    rw [entryOf, hm]
    exact ⟨hstart rfl, trivial⟩
  | roiEnd cxt now =>
    rw [entryOf, hm]
    exact ⟨hend rfl, trivial⟩

/-- A clean call falls into region j exactly if it lies between the callbacks of pair j. -/
theorem roiAt_iff (hm : opts.merged = false) (h : Alternating false es) {c : ℕ} {ev : Event τ}
    (hc : es[c]? = some ev) (hev : ev.isClean = true) {j : ℕ} {S E : Callback τ}
    (hS : (starts es)[j]? = some S) (hE : (ends es)[j]? = some E) :
    roiAt opts es c = some j ↔ S.pos < c ∧ c < E.pos := by
  have hlt := (List.getElem?_eq_some_iff.mp hc).1
  obtain ⟨ho, hcl⟩ := stamps_entries opts es hm
  have own :=
    (Ledger.recorded_run _ (alternates_entries opts es hm h)).2 c (by simpa [entries] using hlt) j
  rw [owner_entries opts es hc hev, ho, hcl] at own
  have hne : c ≠ S.pos := by
    rintro rfl
    rw [mem_starts (List.mem_of_getElem? hS)] at hc
    cases hc
    cases hev
  rw [own, Ledger.Within]
  simp only [List.getElem?_map, hS, hE, Option.map_some, Option.some.injEq]
  constructor
  · rintro ⟨o, rfl, hle, he⟩
    exact ⟨by omega, he _ rfl⟩
  · rintro ⟨h1, h2⟩
    exact ⟨_, rfl, h1.le, fun e he => he ▸ h2⟩

/-- The amounts of region j are those drained between its two callbacks. -/
theorem account_between (hm : opts.merged = false) (h : Alternating false es) {j : ℕ} {S E : Callback τ}
    (hS : (starts es)[j]? = some S) (hE : (ends es)[j]? = some E) (hend : E.pos < es.length) :
    (Ledger.account (entries opts es) j).flops = flopsBetween es S.pos E.pos ∧
      (Ledger.account (entries opts es) j).bytes = bytesBetween es S.pos E.pos := by
  rw [account_entries, Tally.flops_sum, Tally.bytes_sum]
  constructor
  · have hterm : ∀ k ∈ Finset.range es.length,
        ((if roiAt opts es k = some j then (⟨(es[k]?.map Event.fpCount).getD 0, 0, 0, 0⟩ : Tally) else 0) +
          if (nextClean es k).bind (roiAt opts es) = some j then Ledger.deferAt (entries opts es) k
          else 0).flops =
        if S.pos < k ∧ k < E.pos then (es[k]?.map Event.fpCount).getD 0 else 0 := by
      intro k hk
      have hk := Finset.mem_range.mp hk
      have hget := List.getElem?_eq_getElem hk
      rw [deferAt_entries, Tally.flops_add]
      by_cases hev : es[k].isClean = true
      · have := roiAt_iff opts es hm h hget hev hS hE
        split_ifs <;> simp_all
      · have hz : es[k].fpCount = 0 := by cases h : es[k] <;> simp_all [Event.isClean, Event.fpCount]
        simp only [hget, Option.map_some, Option.getD_some, hz]
        split_ifs <;> rfl
    rw [Finset.sum_congr rfl hterm, flopsBetween, ← Finset.sum_filter]
    congr 1
    ext k
    simp only [Finset.mem_filter, Finset.mem_range, Finset.mem_Ioo]
    omega
  · rw [bytesBetween]
    refine Finset.sum_congr rfl fun k hk => ?_
    rw [deferAt_entries, Tally.bytes_add]
    cases hn : nextClean es k with
    | none => split_ifs <;> simp_all
    | some c =>
      obtain ⟨ev, hc, hev⟩ := nextClean_isClean es hn
      have := roiAt_iff opts es hm h hc hev hS hE
      simp only [Option.bind_some, this, Option.any_some, Bool.and_eq_true, decide_eq_true_eq]
      split_ifs <;> simp

end windows

/-- The saved points and the current one record the callbacks they belong to, and the
statics of get_label_and_assign_id number the region that is current or comes next. -/
structure Traced [Zero τ] (opts : Options) (es : List (Event τ)) (σ : ClientState τ) : Prop where
  count : σ.data.pointList.length = (ends es).length
  points : ∀ (j : ℕ) (p : Point τ), σ.data.pointList[j]? = some p →
    ∃ S E, (starts es)[j]? = some S ∧ (ends es)[j]? = some E ∧ p.region = regionOf opts j S E
  current : active es = true → ∃ S, (starts es)[(ends es).length]? = some S ∧
    σ.data.curPoint.region = openRegion opts (ends es).length S
  numbered : opts.callsAsSeparateRoi = true → σ.id = Int32.ofNat ((ends es).length + 1) ∧
    (σ.lastSeenDelimiter = opts.traceF ++ toString σ.id.toInt ↔ active es = true)

section step
variable [Zero τ] {opts : Options} {es : List (Event τ)} {σ : ClientState τ}

theorem Traced.saveRef (h : Traced opts es σ) (r : MemRef) :
    Traced opts (es ++ [.saveRef r]) (step opts σ (.saveRef r)) := by
  rw [step_saveRef]
  exact ⟨by simpa [ends_snoc] using h.count, by simpa [starts_snoc, ends_snoc] using h.points,
    by simpa [starts_snoc, ends_snoc, Event.isStart, Event.isEnd] using h.current,
    by simpa [ends_snoc, Event.isStart, Event.isEnd] using h.numbered⟩

theorem Traced.cleanCall (h : Traced opts es σ) (n : Int32) :
    Traced opts (es ++ [.cleanCall n]) (step opts σ (.cleanCall n)) := by
  rw [step_cleanCall]
  refine ⟨by simpa [ends_snoc] using h.count, by simpa [starts_snoc, ends_snoc] using h.points, ?_,
    by simpa [ends_snoc, Event.isStart, Event.isEnd] using h.numbered⟩
  intro ha
  obtain ⟨S, hS, hr⟩ := h.current (by simpa [Event.isStart, Event.isEnd] using ha)
  refine ⟨S, by simpa [starts_snoc, ends_snoc] using hS, ?_⟩
  rw [ends_snoc, List.append_nil, ← hr]
  split_ifs
  · exact Point.region_drained n _ _
  · rfl

/-- A beginning callback that finds no region active begins the next one. -/
theorem Traced.roiInit (h : Traced opts es σ) (hm : opts.merged = false) (hact : active es = false)
    (hlen : (starts es).length = (ends es).length) (cxt : WrapCxt) (now : τ) :
    Traced opts (es ++ [.roiInit cxt now]) (step opts σ (.roiInit cxt now)) := by
  rw [step_roiInit]
  refine ⟨by simpa [ends_snoc] using h.count, ?_, ?_, ?_⟩
  · intro j p hp
    obtain ⟨S, E, hS, hE, hr⟩ := h.points j p hp
    refine ⟨S, E, ?_, by simpa [ends_snoc] using hE, hr⟩
    rw [starts_snoc, List.getElem?_append_left (List.getElem?_eq_some_iff.mp hS).1, hS]
  · intro _
    refine ⟨⟨es.length, cxt, now⟩, ?_, ?_⟩
    · rw [starts_snoc, ends_snoc, List.append_nil, ← hlen, List.getElem?_concat_length]
    · have hlabel : roiLabel opts σ cxt = ownLabel opts (ends es).length cxt := by
        rw [roiLabel, ownLabel, getLabel_startDelimiter]
        by_cases hs : opts.callsAsSeparateRoi = true
        · rw [if_pos hs, if_pos hs, (h.numbered hs).1]
        · rw [if_neg hs, if_neg hs]
      rw [ends_snoc, List.append_nil, hm, Bool.false_and, if_neg Bool.false_ne_true, Point.opened_eq,
        hlabel, getSrcFileName_startDelimiter, getLineN_startDelimiter]
      rfl
  · intro hs
    obtain ⟨hid, hlast⟩ := h.numbered hs
    simp only [hact, Bool.false_eq_true, iff_false] at hlast
    simp only [hs, if_true, ClientState.getLabelAndAssignId, hlast, if_false]
    exact ⟨by simpa [ends_snoc] using hid, by simp [Event.isStart, Event.isEnd]⟩

/-- An ending callback saves the active region. -/
theorem Traced.roiEnd (h : Traced opts es σ) (hm : opts.merged = false) (hact : active es = true)
    (cxt : WrapCxt) (now : τ) : Traced opts (es ++ [.roiEnd cxt now]) (step opts σ (.roiEnd cxt now)) := by
  obtain ⟨S, hS, hr⟩ := h.current hact
  have hcount := h.count
  rw [step_roiEnd]
  refine ⟨by simp [hm, ends_snoc, hcount], ?_, by simp [Event.isEnd], ?_⟩
  · intro j p hp
    simp only [hm, Bool.false_eq_true, if_false] at hp
    rw [starts_snoc, ends_snoc]
    simp only [List.append_nil]
    rcases getElem?_snoc_eq_some.mp hp with hp | ⟨rfl, rfl⟩
    · obtain ⟨S', E', hS', hE', hr'⟩ := h.points j p hp
      exact ⟨S', E', hS', by rw [List.getElem?_append_left (List.getElem?_eq_some_iff.mp hE').1, hE'], hr'⟩
    · rw [hcount]
      refine ⟨S, ⟨es.length, cxt, now⟩, hS, List.getElem?_concat_length, ?_⟩
      simp only [Point.region, openRegion, Region.mk.injEq] at hr
      simp [Point.ended_eq, Point.region, regionOf, openRegion, hr, getSrcFileName_endDelimiter,
        getLineN_endDelimiter]
  · intro hs
    obtain ⟨hid, hlast⟩ := h.numbered hs
    simp only [hs, if_true, ClientState.getLabelAndAssignId, hlast.mpr hact]
    refine ⟨by simp [ends_snoc, hid], ?_⟩
    rw [int32_numeral_inj]
    simp [Event.isEnd, (int32_succ_ne σ.id).symm]

end step

variable [Zero τ] (opts : Options) (es : List (Event τ))

theorem traced_run (hm : opts.merged = false) (h : Alternating false es) :
    Traced opts es (run opts es) := by
  induction es using List.reverseRecOn with
  | nil =>
    refine ⟨rfl, by simp [run, ClientState.init, ThreadData.new], by simp [active], fun hs => ⟨rfl, ?_⟩⟩
    simp [run, ClientState.init, active, opts.separate hs]
  | append_singleton es ev ih =>
    obtain ⟨halt, hstart, hend⟩ := (alternating_snoc_iff es ev).mp h
    have tr := ih halt
    rw [run_snoc]
    cases ev with
    | saveRef r => exact tr.saveRef r
    | cleanCall n => exact tr.cleanCall n
    | roiInit cxt now =>
      have hlen := (paired es halt).begun
      rw [hstart rfl, Bool.toNat_false, Nat.add_zero] at hlen
      exact tr.roiInit hm (hstart rfl) hlen cxt now
    | roiEnd cxt now => exact tr.roiEnd hm (hend rfl) cxt now

/-- Isolation of the regions, whatever is interleaved with the callbacks: one point for
each completed pair, made of the clean calls between its callbacks and of the references
those drain. No clean call lies in two regions. -/
theorem roi_isolation (hm : opts.merged = false) (h : Alternating false es) :
    (run opts es).data.pointList.length = (ends es).length ∧
      (∀ (j : ℕ) (p : Point τ), (run opts es).data.pointList[j]? = some p →
        ∃ S E, (starts es)[j]? = some S ∧ (ends es)[j]? = some E ∧ S.pos < E.pos ∧
          p.region = regionOf opts j S E ∧
          (p.flops.toNat : ℤ) = flopsBetween es S.pos E.pos % 2 ^ 64 ∧
          p.bytes.toNat = bytesBetween es S.pos E.pos % 2 ^ 64) ∧
      ∀ (c : ℕ) (n : Int32) (i j : ℕ) (S E S' E' : Callback τ), es[c]? = some (.cleanCall n) →
        (starts es)[i]? = some S → (ends es)[i]? = some E → S.pos < c ∧ c < E.pos →
        (starts es)[j]? = some S' → (ends es)[j]? = some E' → S'.pos < c ∧ c < E'.pos → i = j := by
  have tr := traced_run opts es hm h
  refine ⟨tr.count, fun j p hp => ?_, fun c n i j S E S' E' hc hS hE hi hS' hE' hj => ?_⟩
  · obtain ⟨S, E, hS, hE, hr⟩ := tr.points j p hp
    have hlt : E.pos < es.length :=
      (List.getElem?_eq_some_iff.mp (mem_ends (List.mem_of_getElem? hE))).1
    have hold := finalPoints_hold opts es (p := p) (j := j) (by simpa [finalPoints_eq, hm] using hp)
    rw [(Ledger.run_accounts _ (keeps_entries opts es h)).1] at hold
    obtain ⟨hf, hb⟩ := account_between opts es hm h hS hE hlt
    refine ⟨S, E, hS, hE, (paired es h).before j S E hS hE, hr, ?_, ?_⟩
    · rw [hold.flops, hf, toNat_ofInt]
    · rw [hold.bytes, hb, UInt64.toNat_ofNat']
  · have h1 := (roiAt_iff opts es hm h hc rfl hS hE).mpr hi
    have h2 := (roiAt_iff opts es hm h hc rfl hS' hE').mpr hj
    exact Option.some.inj (h1.symm.trans h2)

theorem roi_isolation_two_regions :
    let es : List (Event ℕ) := [.saveRef ⟨4, 1⟩, .roiInit ⟨"a", 1, "f.c"⟩ 10, .saveRef ⟨8, 0⟩, .cleanCall 3,
      .saveRef ⟨16, 0⟩, .roiEnd ⟨"a", 2, "f.c"⟩ 20, .roiInit ⟨"b", 3, "f.c"⟩ 30, .cleanCall 5,
      .roiEnd ⟨"b", 4, "g.c"⟩ 40]
    (run {} es).data.pointList.length = 2 ∧
      ∀ p, (run {} es).data.pointList[1]? = some p →
        p.region = ⟨"b", "f.c", "g.c", 3, 4, 0, 0⟩ ∧ (p.flops.toNat : ℤ) = 5 ∧ p.bytes.toNat = 16 := by
  intro es
  obtain ⟨hlen, hpoints, -⟩ := roi_isolation {} es rfl (by decide)
  refine ⟨hlen, fun p hp => ?_⟩
  obtain ⟨S, E, hS, hE, -, hr, hf, hb⟩ := hpoints 1 p hp
  obtain rfl : (⟨6, ⟨"b", 3, "f.c"⟩, 30⟩ : Callback ℕ) = S := Option.some.inj hS
  obtain rfl : (⟨8, ⟨"b", 4, "g.c"⟩, 40⟩ : Callback ℕ) = E := Option.some.inj hE
  exact ⟨hr, hf, hb⟩

end Roofline.Correctness
