import Roofline.Library.Merging
import Roofline.Correctness.BytePartition
import Roofline.Correctness.Isolation
import Mathlib.Algebra.Order.BigOperators.Group.List
import Mathlib.Algebra.Order.Ring.Rat
import Mathlib.Tactic.Linarith

/-! Tracing a function with all of its calls merged into one point. Its counters add up
over the calls; its times are the last ones recorded. -/
namespace Roofline.Correctness
open Client Library
variable {τ : Type} [Zero τ]

/-- What the merged point has recorded once a call has begun. -/
def mergedRegion (opts : Options) (es : List (Event τ)) : Region τ where
  label := opts.traceF
  srcFileStart := ""
  srcFileEnd := ""
  lineNumberStart := 0
  lineNumberEnd := 0
  startTime := if opts.timeRun then (starts es).getLast?.elim 0 (·.now) else 0
  endTime := if opts.timeRun then (ends es).getLast?.elim 0 (·.now) else 0

/-- The one point of a merged run is current from the first call on. -/
structure MergedTrace (opts : Options) (es : List (Event τ)) (σ : ClientState τ) : Prop where
  saved : σ.data.pointList = []
  once : σ.newPointOnlyOnce = true ↔ starts es ≠ []
  region : starts es ≠ [] → σ.data.curPoint.region = mergedRegion opts es

section step
variable {opts : Options} {es : List (Event τ)} {σ : ClientState τ}

theorem MergedTrace.saveRef (h : MergedTrace opts es σ) (r : MemRef) :
    MergedTrace opts (es ++ [.saveRef r]) (step opts σ (.saveRef r)) := by
  rw [step_saveRef]
  exact ⟨h.saved, by simpa [starts_snoc] using h.once,
    by simpa [starts_snoc, ends_snoc, mergedRegion] using h.region⟩

theorem MergedTrace.cleanCall (h : MergedTrace opts es σ) (n : Int32) :
    MergedTrace opts (es ++ [.cleanCall n]) (step opts σ (.cleanCall n)) := by
  rw [step_cleanCall]
  refine ⟨h.saved, by simpa [starts_snoc] using h.once, ?_⟩
  intro hs
  have hr := h.region (by simpa [starts_snoc] using hs)
  simp only [mergedRegion, starts_snoc, ends_snoc, List.append_nil] at hr ⊢
  rw [← hr]
  split_ifs
  · exact Point.region_drained n _ _
  · rfl

/-- The first call opens the point, and every later one sets its starting time anew. -/
theorem MergedTrace.roiInit (h : MergedTrace opts es σ) (hm : opts.merged = true)
    (hlen : (starts es).length = (ends es).length) (cxt : WrapCxt) (now : τ) :
    MergedTrace opts (es ++ [.roiInit cxt now]) (step opts σ (.roiInit cxt now)) := by
  obtain ⟨hsep, hf⟩ := opts.merged_iff.mp hm
  have hdelim : opts.startDelimiter = opts.traceF := by simp [Options.startDelimiter, hf]
  rw [step_roiInit]
  refine ⟨h.saved, by simp [starts_snoc, hm], ?_⟩
  intro _
  by_cases hs : starts es = []
  · have hends : ends es = [] := List.eq_nil_of_length_eq_zero (by simp [← hlen, hs])
    have hnew : σ.newPointOnlyOnce = false := by
      rw [Bool.eq_false_iff, Ne, h.once]
      exact not_not.mpr hs
    rw [hnew, Bool.and_false, if_neg Bool.false_ne_true, Point.opened_eq]
    simp [Point.region, mergedRegion, starts_snoc, ends_snoc, hends, roiLabel, hsep, hdelim, hf,
      getLabel, getLineN, getSrcFileName]
  · have hr := h.region hs
    simp only [Point.region, mergedRegion, Region.mk.injEq] at hr
    rw [hm, h.once.mpr hs, Bool.and_self, if_pos rfl, Point.stampStart_eq]
    cases ht : opts.timeRun <;> simp [Point.region, mergedRegion, starts_snoc, ends_snoc, hr, ht]

theorem MergedTrace.roiEnd (h : MergedTrace opts es σ) (hm : opts.merged = true) (hs : starts es ≠ [])
    (cxt : WrapCxt) (now : τ) :
    MergedTrace opts (es ++ [.roiEnd cxt now]) (step opts σ (.roiEnd cxt now)) := by
  rw [step_roiEnd]
  refine ⟨by simpa [hm] using h.saved, by simpa [starts_snoc] using h.once, ?_⟩
  intro _
  have hr := h.region hs
  simp only [Point.region, mergedRegion, Region.mk.injEq] at hr
  rw [if_pos hm, Point.stampEnd_eq]
  cases ht : opts.timeRun <;> simp [Point.region, mergedRegion, starts_snoc, ends_snoc, hr, ht]

end step

section trace
variable (opts : Options) (es : List (Event τ))

private theorem mergedTrace_run (hm : opts.merged = true) (h : Alternating false es) :
    MergedTrace opts es (run opts es) := by
  induction es using List.reverseRecOn with
  | nil => exact ⟨rfl, by simp [run, ClientState.init, starts], by simp [starts]⟩
  | append_singleton es ev ih =>
    obtain ⟨halt, hstart, hend⟩ := (alternating_snoc_iff es ev).mp h
    have hbegun := (paired es halt).begun
    have tr := ih halt
    rw [run_snoc]
    cases ev with
    | saveRef r => exact tr.saveRef r
    | cleanCall n => exact tr.cleanCall n
    | roiInit cxt now =>
      rw [hstart rfl, Bool.toNat_false, Nat.add_zero] at hbegun
      exact tr.roiInit hm hbegun cxt now
    | roiEnd cxt now =>
      have hs : starts es ≠ [] := by
        intro hs
        simp [hs, hend rfl] at hbegun
      exact tr.roiEnd hm hs cxt now

/-- A merged run with at least one call writes exactly one point. -/
theorem merged_finalPoints (hm : opts.merged = true) (h : Alternating false es) (hs : starts es ≠ []) :
    ∃ p, finalPoints opts es = [p] ∧ p.region = mergedRegion opts es := by
  obtain ⟨hsaved, -, hregion⟩ := mergedTrace_run opts es hm h
  refine ⟨((run opts es).data.curPoint.setLineEnd 0).setSrcFileEnd "", ?_, ?_⟩
  · rw [finalPoints_eq, hsaved, hm, if_pos rfl, List.nil_append]
  · have hr := hregion hs
    simp only [Point.region, mergedRegion, Region.mk.injEq] at hr
    simp [Point.region, Point.setLineEnd, Point.setSrcFileEnd, mergedRegion, hr]

end trace

section time

/-- The merged point reports the time of its calls and nothing else. -/
def MergedTimeExact [Sub τ] [Add τ] (opts : Options) (es : List (Event τ)) : Prop :=
  ∃ p, finalPoints opts es = [p] ∧ p.elapsed = (callTimes es).sum

omit [Zero τ] in
/-- The last call and the calls before it. -/
theorem callTimes_split [Sub τ] (es : List (Event τ)) (h : Alternating false es)
    (hdone : active es = false) (hs : starts es ≠ []) :
    ∃ S E, (starts es).getLast? = some S ∧ (ends es).getLast? = some E ∧
      callTimes es = (callTimes es).dropLast ++ [E.now - S.now] := by
  have hlen := (paired es h).begun
  rw [hdone, Bool.toNat_false, Nat.add_zero] at hlen
  have he : ends es ≠ [] := by
    intro he
    rw [he, List.length_nil] at hlen
    exact hs (List.eq_nil_of_length_eq_zero hlen)
  refine ⟨(starts es).getLast hs, (ends es).getLast he, List.getLast?_eq_getLast_of_ne_nil hs,
    List.getLast?_eq_getLast_of_ne_nil he, ?_⟩
  have hzip :
      callTimes es = List.zipWith (fun S E => E.now - S.now) (starts es).dropLast (ends es).dropLast ++
      [((ends es).getLast he).now - ((starts es).getLast hs).now] := by
    conv_lhs => rw [callTimes, ← List.dropLast_append_getLast hs, ← List.dropLast_append_getLast he]
    rw [List.zipWith_append (by simp [hlen])]
    rfl
  rw [hzip, List.dropLast_concat]

omit [Zero τ] in
/-- On a clock that never runs backwards no call takes negative time. -/
theorem callTimes_nonneg (es : List (Event ℚ)) (h : Alternating false es) (hclock : Clocked es) :
    ∀ d ∈ callTimes es, 0 ≤ d := by
  intro d hd
  obtain ⟨i, hi, rfl⟩ := List.getElem_of_mem hd
  have hi' : i < (starts es).length ∧ i < (ends es).length := by simpa [callTimes] using hi
  have hS := List.getElem?_eq_getElem hi'.1
  have hE := List.getElem?_eq_getElem hi'.2
  have hlt := (paired es h).before i _ _ hS hE
  have hSev := mem_starts (List.mem_of_getElem? hS)
  have hEev := mem_ends (List.mem_of_getElem? hE)
  obtain ⟨hSlt, hSget⟩ := List.getElem?_eq_some_iff.mp hSev
  obtain ⟨hElt, hEget⟩ := List.getElem?_eq_some_iff.mp hEev
  have hle := List.pairwise_iff_getElem.mp (List.pairwise_filterMap.mp hclock) _ _ hSlt hElt hlt
  rw [hSget, hEget] at hle
  have hle := hle _ rfl _ rfl
  simpa [callTimes] using hle

/-- The times of a merged point are overwritten by every call, so it reports the last call
alone; that is the time of all calls only if the others took none. -/
theorem mergedTimeExact_iff (opts : Options) (hm : opts.merged = true) (ht : opts.timeRun = true)
    (es : List (Event ℚ)) (h : Alternating false es) (hdone : active es = false) (hs : starts es ≠ [])
    (hclock : Clocked es) :
    MergedTimeExact opts es ↔ ∀ d ∈ (callTimes es).dropLast, d = 0 := by
  obtain ⟨p, hp, hr⟩ := merged_finalPoints opts es hm h hs
  obtain ⟨S, E, hS, hE, hsplit⟩ := callTimes_split es h hdone hs
  have hlast : p.elapsed = E.now - S.now := by
    simp only [Point.region, mergedRegion, hS, hE, ht, if_true, Option.elim, Region.mk.injEq] at hr
    rw [Point.elapsed, hr.2.2.2.2.2.1, hr.2.2.2.2.2.2]
  have hnonneg : ∀ d ∈ (callTimes es).dropLast, 0 ≤ d :=
    fun d hd => callTimes_nonneg es h hclock d (List.mem_of_mem_dropLast hd)
  have hsum : (callTimes es).sum = (callTimes es).dropLast.sum + p.elapsed := by
    conv_lhs => rw [hsplit]
    rw [List.sum_append, List.sum_singleton, hlast]
  have hexact : MergedTimeExact opts es ↔ (callTimes es).dropLast.sum = 0 := by
    constructor
    · rintro ⟨q, hq, hel⟩
      obtain rfl : p = q := by simpa using hp.symm.trans hq
      linarith
    · intro hz
      exact ⟨p, hp, by rw [hsum, hz, zero_add]⟩
  rw [hexact]
  constructor
  · intro hz d hd
    exact List.all_zero_of_le_zero_le_of_sum_eq_zero hnonneg hz hd
  · intro hz
    exact List.sum_eq_zero hz

def twoCalls : List (Event ℚ) :=
  [.roiInit ⟨"", 0, ""⟩ 0, .roiEnd ⟨"", 0, ""⟩ 5, .roiInit ⟨"", 0, ""⟩ 7, .roiEnd ⟨"", 0, ""⟩ 10]

private theorem twoCalls_clocked : Clocked twoCalls :=
  show [(0 : ℚ), 5, 7, 10].Pairwise (· ≤ ·) by norm_num

theorem mergedTimeExact_iff_twoCalls :
    MergedTimeExact { traceF := "f", timeRun := true } twoCalls ↔
      ∀ d ∈ (callTimes twoCalls).dropLast, d = 0 :=
  mergedTimeExact_iff _ rfl rfl _ (by decide) (by decide) (by decide) twoCalls_clocked

/-- Eight units were spent in the calls, three are reported. -/
theorem twoCalls_not_exact :
    Alternating false twoCalls ∧ active twoCalls = false ∧ starts twoCalls ≠ [] ∧ Clocked twoCalls ∧
      ¬ MergedTimeExact { traceF := "f", timeRun := true } twoCalls := by
  refine ⟨by decide, by decide, by decide, twoCalls_clocked, ?_⟩
  rintro ⟨p, hp, hel⟩
  obtain rfl := (List.cons.inj hp).1
  have hel : (10 - 7 : ℚ) = ([5 - 0, 10 - 7] : List ℚ).sum := hel
  norm_num at hel

end time

section agreement
variable (opts : Options) (es : List (Event τ))

def asMerged (opts : Options) : Options :=
  { opts with callsAsSeparateRoi := false, separate := by simp }

omit [Zero τ] in
private theorem entries_asMerged (hsep : opts.callsAsSeparateRoi = true) :
    entries (asMerged opts) es = (entries opts es).map Entry.merged := by
  have hf := opts.separate hsep
  have hm : (asMerged opts).merged = true := by simp [Options.merged_iff, asMerged, hf]
  have hm' : opts.merged = false := by simp [Options.merged, hsep]
  rw [entries, entries, List.map_map]
  apply List.map_congr_left
  intro ev _
  cases ev <;> simp [entryOf, hm, hm', Entry.merged, Window.merged, Entry.turning, Entry.deferring, Entry.posting]

omit [Zero τ] in
private theorem sum_holds {ps : List (Point τ)} {ts : List Tally} (h : List.Forall₂ Holds ps ts) :
    (ps.map (·.flops)).sum = UInt64.ofInt ts.sum.flops ∧
      (ps.map (·.bytes)).sum = UInt64.ofNat ts.sum.bytes := by
  induction h with
  | nil => exact ⟨rfl, rfl⟩
  | cons hp _ ih => simp [hp.flops, hp.bytes, ih, UInt64.ofInt_add, UInt64.ofNat_add]

omit [Zero τ] in
private theorem drainedKind_merged (hm : opts.merged = true) (t : UInt16) :
    drainedKind opts es t 0 = drainedActive es t := by
  apply Finset.sum_congr rfl
  intro k _
  cases hn : nextClean es k with
  | none => simp
  | some c => cases ha : active (es.take c) <;> simp [roiAt, hm, ha]

/-- Merged and separate tracing of the same calls agree: the merged point holds the sums of
the separate points, and its read and written bytes are those drained during some call. -/
theorem merged_agrees_separate (hsep : opts.callsAsSeparateRoi = true) (h : Alternating false es)
    (hdone : active es = false) (hs : starts es ≠ []) :
    ∃ p, finalPoints (asMerged opts) es = [p] ∧ p.label = opts.traceF ∧
      (finalPoints opts es).length = (starts es).length ∧
      p.flops = ((finalPoints opts es).map (·.flops)).sum ∧
      p.bytes = ((finalPoints opts es).map (·.bytes)).sum ∧
      p.readBytes.toNat = drainedActive es 0 % 2 ^ 64 ∧
      p.writeBytes.toNat = drainedActive es 1 % 2 ^ 64 := by
  have hf := opts.separate hsep
  have hm : (asMerged opts).merged = true := by simp [Options.merged_iff, asMerged, hf]
  have hm' : opts.merged = false := by simp [Options.merged, hsep]
  obtain ⟨p, hp, hr⟩ := merged_finalPoints _ es hm h hs
  have keep := keeps_entries (asMerged opts) es h
  have keep' := keeps_entries opts es h
  have idle := Ledger.idle_of_alternates _ (alternates_entries opts es hm' h)
  have hmerge := Ledger.merges_run _ keep'
  rw [← entries_asMerged opts es hsep] at hmerge
  have hzero : (Ledger.run (entries opts es)).current = 0 := idle (by rw [run_entries_active, hdone])
  have hbook : (Ledger.run (entries (asMerged opts) es)).book 0 =
      (Ledger.run (entries opts es)).closed.sum := by
    have hcur := Ledger.book_current (Ledger.run (entries (asMerged opts) es))
    rw [hmerge.closed, List.length_nil] at hcur
    rw [hcur, hmerge.current, hzero, add_zero]
  have hget : (finalPoints (asMerged opts) es)[0]? = some p := by simp [hp]
  have hold := finalPoints_hold _ es hget
  rw [hbook] at hold
  have hsum := sum_holds (refines_run opts es).closed
  have hsaved : finalPoints opts es = (run opts es).data.pointList := by simp [finalPoints_eq, hm']
  have hkinds := finalPoints_holdKinds _ es keep hget
  rw [zero_add, Finset.sum_range_one, (Ledger.run_accounts _ keep).1] at hkinds
  obtain ⟨hreads, hwrites⟩ := account_kinds (asMerged opts) es 0
  rw [drainedKind_merged _ es hm] at hreads hwrites
  refine ⟨p, hp, congrArg Region.label hr, ?_, ?_, ?_, ?_, ?_⟩
  · have hlen := (paired es h).begun
    rw [finalPoints_length, regionCount, hm', countP_isEnd, hlen, hdone]
    simp
  · rw [hsaved, hsum.1, hold.flops]
  · rw [hsaved, hsum.2, hold.bytes]
  · rw [hkinds.reads, hreads, UInt64.toNat_ofNat']
  · rw [hkinds.writes, hwrites, UInt64.toNat_ofNat']

theorem merged_agrees_separate_twoCalls :
    let opts : Options := { traceF := "f", callsAsSeparateRoi := true }
    let es : List (Event ℕ) := [.roiInit ⟨"", 0, ""⟩ 0, .saveRef ⟨8, 0⟩, .cleanCall 3, .roiEnd ⟨"", 0, ""⟩ 0,
      .saveRef ⟨4, 1⟩, .roiInit ⟨"", 0, ""⟩ 0, .cleanCall 2, .roiEnd ⟨"", 0, ""⟩ 0]
    (finalPoints opts es).length = 2 ∧ ∃ p, finalPoints (asMerged opts) es = [p] ∧ p.label = "f" ∧
      p.readBytes.toNat = 8 ∧ p.writeBytes.toNat = 4 := by
  intro opts es
  obtain ⟨p, hp, hlabel, hlen, -, -, hr, hw⟩ :=
    merged_agrees_separate opts es rfl (by decide) (by decide) (by decide)
  exact ⟨hlen, p, hp, hlabel, hr, hw⟩

end agreement

end Roofline.Correctness
