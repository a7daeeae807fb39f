import Roofline.Correctness.Accounting
import Mathlib.Algebra.Order.BigOperators.Group.Finset

/-! Read and written bytes. Point::reset leaves both counters alone, so a saved point
holds the totals of every region up to its own. -/
namespace Roofline.Correctness
open Client Library
variable {τ : Type} [Zero τ]

/-- The read and written bytes of the points accumulate over all accounts so far. -/
structure Accumulates (σ : ClientState τ) (L : Ledger Tally) : Prop where
  current : HoldsKinds σ.data.curPoint (L.closed.sum + L.current)
  points : ∀ (j : ℕ) (p : Point τ), σ.data.pointList[j]? = some p → HoldsKinds p (L.closed.take (j + 1)).sum

section step
variable {opts : Options} {σ : ClientState τ} {L : Ledger Tally}

theorem Accumulates.cleanCall (h : Accumulates σ L) (href : Refines opts σ L) (n : Int32) :
    Accumulates (step opts σ (.cleanCall n)) (L.settle (some (fpTally n))) := by
  rw [step_cleanCall]
  refine ⟨?_, h.points⟩
  simp only [Ledger.settle, ← href.active, ← href.deferred]
  split_ifs
  · rw [← add_assoc]
    exact h.current.drained n _
  · exact h.current

/-- A new point keeps the read and written bytes, and an empty account. -/
theorem Accumulates.roiInit (h : Accumulates σ L) (hempty : opts.merged = false → L.current = 0)
    (cxt : WrapCxt) (now : τ) :
    Accumulates (step opts σ (.roiInit cxt now))
      (L.turn (if opts.merged then .resume else .opening)) := by
  rw [step_roiInit]
  refine ⟨?_, by cases opts.merged <;> exact h.points⟩
  have hc := h.current
  cases hm : opts.merged with
  | false =>
    rw [hempty hm] at hc
    rw [Bool.false_and, if_neg Bool.false_ne_true, if_neg Bool.false_ne_true, Ledger.turn,
      Point.opened_eq]
    exact ⟨hc.reads, hc.writes⟩
  | true =>
    rw [Bool.true_and, if_pos rfl, Ledger.turn, Point.opened_eq, Point.stampStart_eq]
    cases σ.newPointOnlyOnce with
    | false => exact ⟨hc.reads, hc.writes⟩
    | true => exact ⟨hc.reads, hc.writes⟩

/-- The saved point and the one after it both have the totals so far. -/
theorem Accumulates.roiEnd (h : Accumulates σ L) (hlen : σ.data.pointList.length = L.closed.length)
    (cxt : WrapCxt) (now : τ) :
    Accumulates (step opts σ (.roiEnd cxt now))
      (L.turn (if opts.merged then .pause else .closing)) := by
  rw [step_roiEnd]
  have hc := h.current
  cases hm : opts.merged with
  | false =>
    have hend : HoldsKinds (σ.data.curPoint.ended opts cxt now) (L.closed ++ [L.current]).sum := by
      rw [Point.ended_eq, List.sum_append, List.sum_singleton]
      exact ⟨hc.reads, hc.writes⟩
    rw [if_neg Bool.false_ne_true, if_neg Bool.false_ne_true, Ledger.turn]
    constructor
    · rw [add_zero]
      exact ⟨hend.reads, hend.writes⟩
    · intro j p hp
      rcases getElem?_snoc_eq_some.mp hp with hp | ⟨rfl, rfl⟩
      · have hj := (List.getElem?_eq_some_iff.mp hp).1
        rw [List.take_append_of_le_length (by omega)]
        exact h.points j p hp
      · rw [List.take_of_length_le (by simp [hlen])]
        exact hend
  | true =>
    refine ⟨?_, h.points⟩
    rw [if_pos rfl, if_pos rfl, Ledger.turn, Point.stampEnd_eq]
    exact ⟨hc.reads, hc.writes⟩

theorem Accumulates.step (h : Accumulates σ L) (href : Refines opts σ L) (ev : Event τ)
    (hkeep : Ledger.Keeps L (entryOf opts ev)) :
    Accumulates (step opts σ ev) (L.step (entryOf opts ev)) := by
  cases ev with
  | saveRef r =>
    rw [step_saveRef, entryOf, Ledger.step_deferring]
    exact ⟨h.current, h.points⟩
  | cleanCall n =>
    rw [entryOf, Ledger.step_posting]
    exact h.cleanCall href n
  | roiInit cxt now =>
    rw [entryOf, Ledger.step_turning]
    exact h.roiInit (fun hm => hkeep.1 (by simp [entryOf, hm, Entry.turning])) cxt now
  | roiEnd cxt now =>
    rw [entryOf, Ledger.step_turning]
    exact h.roiEnd href.closed.length_eq cxt now

end step

private theorem accumulates_run (opts : Options) (es : List (Event τ))
    (h : Ledger.Along Ledger.Keeps (entries opts es)) :
    Accumulates (run opts es) (Ledger.run (entries opts es)) := by
  induction es using List.reverseRecOn with
  | nil => exact ⟨⟨rfl, rfl⟩, by simp [run, ClientState.init, ThreadData.new]⟩
  | append_singleton es ev ih =>
    rw [entries_snoc, Ledger.along_snoc] at h
    rw [entries_snoc, Ledger.run_snoc, run_snoc]
    exact (ih h.1).step (refines_run opts es) ev h.2

section ledger
variable (opts : Options) (es : List (Event τ))

/-- The number of points written: one for each end, or a single one in the merged mode. -/
def regionCount (opts : Options) (es : List (Event τ)) : ℕ :=
  if opts.merged then 1 else es.countP Event.isEnd

theorem finalPoints_length : (finalPoints opts es).length = regionCount opts es := by
  have hlen := (refines_run opts es).closed.length_eq
  rw [run_entries_closed] at hlen
  rw [finalPoints_eq, regionCount]
  split_ifs at hlen ⊢ <;> simp [hlen]

/-- Every written point holds the kinds of all accounts up to its own. -/
theorem finalPoints_holdKinds (h : Ledger.Along Ledger.Keeps (entries opts es)) {j : ℕ} {p : Point τ}
    (hp : (finalPoints opts es)[j]? = some p) :
    HoldsKinds p (∑ i ∈ Finset.range (j + 1), (Ledger.run (entries opts es)).book i) := by
  have acc := accumulates_run opts es h
  have hlen := (refines_run opts es).closed.length_eq
  have hcount := run_entries_closed opts es
  generalize Ledger.run (entries opts es) = L at *
  have htake : ∀ m ≤ L.closed.length, (L.closed.take m).sum = ∑ i ∈ Finset.range m, L.book i := by
    intro m
    induction m with
    | zero => simp
    | succ m ih =>
      intro hm
      rw [Finset.sum_range_succ, ← ih (by omega), List.take_add_one, Ledger.book_of_lt L (by omega)]
      simp
  rw [finalPoints_eq] at hp
  cases hm : opts.merged with
  | false =>
    simp only [hm, Bool.false_eq_true, if_false, List.append_nil] at hp
    rw [← htake (j + 1) (by have := (List.getElem?_eq_some_iff.mp hp).1; omega)]
    exact acc.points j p hp
  | true =>
    simp only [hm, if_true] at hp hcount
    have hnil : L.closed = [] := List.eq_nil_of_length_eq_zero hcount
    have hpts : (run opts es).data.pointList = [] := List.eq_nil_of_length_eq_zero (by omega)
    rw [hpts, List.nil_append] at hp
    obtain ⟨rfl, rfl⟩ : j = 0 ∧ ((run opts es).data.curPoint.setLineEnd 0).setSrcFileEnd "" = p := by
      cases j <;> simp_all
    have hcur := acc.current
    rw [hnil, List.sum_nil, zero_add, ← Ledger.book_current, hnil] at hcur
    rw [zero_add, Finset.sum_range_one]
    exact ⟨hcur.reads, hcur.writes⟩

end ledger

section amounts
variable (opts : Options) (es : List (Event τ))

omit [Zero τ] in
theorem account_kinds (j : ℕ) :
    (Ledger.account (entries opts es) j).reads = drainedKind opts es 0 j ∧
      (Ledger.account (entries opts es) j).writes = drainedKind opts es 1 j := by
  rw [account_entries, Tally.reads_sum, Tally.writes_sum]
  constructor <;>
  · refine Finset.sum_congr rfl fun k _ => ?_
    rw [deferAt_entries]
    split_ifs <;> simp

omit [Zero τ] in
/-- With only the two kinds the code writes, bytes are read bytes and written bytes. -/
theorem account_bytes (hkind : ∀ r, Event.saveRef r ∈ es → r.type = 0 ∨ r.type = 1) (j : ℕ) :
    (Ledger.account (entries opts es) j).bytes = drainedKind opts es 0 j + drainedKind opts es 1 j := by
  rw [account_entries, Tally.bytes_sum, drainedKind, drainedKind, ← Finset.sum_add_distrib]
  refine Finset.sum_congr rfl fun k hk => ?_
  have hk := Finset.mem_range.mp hk
  have hsize : es[k].refSize = es[k].kindSize 0 + es[k].kindSize 1 := by
    cases hev : es[k] with
    | saveRef r =>
      rcases hkind r (hev ▸ List.getElem_mem hk) with ht | ht <;> simp [Event.refSize, Event.kindSize, ht]
    | roiInit cxt now => rfl
    | roiEnd cxt now => rfl
    | cleanCall n => rfl
  rw [deferAt_entries]
  simp only [List.getElem?_eq_getElem hk, Option.map_some, Option.getD_some, hsize]
  split_ifs <;> simp

omit [Zero τ] in
/-- No reference is drained in two regions, so all regions together stay below the total. -/
theorem sum_drainedKind_le (m : ℕ) :
    ∑ j ∈ Finset.range m, (drainedKind opts es 0 j + drainedKind opts es 1 j) ≤
      es.countP Event.isRef * (2 ^ 16 - 1) := by
  refine le_trans ?_ (sum_refSize_le es)
  rw [← sum_positions]
  simp only [drainedKind, ← Finset.sum_add_distrib]
  rw [Finset.sum_comm]
  refine Finset.sum_le_sum fun k hk => ?_
  have hk := Finset.mem_range.mp hk
  have hle : es[k].kindSize 0 + es[k].kindSize 1 ≤ es[k].refSize := by
    cases es[k] with
    | saveRef r =>
      by_cases h0 : r.type = 0
      · simp [Event.kindSize, Event.refSize, h0]
      · simp only [Event.kindSize, Event.refSize, h0, if_false, zero_add]
        split_ifs <;> omega
    | roiInit cxt now => rfl
    | roiEnd cxt now => rfl
    | cleanCall n => rfl
  simp only [List.getElem?_eq_getElem hk, Option.map_some, Option.getD_some]
  cases hr : (nextClean es k).bind (roiAt opts es) with
  | none => simp
  | some i =>
    have hterm (j : ℕ) : ((if some i = some j then es[k].kindSize 0 else 0) +
        if some i = some j then es[k].kindSize 1 else 0) =
          if i = j then es[k].kindSize 0 + es[k].kindSize 1 else 0 := by
      simp only [Option.some.injEq]
      split_ifs <;> rfl
    simp only [hterm, Finset.sum_ite_eq]
    split_ifs <;> omega

end amounts

/-- Every written point splits its bytes into the bytes read and the bytes written in its own region. -/
def BytesPartitioned (opts : Options) (es : List (Event τ)) : Prop :=
  ∀ (j : ℕ) (p : Point τ), (finalPoints opts es)[j]? = some p →
    p.readBytes.toNat + p.writeBytes.toNat = p.bytes.toNat ∧
      p.readBytes.toNat = drainedKind opts es 0 j ∧ p.writeBytes.toNat = drainedKind opts es 1 j

/-- Only the last region of a run may drain anything: the counters are never reset. -/
theorem bytesPartitioned_iff (opts : Options) (es : List (Event τ)) (inside : Bool)
    (h : Alternating inside es) (hkind : ∀ r, Event.saveRef r ∈ es → r.type = 0 ∨ r.type = 1)
    (hfew : es.countP Event.isRef < 2 ^ 48) :
    BytesPartitioned opts es ↔
      ∀ j, j + 1 < regionCount opts es → drainedKind opts es 0 j = 0 ∧ drainedKind opts es 1 j = 0 := by
  have keep := keeps_entries opts es h
  have acct := (Ledger.run_accounts _ keep).1
  have small (m : ℕ) : ∑ i ∈ Finset.range m, drainedKind opts es 0 i +
      ∑ i ∈ Finset.range m, drainedKind opts es 1 i < 2 ^ 64 := by
    have := sum_drainedKind_le opts es m
    rw [Finset.sum_add_distrib] at this
    omega
  have counters {j : ℕ} {p : Point τ} (hp : (finalPoints opts es)[j]? = some p) :
      p.readBytes.toNat = ∑ i ∈ Finset.range (j + 1), drainedKind opts es 0 i ∧
        p.writeBytes.toNat = ∑ i ∈ Finset.range (j + 1), drainedKind opts es 1 i := by
    obtain ⟨hr, hw⟩ := finalPoints_holdKinds opts es keep hp
    simp only [acct, Tally.reads_sum, Tally.writes_sum, account_kinds] at hr hw
    rw [hr, hw, UInt64.toNat_ofNat', UInt64.toNat_ofNat']
    have := small (j + 1)
    exact ⟨Nat.mod_eq_of_lt (by omega), Nat.mod_eq_of_lt (by omega)⟩
  have bytes {j : ℕ} {p : Point τ} (hp : (finalPoints opts es)[j]? = some p) :
      p.bytes.toNat = (drainedKind opts es 0 j + drainedKind opts es 1 j) % 2 ^ 64 := by
    rw [(finalPoints_hold opts es hp).bytes, acct, account_bytes opts es hkind, UInt64.toNat_ofNat']
  constructor
  · intro hpart j hj
    have hlt : j + 1 < (finalPoints opts es).length := by rwa [finalPoints_length]
    have hp := List.getElem?_eq_getElem hlt
    obtain ⟨hr, hw⟩ := counters hp
    obtain ⟨-, hr', hw'⟩ := hpart _ _ hp
    rw [hr, Finset.sum_range_succ, Finset.sum_range_succ] at hr'
    rw [hw, Finset.sum_range_succ, Finset.sum_range_succ] at hw'
    omega
  · intro hzero j p hp
    have hj := (List.getElem?_eq_some_iff.mp hp).1
    rw [finalPoints_length] at hj
    obtain ⟨hr, hw⟩ := counters hp
    have hsum (t : UInt16) (ht : ∀ i < j, drainedKind opts es t i = 0) :
        ∑ i ∈ Finset.range (j + 1), drainedKind opts es t i = drainedKind opts es t j := by
      rw [Finset.sum_range_succ, Finset.sum_eq_zero fun i hi => ht i (Finset.mem_range.mp hi), zero_add]
    rw [hsum 0 fun i hi => (hzero i (by omega)).1] at hr
    rw [hsum 1 fun i hi => (hzero i (by omega)).2] at hw
    refine ⟨?_, hr, hw⟩
    have hlt := small (j + 1)
    rw [hsum 0 fun i hi => (hzero i (by omega)).1, hsum 1 fun i hi => (hzero i (by omega)).2] at hlt
    rw [hr, hw, bytes hp, Nat.mod_eq_of_lt hlt]

/-- Two marked regions; only the first one reads anything. -/
def readThenIdle : List (Event ℕ) :=
  [.roiInit ⟨"a", 1, "f.c"⟩ 0, .saveRef ⟨8, 0⟩, .cleanCall 0, .roiEnd ⟨"a", 2, "f.c"⟩ 0,
    .roiInit ⟨"b", 3, "f.c"⟩ 0, .cleanCall 0, .roiEnd ⟨"b", 4, "f.c"⟩ 0]

/-- Two marked regions; only the second one reads and writes anything. -/
def idleThenRead : List (Event ℕ) :=
  [.roiInit ⟨"b", 3, "f.c"⟩ 0, .cleanCall 0, .roiEnd ⟨"b", 4, "f.c"⟩ 0, .roiInit ⟨"a", 1, "f.c"⟩ 0,
    .saveRef ⟨8, 0⟩, .saveRef ⟨4, 1⟩, .cleanCall 0, .roiEnd ⟨"a", 2, "f.c"⟩ 0]

theorem bytesPartitioned_iff_readThenIdle :
    (BytesPartitioned {} readThenIdle ↔ ∀ j, j + 1 < regionCount {} readThenIdle →
      drainedKind {} readThenIdle 0 j = 0 ∧ drainedKind {} readThenIdle 1 j = 0) ∧
    BytesPartitioned {} idleThenRead := by
  constructor
  · exact bytesPartitioned_iff {} readThenIdle false (by decide) (by simp [readThenIdle]) (by decide)
  · refine (bytesPartitioned_iff {} idleThenRead false (by decide) (by simp [idleThenRead]) (by decide)).mpr ?_
    have hregions : ∀ j < 1, drainedKind {} idleThenRead 0 j = 0 ∧ drainedKind {} idleThenRead 1 j = 0 := by decide
    intro j hj
    have htwo : regionCount {} idleThenRead = 2 := rfl
    exact hregions j (by omega)

/-- The second point still reports the eight bytes that the first one read. -/
theorem readThenIdle_not_partitioned :
    Alternating false readThenIdle ∧ (∀ r, Event.saveRef r ∈ readThenIdle → r.type = 0 ∨ r.type = 1) ∧
      readThenIdle.countP Event.isRef < 2 ^ 48 ∧ ¬ BytesPartitioned {} readThenIdle := by
  refine ⟨by decide, by simp [readThenIdle], by decide, fun h => ?_⟩
  have hpoint := h 1 _ rfl
  exact absurd hpoint.2.1 (by decide)

end Roofline.Correctness
