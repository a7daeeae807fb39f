import Roofline.Correctness.BlockLedger
import Mathlib.Algebra.BigOperators.Intervals

/-! The counters of a separate region in terms of whole blocks, for callbacks that fire
right after the clean call of their block. -/
namespace Roofline.Correctness
open Client Library
variable {τ ι : Type}

def startBlocks (xs : List (Execution τ ι)) : List ℕ :=
  xs.zipIdx.flatMap fun p => if p.1.callbacks.any Event.isStart then [p.2] else []

def endBlocks (xs : List (Execution τ ι)) : List ℕ :=
  xs.zipIdx.flatMap fun p => if p.1.callbacks.any Event.isEnd then [p.2] else []

def bytesOf (refs : List MemRef) : ℕ := (refs.map fun r => r.size.toNat).sum

def atBlock {M : Type} [Zero M] (f : Execution τ ι → M) (xs : List (Execution τ ι)) (k : ℕ) : M :=
  (xs[k]?.map f).getD 0

/-- Blocks s and e of a run begin and end region j. -/
structure BlockRoi (opts : Options) (build : Build ι) (xs : List (Execution τ ι)) (j s e : ℕ) : Prop where
  called : ∀ x ∈ xs, x.HeadCalled opts build
  alternating : Alternating false (callbacksOf xs)
  start : (startBlocks xs)[j]? = some s
  stop : (endBlocks xs)[j]? = some e

section blocks
variable {xs : List (Execution τ ι)} {k : ℕ}

private theorem mem_blocksWith {P : Execution τ ι → Bool}
    (h : k ∈ xs.zipIdx.flatMap fun p => if P p.1 then [p.2] else []) :
    ∃ x, xs[k]? = some x ∧ P x = true := by
  obtain ⟨⟨x, i⟩, hi, hk⟩ := List.mem_flatMap.mp h
  rw [List.mem_zipIdx_iff_getElem?] at hi
  cases hP : P x <;> simp [hP] at hk
  exact ⟨x, hk ▸ hi, hP⟩

private theorem no_start_and_end (x : Execution τ ι) (hstart : x.callbacks.any Event.isStart = true)
    (hend : x.callbacks.any Event.isEnd = true) : False := by
  rcases hx : x.callback with _ | ⟨ev, hev⟩
  · simp [Execution.callbacks, hx] at hstart
  · cases ev <;> simp [Execution.callbacks, hx, Event.isStart, Event.isEnd] at hstart hend

end blocks

section sums
variable {M : Type} [AddCommMonoid M] (f g : ℕ → M)

/-- The rest of the first block, all of those between, and the head of the last one. -/
theorem sum_window {s e n : ℕ} (hse : s < e) (hen : e < n) :
    ∑ k ∈ Finset.range n, ((if s < k ∧ k ≤ e then f k else 0) +
        if k + 1 < n ∧ s < k + 1 ∧ k + 1 ≤ e then g k else 0) =
      g s + ∑ k ∈ Finset.Ioo s e, (f k + g k) + f e := by
  have hf : (Finset.range n).filter (fun k => s < k ∧ k ≤ e) = Finset.Ioc s e := by
    ext k
    simp only [Finset.mem_filter, Finset.mem_range, Finset.mem_Ioc]
    omega
  have hg : (Finset.range n).filter (fun k => k + 1 < n ∧ s < k + 1 ∧ k + 1 ≤ e) = Finset.Ico s e := by
    ext k
    simp only [Finset.mem_filter, Finset.mem_range, Finset.mem_Ico]
    omega
  rw [Finset.sum_add_distrib, ← Finset.sum_filter, ← Finset.sum_filter, hf, hg,
    ← Finset.Ioo_insert_right hse,
    ← Finset.Ioo_insert_left hse, Finset.sum_insert (by simp), Finset.sum_insert (by simp), Finset.sum_add_distrib]
  abel

/-- Sums over two runs of blocks that agree from s and from t on. -/
theorem sum_Ioo_shift {s t m : ℕ} (h : ∀ i ≤ m, f (s + i) = g (t + i)) :
    ∑ k ∈ Finset.Ioo s (s + m), f k = ∑ k ∈ Finset.Ioo t (t + m), g k := by
  have hico (s : ℕ) : Finset.Ioo s (s + m) = Finset.Ico (s + 1) (s + m) := by
    ext k
    simp only [Finset.mem_Ioo, Finset.mem_Ico]
    omega
  rw [hico, hico, Finset.sum_Ico_eq_sum_range, Finset.sum_Ico_eq_sum_range]
  refine Finset.sum_congr (by congr 1; omega) ?_
  intro i hi
  have hi := Finset.mem_range.mp hi
  have hf := h (i + 1) (by omega)
  rwa [← Nat.add_assoc, ← Nat.add_assoc, Nat.add_right_comm s, Nat.add_right_comm t] at hf

end sums

section windows
variable (opts : Options) {M : Type} [AddCommMonoid M] (post defer : ℕ → Execution τ ι → M)

omit [AddCommMonoid M] in
theorem stamps_blockLedger (hm : opts.merged = false) (xs : List (Execution τ ι)) :
    Ledger.stamps .opening (blockLedger opts .afterCleanCall post defer xs) = (startBlocks xs).map (· + 1) ∧
      Ledger.stamps .closing (blockLedger opts .afterCleanCall post defer xs) = (endBlocks xs).map (· + 1) := by
  induction xs using List.reverseRecOn with
  | nil => exact ⟨rfl, rfl⟩
  | append_singleton xs x ih =>
    rw [blockLedger_snoc, Ledger.stamps_snoc, Ledger.stamps_snoc, ih.1, ih.2, blockLedger_length]
    rcases hx : x.callback with _ | ⟨ev, hev⟩
    · simp [startBlocks, endBlocks, List.zipIdx_append, Ledger.stampsOf, blockEntry, windowOf,
        Execution.callbacks, hx]
    · cases ev with
      | roiInit cxt now =>
        simp [startBlocks, endBlocks, List.zipIdx_append, Ledger.stampsOf, blockEntry, windowOf,
          Execution.callbacks, hx, hm, Event.isStart, Event.isEnd]
      | roiEnd cxt now =>
        simp [startBlocks, endBlocks, List.zipIdx_append, Ledger.stampsOf, blockEntry, windowOf,
          Execution.callbacks, hx, hm, Event.isStart, Event.isEnd]
      | saveRef r => cases hev
      | cleanCall n => cases hev

end windows

section region
variable {opts : Options} {build : Build ι} {xs : List (Execution τ ι)} {j s e : ℕ}

/-- The clean calls of region j are those of the blocks behind its first up to its last one. -/
theorem BlockRoi.region (h : BlockRoi opts build xs j s e) (hm : opts.merged = false) :
    s < e ∧ e < xs.length ∧
      ∀ k < xs.length, blockRegion opts .afterCleanCall xs k = some j ↔ s < k ∧ k ≤ e := by
  have halt :=
    alternates_blockLedger opts .afterCleanCall (fun _ _ => (0 : ℕ)) (fun _ _ => 0) xs hm h.alternating
  obtain ⟨rec, own⟩ := Ledger.recorded_run _ halt
  obtain ⟨ho, hc⟩ := stamps_blockLedger opts (fun _ _ => (0 : ℕ)) (fun _ _ => 0) hm xs
  rw [ho, hc] at own rec
  rw [blockLedger_length] at own rec
  have hopen : ((startBlocks xs).map (· + 1))[j]? = some (s + 1) := by simp [h.start]
  have hclose : ((endBlocks xs).map (· + 1))[j]? = some (e + 1) := by simp [h.stop]
  have hle := rec.ordered j _ _ hopen hclose
  have hlast := rec.closes_le _ (List.mem_of_getElem? hclose)
  have hne : s ≠ e := by
    rintro rfl
    obtain ⟨x, hx, hstart⟩ :=
      mem_blocksWith (P := fun x => x.callbacks.any Event.isStart) (List.mem_of_getElem? h.start)
    obtain ⟨y, hy, hend⟩ :=
      mem_blocksWith (P := fun x => x.callbacks.any Event.isEnd) (List.mem_of_getElem? h.stop)
    obtain rfl := Option.some.inj (hx.symm.trans hy)
    exact no_start_and_end x hstart hend
  refine ⟨by omega, by omega, fun k hk => ?_⟩
  rw [← owner_blockLedger opts .afterCleanCall (fun _ _ => (0 : ℕ)) (fun _ _ => 0) xs hk, own k hk,
    Ledger.Within]
  simp only [hopen, hclose, Option.some.injEq]
  constructor
  · rintro ⟨o, rfl, h1, h2⟩
    have := h2 _ rfl
    omega
  · rintro ⟨h1, h2⟩
    exact ⟨s + 1, rfl, h1, fun c hc => by omega⟩

/-- The exact amount of region j: the rest of its first block, every block behind that one,
and the head of its last block. -/
theorem BlockRoi.book (h : BlockRoi opts build xs j s e) (hm : opts.merged = false) :
    (Ledger.run (entries opts (blockEvents opts build .afterCleanCall xs))).book j =
      atBlock (restTally opts) xs s +
        ∑ k ∈ Finset.Ioo s e, (atBlock (headTally opts build) xs k + atBlock (restTally opts) xs k) +
          atBlock (headTally opts build) xs e := by
  obtain ⟨hse, hen, hregion⟩ := h.region hm
  rw [run_blockEvents opts build .afterCleanCall xs h.called,
    book_blockLedger opts .afterCleanCall _ _ xs h.alternating, ← sum_window _ _ hse hen]
  refine Finset.sum_congr rfl fun k hk => ?_
  have hk := Finset.mem_range.mp hk
  simp only [hregion k hk]
  congr 1
  by_cases hlt : k + 1 < xs.length
  · simp [hlt, hregion (k + 1) hlt, atBlock]
  · simp [hlt]

variable [Zero τ]

/-- The point of region j is there, with the counters that its account holds. -/
theorem BlockRoi.point (h : BlockRoi opts build xs j s e) (hm : opts.merged = false) :
    ∃ p, (finalPoints opts (blockEvents opts build .afterCleanCall xs))[j]? = some p ∧
      Holds p ((Ledger.run (entries opts (blockEvents opts build .afterCleanCall xs))).book j) := by
  have halt := alternates_blockLedger opts .afterCleanCall (fun _ => headTally opts build)
    (fun _ => restTally opts) xs hm h.alternating
  have hclosed := (Ledger.recorded_run _ halt).1.closed
  rw [(stamps_blockLedger opts _ _ hm xs).2,
    ← run_blockEvents opts build .afterCleanCall xs h.called] at hclosed
  have hj := (List.getElem?_eq_some_iff.mp h.stop).1
  have hlen := (refines_run opts (blockEvents opts build .afterCleanCall xs)).closed.length_eq
  rw [List.length_map] at hclosed
  have hp : j < (finalPoints opts (blockEvents opts build .afterCleanCall xs)).length := by
    rw [finalPoints_eq, hm]
    simp
    omega
  exact ⟨_, List.getElem?_eq_getElem hp, finalPoints_hold _ _ (List.getElem?_eq_getElem hp)⟩

end region

section accounting
variable [Zero τ] (opts : Options) (build : Build ι)

private theorem sum_refTally (refs : List MemRef) :
    (refs.map refTally).sum.flops = 0 ∧ (refs.map refTally).sum.bytes = bytesOf refs := by
  refine ⟨flops_sum_refTally refs, ?_⟩
  induction refs with
  | nil => rfl
  | cons r refs ih => simp [ih, refTally, bytesOf]

omit [Zero τ] in
theorem headTally_amounts (xs : List (Execution τ ι)) (k : ℕ) :
    (atBlock (headTally opts build) xs k).flops = atBlock (fun x => (x.fpCount build).toInt) xs k ∧
      (atBlock (headTally opts build) xs k).bytes = atBlock (fun x => bytesOf (x.firstRefs opts)) xs k := by
  unfold atBlock
  cases xs[k]? with
  | none => exact ⟨rfl, rfl⟩
  | some x => simp [headTally, fpTally, sum_refTally]

omit [Zero τ] in
theorem restTally_amounts (xs : List (Execution τ ι)) (k : ℕ) :
    (atBlock (restTally opts) xs k).flops = 0 ∧
      (atBlock (restTally opts) xs k).bytes = atBlock (fun x => bytesOf (x.restRefs opts)) xs k := by
  unfold atBlock
  cases xs[k]? with
  | none => exact ⟨rfl, rfl⟩
  | some x => simp [restTally, sum_refTally]

omit [Zero τ] in
/-- Regions over the same blocks have the same account. -/
theorem BlockRoi.book_congr (hm : opts.merged = false) {xs ys : List (Execution τ ι)}
    {i j s s' e e' : ℕ}
    (h : BlockRoi opts build xs j s e) (h' : BlockRoi opts build ys i s' e') (hlen : e' - s' = e - s)
    (hsame : ∀ k ≤ e - s, ys[s' + k]? = xs[s + k]?) :
    (Ledger.run (entries opts (blockEvents opts build .afterCleanCall ys))).book i =
      (Ledger.run (entries opts (blockEvents opts build .afterCleanCall xs))).book j := by
  have hse := (h.region hm).1
  have hse' := (h'.region hm).1
  obtain ⟨m, rfl⟩ : ∃ m, e = s + m := ⟨e - s, by omega⟩
  obtain rfl : e' = s' + m := by omega
  rw [Nat.add_sub_cancel_left] at hsame
  have hat (f : Execution τ ι → Tally) (k : ℕ) (hk : k ≤ m) :
      atBlock f ys (s' + k) = atBlock f xs (s + k) := by
    rw [atBlock, atBlock, hsame k hk]
  have hsum := sum_Ioo_shift
    (fun k => atBlock (headTally opts build) ys k + atBlock (restTally opts) ys k)
    (fun k => atBlock (headTally opts build) xs k + atBlock (restTally opts) xs k)
    (fun k hk => by rw [hat _ k hk, hat _ k hk])
  have hfirst := hat (restTally opts) 0 m.zero_le
  rw [Nat.add_zero, Nat.add_zero] at hfirst
  rw [h.book hm, h'.book hm, hsum, hfirst, hat _ m le_rfl]

/-- Exact accounting by blocks, and its locality: nothing outside the blocks of the region matters. -/
theorem block_accounting (hm : opts.merged = false) {xs : List (Execution τ ι)} {j s e : ℕ}
    (h : BlockRoi opts build xs j s e) :
    s < e ∧
      (∃ p, (finalPoints opts (blockEvents opts build .afterCleanCall xs))[j]? = some p ∧
        (p.flops.toNat : ℤ) =
          (∑ k ∈ Finset.Ioc s e, atBlock (fun x => (x.fpCount build).toInt) xs k) % 2 ^ 64 ∧
        p.bytes.toNat =
          (atBlock (fun x => bytesOf (x.restRefs opts)) xs s +
            ∑ k ∈ Finset.Ioo s e, atBlock (fun x => bytesOf (x.firstRefs opts ++ x.restRefs opts)) xs k +
            atBlock (fun x => bytesOf (x.firstRefs opts)) xs e) % 2 ^ 64) ∧
      ∀ (ys : List (Execution τ ι)) (i s' e' : ℕ), BlockRoi opts build ys i s' e' → e' - s' = e - s →
        (∀ k ≤ e - s, ys[s' + k]? = xs[s + k]?) → ∀ p q,
          (finalPoints opts (blockEvents opts build .afterCleanCall xs))[j]? = some p →
          (finalPoints opts (blockEvents opts build .afterCleanCall ys))[i]? = some q →
          q.flops = p.flops ∧ q.bytes = p.bytes := by
  have hse := (h.region hm).1
  obtain ⟨p, hp, hold⟩ := h.point hm
  refine ⟨hse, ⟨p, hp, ?_, ?_⟩, fun ys i s' e' h' hlen hsame p' q hp' hq => ?_⟩
  · rw [hold.flops, toNat_ofInt, h.book hm, ← Finset.Ioo_insert_right hse, Finset.sum_insert (by simp)]
    simp only [Tally.flops_add, Tally.flops_sum, headTally_amounts, restTally_amounts, zero_add,
      add_comm]
  · rw [hold.bytes, UInt64.toNat_ofNat', h.book hm]
    have happ (k : ℕ) : atBlock (fun x => bytesOf (x.firstRefs opts ++ x.restRefs opts)) xs k =
        atBlock (fun x => bytesOf (x.firstRefs opts)) xs k +
          atBlock (fun x => bytesOf (x.restRefs opts)) xs k := by
      unfold atBlock
      cases xs[k]? <;> simp [bytesOf]
    simp only [Tally.bytes_add, Tally.bytes_sum, headTally_amounts, restTally_amounts, happ]
  · obtain rfl := Option.some.inj (hp.symm.trans hp')
    obtain ⟨q', hq', hold'⟩ := h'.point hm
    obtain rfl := Option.some.inj (hq.symm.trans hq')
    rw [h.book_congr opts build hm h' hlen hsame] at hold'
    exact ⟨hold'.flops.trans hold.flops.symm, hold'.bytes.trans hold.bytes.symm⟩

/-- A block of two loads of eight bytes, with the given number of operations. -/
def loadBlock (fp : ℕ) : List (Instr ℕ) :=
  [⟨true, true, false, 8, false, fp⟩, ⟨true, true, false, 8, false, 0⟩]

def loadRun : List (Execution ℕ ℕ) :=
  [⟨loadBlock 1, none⟩, ⟨loadBlock 2, some ⟨.roiInit ⟨"a", 1, "f.c"⟩ 0, rfl⟩⟩, ⟨loadBlock 3, none⟩,
    ⟨loadBlock 4, some ⟨.roiEnd ⟨"a", 2, "f.c"⟩ 0, rfl⟩⟩, ⟨loadBlock 5, none⟩]

theorem block_accounting_loadRun :
    ∃ p, (finalPoints {} (blockEvents {} ⟨false, UInt32.ofNat⟩ .afterCleanCall loadRun))[0]? = some p ∧
      (p.flops.toNat : ℤ) = 7 ∧ p.bytes.toNat = 32 := by
  have hroi : BlockRoi {} ⟨false, UInt32.ofNat⟩ loadRun 0 1 3 :=
    ⟨by simp [loadRun, loadBlock, Execution.HeadCalled], by decide, rfl, rfl⟩
  obtain ⟨-, ⟨p, hp, hf, hb⟩, -⟩ := block_accounting {} ⟨false, UInt32.ofNat⟩ rfl hroi
  exact ⟨p, hp, hf, hb⟩

end accounting
end Roofline.Correctness
