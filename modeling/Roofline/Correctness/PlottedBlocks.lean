import Roofline.Correctness.BlockAccounting
import Roofline.Correctness.RecordedPoints

/-! From the executed blocks to the plot: a point stands where the instructions of its region put it. -/
namespace Roofline.Correctness
open Client Library Library.Xml Report
variable {τ ι F : Type}

/-- The operations of the blocks behind block s up to block e. -/
def blockFlops (build : Build ι) (xs : List (Execution τ ι)) (s e : ℕ) : ℤ :=
  ∑ k ∈ Finset.Ioc s e, atBlock (fun x => (x.fpCount build).toInt) xs k

/-- The bytes from the second instruction of block s up to the first one of block e. -/
def blockBytes (opts : Options) (xs : List (Execution τ ι)) (s e : ℕ) : ℕ :=
  atBlock (fun x => bytesOf (x.restRefs opts)) xs s +
    ∑ k ∈ Finset.Ioo s e, atBlock (fun x => bytesOf (x.firstRefs opts ++ x.restRefs opts)) xs k +
    atBlock (fun x => bytesOf (x.firstRefs opts)) xs e

section region
variable {opts : Options} {build : Build ι} {xs : List (Execution τ ι)} {j s e : ℕ}

theorem BlockRoi.amounts (h : BlockRoi opts build xs j s e) (hm : opts.merged = false) :
    ((Ledger.run (entries opts (blockEvents opts build .afterCleanCall xs))).book j).flops = blockFlops build xs s e ∧
      ((Ledger.run (entries opts (blockEvents opts build .afterCleanCall xs))).book j).bytes =
        blockBytes opts xs s e := by
  have hse := (h.region hm).1
  have happ (k : ℕ) : atBlock (fun x => bytesOf (x.firstRefs opts ++ x.restRefs opts)) xs k =
      atBlock (fun x => bytesOf (x.firstRefs opts)) xs k + atBlock (fun x => bytesOf (x.restRefs opts)) xs k := by
    unfold atBlock
    cases xs[k]? <;> simp [bytesOf]
  constructor
  · rw [h.book hm, blockFlops, ← Finset.Ioo_insert_right hse, Finset.sum_insert (by simp)]
    simp only [Tally.flops_add, Tally.flops_sum, headTally_amounts, restTally_amounts, zero_add, add_comm]
  · rw [h.book hm, blockBytes]
    simp only [Tally.bytes_add, Tally.bytes_sum, headTally_amounts, restTally_amounts, happ]

variable [Zero τ]

/-- What counts for a region is what its blocks execute. -/
theorem BlockRoi.counted (h : BlockRoi opts build xs j s e) (hm : opts.merged = false) :
    (countedFlops opts (blockEvents opts build .afterCleanCall xs) j % 2 ^ 64).toNat =
        (blockFlops build xs s e % 2 ^ 64).toNat ∧
      drainedBytes opts (blockEvents opts build .afterCleanCall xs) j % 2 ^ 64 = blockBytes opts xs s e % 2 ^ 64 := by
  obtain ⟨p, hp, hold⟩ := h.point hm
  obtain ⟨hflops, hbytes⟩ := h.amounts hm
  constructor
  · rw [← flops_counted hp, hold.flops, hflops, ← toNat_ofInt, Int.toNat_natCast]
  · rw [← bytes_drained hp, hold.bytes, hbytes, UInt64.toNat_ofNat']

/-- There is a point for each region that ends. -/
theorem length_blocks (hm : opts.merged = false) (hcalled : ∀ x ∈ xs, x.HeadCalled opts build)
    (halt : Alternating false (callbacksOf xs)) :
    (finalPoints opts (blockEvents opts build .afterCleanCall xs)).length = (endBlocks xs).length ∧
      (endBlocks xs).length ≤ (startBlocks xs).length := by
  have halternates := alternates_blockLedger opts .afterCleanCall (fun _ => headTally opts build)
    (fun _ => restTally opts) xs hm halt
  have hrecorded := (Ledger.recorded_run _ halternates).1
  have hclosed := hrecorded.closed
  have hopened := hrecorded.opened
  rw [(stamps_blockLedger opts _ _ hm xs).2, List.length_map] at hclosed hopened
  rw [(stamps_blockLedger opts _ _ hm xs).1, List.length_map] at hopened
  rw [← run_blockEvents opts build .afterCleanCall xs hcalled] at hclosed
  have hlength := (refines_run opts (blockEvents opts build .afterCleanCall xs)).closed.length_eq
  constructor
  · rw [finalPoints_eq, hm, if_neg Bool.false_ne_true, List.append_nil, hclosed, hlength]
  · omega

/-- Every point is that of a region of blocks. -/
theorem exists_blockRoi (hm : opts.merged = false) (hcalled : ∀ x ∈ xs, x.HeadCalled opts build)
    (halt : Alternating false (callbacksOf xs))
    (hj : j < (finalPoints opts (blockEvents opts build .afterCleanCall xs)).length) :
    ∃ s e, BlockRoi opts build xs j s e := by
  have hstarts := (length_blocks hm hcalled halt).2
  rw [(length_blocks hm hcalled halt).1] at hj
  exact ⟨_, _, hcalled, halt, List.getElem?_eq_getElem (hj.trans_le hstarts), List.getElem?_eq_getElem hj⟩

end region

section plot
variable [Zero τ] [Sub τ] {opts opts' : Options} {build : Build ι} {xs : List (Execution τ ι)} {fmtF : τ → String}
  {py : Python F} {es' : List (Event τ)}

/-- From the executed code to the plot. When report makes points of a run of blocks, and of the times of a second run,
is decided by what their files say; where labels and file names are read back as they are, there must be at most five
inputs, the blocks of every region must access some bytes, the names must be distinct and no time may be read as zero.
There is then a point for each region that ends, and it stands where the blocks of the region put it. -/
theorem plotted_blocks (hm : opts.merged = false) (hcalled : ∀ x ∈ xs, x.HeadCalled opts build)
    (halt : Alternating false (callbacksOf xs))
    (h : PairedRuns py fmtF opts opts' (blockEvents opts build .afterCleanCall xs) es') (hfind : NoAsserts py)
    (colourN : ℤ) (name : String) :
    ((∃ Ps, py.getPoints colourN name (outputFile opts fmtF (blockEvents opts build .afterCleanCall xs))
        (outputFile opts' fmtF es') = .ok Ps) ↔
      colourN ≤ 5 ∧ Complete py (outputFile opts fmtF (blockEvents opts build .afterCleanCall xs))
        (outputFile opts' fmtF es')) ∧
    ((∀ p ∈ finalPoints opts (blockEvents opts build .afterCleanCall xs), ReadablePoint p) →
      ((∃ Ps, py.getPoints colourN name (outputFile opts fmtF (blockEvents opts build .afterCleanCall xs))
          (outputFile opts' fmtF es') = .ok Ps) ↔
        colourN ≤ 5 ∧ (∀ j s e, BlockRoi opts build xs j s e → blockBytes opts xs s e % 2 ^ 64 ≠ 0) ∧
          (readNames (finalPoints opts (blockEvents opts build .afterCleanCall xs))).Nodup ∧
          ∀ t ∈ finalPoints opts' es', ∀ x, py.float (fmtF t.elapsed) = some x → py.isZero x = false) ∧
      ∀ Ps, py.getPoints colourN name (outputFile opts fmtF (blockEvents opts build .afterCleanCall xs))
          (outputFile opts' fmtF es') = .ok Ps →
        Ps.length = (endBlocks xs).length ∧
        ∀ (j s e : ℕ) (P : Report.Point F) (t : Client.Point τ), Ps[j]? = some P →
          (finalPoints opts' es')[j]? = some t → BlockRoi opts build xs j s e →
            Placed py (blockFlops build xs s e % 2 ^ 64).toNat (blockBytes opts xs s e % 2 ^ 64)
              (fmtF t.elapsed) P) := by
  refine ⟨getPoints_returns_iff hfind colourN name, fun hreadable => ?_⟩
  have hruns : ReadableRuns py fmtF opts opts' (blockEvents opts build .afterCleanCall xs) es' := ⟨h, hreadable⟩
  have hbytes : (∀ k < (finalPoints opts (blockEvents opts build .afterCleanCall xs)).length,
        drainedBytes opts (blockEvents opts build .afterCleanCall xs) k % 2 ^ 64 ≠ 0) ↔
      ∀ j s e, BlockRoi opts build xs j s e → blockBytes opts xs s e % 2 ^ 64 ≠ 0 := by
    constructor
    · intro hall j s e hroi
      have hj : j < (endBlocks xs).length := (List.getElem?_eq_some_iff.mp hroi.stop).1
      rw [← (hroi.counted hm).2]
      exact hall j ((length_blocks hm hcalled halt).1 ▸ hj)
    · intro hall k hk
      obtain ⟨s, e, hroi⟩ := exists_blockRoi hm hcalled halt hk
      rw [(hroi.counted hm).2]
      exact hall k s e hroi
  rw [hruns.getPoints_iff, ← hbytes]
  refine ⟨⟨fun hc => ⟨hc.1, hc.2.drained, hc.2.names, hc.2.timed⟩, fun hc => ⟨hc.1, hc.2.1, hc.2.2.1, hc.2.2.2⟩⟩,
    fun Ps hPs => ?_⟩
  obtain ⟨hlabels, hplaced⟩ := hruns.getPoints_placed hPs
  constructor
  · have hlength := congrArg List.length hlabels
    rw [List.length_map, readNames, List.length_map, length_outputNames] at hlength
    rw [hlength, (length_blocks hm hcalled halt).1]
  · intro j s e P t hP ht hroi
    rw [← (hroi.counted hm).1, ← (hroi.counted hm).2]
    exact hplaced j P t hP ht

end plot

def timedLoadRun : List (Event ℕ) := [.roiInit ⟨"a", 1, "f.c"⟩ 1, .roiEnd ⟨"a", 2, "f.c"⟩ 4]

private theorem readablePoint_loadRun :
    ∀ p ∈ finalPoints {} (blockEvents {} ⟨false, UInt32.ofNat⟩ .afterCleanCall loadRun),
    ReadablePoint p := by
  have hstrings : ∀ p ∈ finalPoints {} (blockEvents {} ⟨false, UInt32.ofNat⟩ .afterCleanCall loadRun),
      p.label = "a" ∧ p.srcFileStart = "f.c" ∧ p.srcFileEnd = "f.c" := by decide
  have hlabel : PlainValue "a".toList := ⟨by decide, by decide, by decide⟩
  have hfile : PlainContent "f.c".toList := ⟨by decide, by decide, by decide⟩
  intro p hp
  obtain ⟨h, hstart, hend⟩ := hstrings p hp
  exact ⟨⟨h ▸ hlabel, hstart ▸ hfile, hend ▸ hfile⟩, h ▸ by decide, h ▸ by decide, hstart ▸ by decide,
    hend ▸ by decide⟩

theorem plotted_blocks_loadRun : ∃ Ps P,
    exactPython.getPoints 1 "app" (outputFile {} wholeSeconds
        (blockEvents {} ⟨false, UInt32.ofNat⟩ .afterCleanCall loadRun))
      (outputFile timeOptions wholeSeconds timedLoadRun) = .ok Ps ∧ Ps[0]? = some P ∧
      Placed exactPython 7 32 (wholeSeconds 3) P := by
  have hroi : BlockRoi {} ⟨false, UInt32.ofNat⟩ loadRun 0 1 3 :=
    ⟨by simp [loadRun, loadBlock, Execution.HeadCalled], by decide, rfl, rfl⟩
  have hpaired : PairedRuns exactPython wholeSeconds {} timeOptions
      (blockEvents {} ⟨false, UInt32.ofNat⟩ .afterCleanCall loadRun) timedLoadRun :=
    ⟨⟨rfl, rfl, rfl, rfl⟩, rfl, rfl, rfl, readsNumerals_exactPython, readsTimes_wholeSeconds⟩
  have hok : (exactPython.getPoints 1 "app" (outputFile {} wholeSeconds
        (blockEvents {} ⟨false, UInt32.ofNat⟩ .afterCleanCall loadRun))
      (outputFile timeOptions wholeSeconds timedLoadRun)).isOk = true := by
    rw [Python.getPoints, parse_eq, parse_eq]
    decide +kernel
  obtain ⟨-, hreport⟩ := (plotted_blocks rfl hroi.called hroi.alternating hpaired noAsserts_exactPython 1 "app").2
    readablePoint_loadRun
  cases hPs : exactPython.getPoints 1 "app" (outputFile {} wholeSeconds
      (blockEvents {} ⟨false, UInt32.ofNat⟩ .afterCleanCall loadRun))
    (outputFile timeOptions wholeSeconds timedLoadRun) with
  | error e =>
    rw [hPs] at hok
    cases hok
  | ok Ps =>
    obtain ⟨hlength, hplaced⟩ := hreport Ps hPs
    have hone : 0 < Ps.length := hlength ▸ by decide
    obtain ⟨P, hP⟩ : ∃ P, Ps[0]? = some P := ⟨_, List.getElem?_eq_getElem hone⟩
    have htime : ∃ t, (finalPoints timeOptions timedLoadRun)[0]? = some t ∧ t.elapsed = 3 := ⟨_, rfl, rfl⟩
    obtain ⟨t, ht, helapsed⟩ := htime
    have hpoint := hplaced 0 1 3 P t hP ht hroi
    rw [helapsed] at hpoint
    exact ⟨Ps, P, rfl, hP, hpoint⟩

end Roofline.Correctness
