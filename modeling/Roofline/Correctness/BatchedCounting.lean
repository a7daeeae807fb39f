import Roofline.Client.Instrumentation
import Roofline.Correctness.Simulation

/-! Counting by blocks. The operations of a block are added up when it is instrumented and
reach the current point with the clean call at its head, if there is one. -/
namespace Roofline.Correctness
open Client
variable {τ ι : Type}

/-- What counting instruction by instruction gives for one execution of a block. -/
def blockOps (build : Build ι) (bb : List (Instr ι)) : ℕ :=
  ((bb.filter (·.isApp)).map fun i => (build.countFpInstr i.op).toNat).sum

/-- The head of the block is an exclusive store of an Arm target. -/
def exclusiveHead (build : Build ι) (bb : List (Instr ι)) : Bool :=
  bb.head?.any fun i => build.aarchxx && i.isExclusiveStore

def plainExecution (bb : List (Instr ι)) : Execution τ ι := ⟨bb, none⟩

section block
variable (opts : Options) (build : Build ι) (order : WrapOrder)

private theorem toNat_foldl_add {α : Type} (f : α → UInt32) (xs : List α) (c : UInt32) :
    (xs.foldl (fun count x => count + f x) c).toNat =
      (c.toNat + (xs.map fun x => (f x).toNat).sum) % 2 ^ 32 := by
  induction xs generalizing c with
  | nil =>
    have := c.toNat_lt
    simp [Nat.mod_eq_of_lt this]
  | cons x xs ih =>
    rw [List.foldl_cons, ih, UInt32.toNat_add, List.map_cons, List.sum_cons]
    omega

private theorem toNat_fpInstrCount (bb : List (Instr ι)) :
    (fpInstrCount build bb).toNat = blockOps build bb % 2 ^ 32 := by
  have hfold := toNat_foldl_add (fun i : Instr ι => build.countFpInstr i.op) (bb.filter (·.isApp)) 0
  rw [UInt32.toNat_zero, zero_add] at hfold
  exact hfold

/-- Below 2^31 the conversion to an int keeps the count. -/
theorem toInt_fpInstrCount {bb : List (Instr ι)} (h : blockOps build bb < 2 ^ 31) :
    (fpInstrCount build bb).toInt32.toInt = blockOps build bb := by
  have hcount := toNat_fpInstrCount build bb
  rw [Nat.mod_eq_of_lt (by omega)] at hcount
  generalize fpInstrCount build bb = c at *
  have hof : c.toInt32 = Int32.ofNat c.toNat := by
    apply Int32.toBitVec_inj.mp
    simp
  rw [hof, Int32.toInt_ofNat_of_lt (by omega), hcount]

private theorem quiet_plainExecution {bb : List (Instr ι)} {ev : Event τ}
    (hev : ev ∈ (plainExecution bb).events opts build order) : ev.isCallback = false := by
  rw [Bool.eq_false_iff]
  intro hcb
  have hmem := List.mem_filter.mpr ⟨hev, hcb⟩
  rw [Execution.filter_events] at hmem
  cases hmem

/-- What the events of a block deliver: all of its count or nothing. -/
theorem fpCount_plainExecution (ht : opts.timeRun = false) {bb : List (Instr ι)} (hne : bb ≠ [])
    (happ : ∀ i ∈ bb, i.isApp = true) (hfew : blockOps build bb < 2 ^ 31) :
    (((plainExecution bb : Execution τ ι).events opts build order).map Event.fpCount).sum =
      if exclusiveHead build bb = true then 0 else (blockOps build bb : ℤ) := by
  obtain ⟨i, rest, rfl⟩ := List.exists_cons_of_ne_nil hne
  have hrefs (refs : List MemRef) : ((refs.map (.saveRef : MemRef → Event τ)).map Event.fpCount).sum = 0 := by
    induction refs with
    | nil => rfl
    | cons r refs ih => simpa [Event.fpCount] using ih
  have happend : ((appendCode (τ := τ) opts i).map Event.fpCount).sum = 0 := by
    unfold appendCode
    split_ifs
    · rfl
    · rfl
  have hclean : ((cleanCallCode (τ := τ) build (i :: rest) i).map Event.fpCount).sum =
      if exclusiveHead build (i :: rest) = true then 0 else (blockOps build (i :: rest) : ℤ) := by
    rw [cleanCallCode, happ i (by simp), exclusiveHead, List.head?_cons, Option.any_some]
    cases build.aarchxx && i.isExclusiveStore with
    | true => rfl
    | false => simp [Event.fpCount, toInt_fpInstrCount build hfew]
  rw [Execution.events_cons ht rfl order]
  cases order <;>
    simp only [plainExecution, Execution.callbacks, Option.map_none, Option.toList_none,
      List.append_nil, List.nil_append, List.map_append, List.sum_append, happend, hrefs, hclean,
      zero_add, add_zero]

end block

private theorem ofInt_natCast (n : ℕ) : UInt64.ofInt n = UInt64.ofNat n := by
  apply UInt64.toNat_inj.mp
  have hint := toNat_ofInt n
  rw [UInt64.toNat_ofNat']
  omega

section run
variable [Zero τ] (opts : Options)

/-- Inside a region every clean call adds its count to the current point. -/
theorem flops_foldl_quiet {σ : ClientState τ} (hroi : σ.inRoi = true) (es : List (Event τ))
    (hes : ∀ ev ∈ es, ev.isCallback = false) :
    (es.foldl (step opts) σ).inRoi = true ∧
      (es.foldl (step opts) σ).data.curPoint.flops =
        σ.data.curPoint.flops + UInt64.ofInt (es.map Event.fpCount).sum := by
  induction es generalizing σ with
  | nil =>
    have hzero : UInt64.ofInt 0 = 0 := rfl
    simp [hroi, hzero]
  | cons ev es ih =>
    have hstep : (step opts σ ev).inRoi = true ∧ (step opts σ ev).data.curPoint.flops =
        σ.data.curPoint.flops + UInt64.ofInt ev.fpCount := by
      have hev := hes ev (by simp)
      cases ev with
      | roiInit cxt now => cases hev
      | roiEnd cxt now => cases hev
      | saveRef r =>
        have hzero : UInt64.ofInt 0 = 0 := rfl
        simp [step_saveRef, Event.fpCount, hroi, hzero]
      | cleanCall n =>
        rw [step_cleanCall]
        simp [hroi, Point.drained, Point.updateFpCount, Event.fpCount]
    obtain ⟨hin, hflops⟩ := ih hstep.1 fun ev' hev' => hes ev' (by simp [hev'])
    refine ⟨hin, ?_⟩
    rw [List.foldl_cons, hflops, hstep.2, List.map_cons, List.sum_cons, UInt64.ofInt_add, add_assoc]

/-- The increase over a run of blocks is what the blocks with a clean call deliver. -/
theorem flops_blocks (build : Build ι) (order : WrapOrder) (ht : opts.timeRun = false)
    {σ : ClientState τ} (hroi : σ.inRoi = true) (blocks : List (List (Instr ι)))
    (hne : ∀ bb ∈ blocks, bb ≠ []) (happ : ∀ bb ∈ blocks, ∀ i ∈ bb, i.isApp = true)
    (hfew : ∀ bb ∈ blocks, blockOps build bb < 2 ^ 31) :
    ((blockEvents opts build order (blocks.map plainExecution)).foldl (step opts) σ).data.curPoint.flops =
      σ.data.curPoint.flops +
        UInt64.ofNat ((blocks.filter fun bb => !exclusiveHead build bb).map (blockOps build)).sum := by
  have hquiet : ∀ ev ∈ blockEvents opts build order (blocks.map (plainExecution (τ := τ))),
      ev.isCallback = false := by
    intro ev hev
    rw [blockEvents, List.flatMap_map, List.mem_flatMap] at hev
    obtain ⟨bb, -, hev⟩ := hev
    exact quiet_plainExecution opts build order hev
  have hsum : ((blockEvents opts build order (blocks.map (plainExecution (τ := τ)))).map
      Event.fpCount).sum =
        (((blocks.filter fun bb => !exclusiveHead build bb).map (blockOps build)).sum : ℕ) := by
    clear hquiet
    induction blocks with
    | nil => rfl
    | cons bb blocks ih =>
      have hhead := fpCount_plainExecution (τ := τ) opts build order ht (hne bb (by simp))
        (happ bb (by simp)) (hfew bb (by simp))
      have ih := ih (fun b hb => hne b (by simp [hb])) (fun b hb => happ b (by simp [hb]))
        fun b hb => hfew b (by simp [hb])
      rw [blockEvents, List.map_cons, List.flatMap_cons, List.map_append, List.sum_append, hhead,
        ← blockEvents, ih]
      cases hx : exclusiveHead build bb <;> simp [hx]
  rw [(flops_foldl_quiet opts hroi _ hquiet).2, hsum, ofInt_natCast]

/-- Counting by blocks loses exactly the operations of the blocks without a clean call. -/
theorem batched_iff (build : Build ι) (order : WrapOrder) (ht : opts.timeRun = false)
    (σ : ClientState τ) (hroi : σ.inRoi = true) (blocks : List (List (Instr ι)))
    (hne : ∀ bb ∈ blocks, bb ≠ []) (happ : ∀ bb ∈ blocks, ∀ i ∈ bb, i.isApp = true)
    (hfew : ∀ bb ∈ blocks, blockOps build bb < 2 ^ 31) :
    (((blockEvents opts build order (blocks.map plainExecution)).foldl (step opts) σ).data.curPoint.flops -
        σ.data.curPoint.flops).toNat = (blocks.map (blockOps build)).sum % 2 ^ 64 ↔
      ((blocks.filter (exclusiveHead build)).map (blockOps build)).sum % 2 ^ 64 = 0 := by
  have hsplit : (blocks.map (blockOps build)).sum =
      ((blocks.filter (exclusiveHead build)).map (blockOps build)).sum +
        ((blocks.filter fun bb => !exclusiveHead build bb).map (blockOps build)).sum := by
    clear hne happ hfew
    induction blocks with
    | nil => rfl
    | cons bb blocks ih =>
      cases hx : exclusiveHead build bb <;> simp [hx, ih] <;> omega
  rw [flops_blocks opts build order ht hroi blocks hne happ hfew, add_sub_cancel_left,
    UInt64.toNat_ofNat', hsplit]
  omega

end run

/-- A compare-and-swap loop: the block that it returns to begins with the exclusive store. -/
def swapLoop : List (List (Instr ℕ)) :=
  [[⟨true, true, false, 8, false, 1⟩], [⟨true, false, true, 8, true, 0⟩, ⟨true, false, false, 0, false, 2⟩]]

def insideRoi : ClientState ℕ := { ClientState.init with inRoi := true }

/-- A loop whose exclusive store begins a block without operations. -/
def spinLoop : List (List (Instr ℕ)) :=
  [[⟨true, true, false, 8, false, 1⟩], [⟨true, false, true, 8, true, 0⟩], [⟨true, false, false, 0, false, 2⟩]]

theorem batched_iff_swapLoop :
    ((((blockEvents {} ⟨true, UInt32.ofNat⟩ .afterCleanCall (swapLoop.map plainExecution)).foldl
        (step {}) insideRoi).data.curPoint.flops - insideRoi.data.curPoint.flops).toNat =
          (swapLoop.map (blockOps ⟨true, UInt32.ofNat⟩)).sum % 2 ^ 64 ↔
      ((swapLoop.filter (exclusiveHead ⟨true, UInt32.ofNat⟩)).map
        (blockOps ⟨true, UInt32.ofNat⟩)).sum % 2 ^ 64 = 0) ∧
    (((blockEvents {} ⟨true, UInt32.ofNat⟩ .afterCleanCall (spinLoop.map plainExecution)).foldl
        (step {}) insideRoi).data.curPoint.flops - insideRoi.data.curPoint.flops).toNat =
          (spinLoop.map (blockOps ⟨true, UInt32.ofNat⟩)).sum % 2 ^ 64 := by
  constructor
  · exact batched_iff {} ⟨true, UInt32.ofNat⟩ .afterCleanCall rfl insideRoi rfl swapLoop
      (by decide) (by decide) (by decide)
  · have hiff := batched_iff {} ⟨true, UInt32.ofNat⟩ .afterCleanCall rfl insideRoi rfl spinLoop
      (by decide) (by decide) (by decide)
    exact hiff.mpr (by decide)

/-- The two operations behind the exclusive store are lost. -/
theorem swapLoop_not_counted :
    (((blockEvents {} ⟨true, UInt32.ofNat⟩ .afterCleanCall (swapLoop.map plainExecution)).foldl
        (step {}) insideRoi).data.curPoint.flops - insideRoi.data.curPoint.flops).toNat ≠
          (swapLoop.map (blockOps ⟨true, UInt32.ofNat⟩)).sum % 2 ^ 64 := by
  decide

end Roofline.Correctness
