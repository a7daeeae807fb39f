import Roofline.Client.CountFpX86
import Roofline.Correctness.BatchedCounting
import Roofline.Correctness.PlottedBlocks
import Mathlib.Algebra.BigOperators.Ring.Finset

/-! Counting on x86: the operations of a point are the listed instructions that its region executes, one each. -/
namespace Roofline.Correctness
open Client
variable {τ ι : Type}

def isListed : X86.Opcode → Bool
  | .listed _ => true
  | .other _ => false

/-- The listed ones among the application instructions of a block. -/
def listedInstrs (bb : List (Instr X86.Opcode)) : ℕ := (bb.filter (·.isApp)).countP fun i => isListed i.op

def plainInstr (op : X86.Opcode) : Instr X86.Opcode := ⟨true, false, false, 0, false, op⟩

section counts
variable {opts : Options} {xs : List (Execution τ X86.Opcode)}

private theorem toNat_countFpInstr (op : X86.Opcode) : (X86.countFpInstr op).toNat = (isListed op).toNat := by
  cases op with
  | listed opc => rfl
  | other opc => rfl

private theorem blockOps_x86 (bb : List (Instr X86.Opcode)) : blockOps X86.x86Build bb = listedInstrs bb := by
  unfold blockOps listedInstrs
  induction bb.filter (·.isApp) with
  | nil => rfl
  | cons i is ih =>
    rw [List.map_cons, List.sum_cons, ih, List.countP_cons, X86.x86Build, toNat_countFpInstr]
    cases isListed i.op
    · exact Nat.zero_add _
    · exact Nat.add_comm _ _

private theorem listedInstrs_le (bb : List (Instr X86.Opcode)) : listedInstrs bb ≤ bb.length :=
  List.countP_le_length.trans (List.length_filter_le _ _)

/-- On x86 a clean call stands at the head of every block that begins with an instruction of the application. -/
theorem headCalled_x86 {x : Execution τ X86.Opcode} (ht : opts.timeRun = false)
    (hhead : x.block.head?.any (·.isApp) = true) : x.HeadCalled opts X86.x86Build := by
  obtain ⟨i, hi, happ⟩ := Option.any_eq_true _ _ |>.mp hhead
  exact ⟨ht, i, hi, happ, rfl⟩

private theorem blockFlops_x86 (hshort : ∀ x ∈ xs, x.block.length < 2 ^ 31) (s e : ℕ) :
    blockFlops X86.x86Build xs s e =
      (∑ k ∈ Finset.Ioc s e, atBlock (fun x => listedInstrs x.block) xs k : ℕ) := by
  rw [blockFlops, Nat.cast_sum]
  refine Finset.sum_congr rfl fun k _ => ?_
  unfold atBlock
  rcases hx : xs[k]? with _ | x
  · rfl
  · have hfew : blockOps X86.x86Build x.block < 2 ^ 31 := by
      rw [blockOps_x86]
      exact (listedInstrs_le _).trans_lt (hshort x (List.mem_of_getElem? hx))
    have hcount := toInt_fpInstrCount X86.x86Build hfew
    rw [blockOps_x86] at hcount
    exact hcount

variable [Zero τ]

/-- Every point of an x86 client: as many operations as listed instructions in the blocks behind the first up to the
last block of its region, whatever these instructions compute. -/
theorem x86_points (ht : opts.timeRun = false) (hm : opts.merged = false)
    (hheads : ∀ x ∈ xs, x.block.head?.any (·.isApp) = true) (hshort : ∀ x ∈ xs, x.block.length < 2 ^ 31)
    (halt : Alternating false (callbacksOf xs)) :
    (finalPoints opts (blockEvents opts X86.x86Build .afterCleanCall xs)).length = (endBlocks xs).length ∧
      ∀ (j s e : ℕ) (p : Client.Point τ), (startBlocks xs)[j]? = some s → (endBlocks xs)[j]? = some e →
        (finalPoints opts (blockEvents opts X86.x86Build .afterCleanCall xs))[j]? = some p →
        p.flops.toNat = (∑ k ∈ Finset.Ioc s e, atBlock (fun x => listedInstrs x.block) xs k) % 2 ^ 64 := by
  have hcalled (x : Execution τ X86.Opcode) (hx : x ∈ xs) := headCalled_x86 ht (hheads x hx)
  refine ⟨(length_blocks hm hcalled halt).1, fun j s e p hs he hp => ?_⟩
  have hroi : BlockRoi opts X86.x86Build xs j s e := ⟨hcalled, halt, hs, he⟩
  obtain ⟨p', hp', hold⟩ := hroi.point hm
  obtain rfl := Option.some.inj (hp.symm.trans hp')
  have hflops := toNat_ofInt (blockFlops X86.x86Build xs s e)
  rw [← (hroi.amounts hm).1, ← hold.flops, (hroi.amounts hm).1, blockFlops_x86 hshort] at hflops
  exact_mod_cast hflops

/-- Blocks of instructions without references; the region goes from the second block to the fifth one. -/
def fusedRun : List (Execution ℕ X86.Opcode) :=
  [⟨[.listed .addss].map plainInstr, none⟩,
    ⟨[.listed .addpd, .other 7].map plainInstr, some ⟨.roiInit ⟨"fma", 3, "x.c"⟩ 0, rfl⟩⟩,
    ⟨[.listed .vfmadd231pd, .other 3, .listed .mulsd].map plainInstr, none⟩,
    ⟨[.other 1].map plainInstr, none⟩,
    ⟨[.listed .divsd, .listed .fxch].map plainInstr, some ⟨.roiEnd ⟨"fma", 8, "x.c"⟩ 0, rfl⟩⟩]

/-- A fused operation on the four lanes of a register is one operation, and so is an exchange of two registers. -/
theorem x86_points_fusedRun :
    ∃ p, (finalPoints {} (blockEvents {} X86.x86Build .afterCleanCall fusedRun))[0]? = some p ∧ p.flops.toNat = 4 := by
  have hheads : ∀ x ∈ fusedRun, x.block.head?.any (·.isApp) = true := by simp [fusedRun, plainInstr]
  have hshort : ∀ x ∈ fusedRun, x.block.length < 2 ^ 31 := by simp [fusedRun]
  obtain ⟨-, hpoints⟩ := x86_points (rfl : Options.timeRun {} = false) rfl hheads hshort rfl
  obtain ⟨p, hp⟩ : ∃ p, (finalPoints {} (blockEvents {} X86.x86Build .afterCleanCall fusedRun))[0]? = some p := ⟨_, rfl⟩
  exact ⟨p, hp, hpoints 0 1 4 p rfl rfl hp⟩

end counts

section recoding

def recodeInstr (f : ι → ι) (i : Instr ι) : Instr ι := { i with op := f i.op }

def recode (f : ι → ι) (x : Execution τ ι) : Execution τ ι := { x with block := x.block.map (recodeInstr f) }

variable {f : ι → ι} {build : Build ι} (hf : ∀ op, build.countFpInstr (f op) = build.countFpInstr op)
include hf

private theorem fpInstrCount_recode (bb : List (Instr ι)) :
    fpInstrCount build (bb.map (recodeInstr f)) = fpInstrCount build bb := by
  have happ : (fun i : Instr ι => i.isApp) ∘ recodeInstr f = fun i => i.isApp := rfl
  have hcount : (fun i : Instr ι => build.countFpInstr (recodeInstr f i).op) = fun i => build.countFpInstr i.op :=
    funext fun i => hf i.op
  unfold fpInstrCount
  rw [List.filter_map, happ, List.foldl_map]
  exact congrArg (fun g => (bb.filter (·.isApp)).foldl (fun count i => count + g i) 0) hcount

private theorem cleanCallCode_recode (bb : List (Instr ι)) (i : Instr ι) :
    cleanCallCode (τ := τ) build (bb.map (recodeInstr f)) (recodeInstr f i) = cleanCallCode build bb i := by
  unfold cleanCallCode
  rw [fpInstrCount_recode hf]
  rfl

private theorem eventAppInstruction_recode (opts : Options) (bb : List (Instr ι)) (k : ℕ) (i : Instr ι) :
    eventAppInstruction (τ := τ) opts build (bb.map (recodeInstr f)) k (recodeInstr f i) =
      eventAppInstruction opts build bb k i := by
  unfold eventAppInstruction
  rw [cleanCallCode_recode hf]
  rfl

private theorem events_recode (opts : Options) (order : WrapOrder) (x : Execution τ ι) :
    (recode f x).events opts build order = x.events opts build order := by
  rcases x with ⟨_ | ⟨i, rest⟩, callback⟩
  · rfl
  · have hrest (is : List (Instr ι)) : ((is.map (recodeInstr f)).zipIdx 1).flatMap (fun (p : Instr ι × ℕ) =>
          eventAppInstruction (τ := τ) opts build ((i :: rest).map (recodeInstr f)) p.2 p.1) =
        (is.zipIdx 1).flatMap fun p => eventAppInstruction opts build (i :: rest) p.2 p.1 := by
      rw [List.zipIdx_map, List.flatMap_map]
      exact congrArg (fun g => (is.zipIdx 1).flatMap g)
        (funext fun p => eventAppInstruction_recode hf opts (i :: rest) p.2 p.1)
    have hhead := eventAppInstruction_recode (τ := τ) hf opts (i :: rest) 0 i
    have hclean := cleanCallCode_recode (τ := τ) hf (i :: rest) i
    unfold Execution.events
    split_ifs
    · rfl
    · refine congrArg₂ (· ++ ·) ?_ (hrest rest)
      cases order with
      | afterCleanCall => exact congrArg (· ++ _) hhead
      | beforeCleanCall => exact congrArg (_ ++ ·) hclean

private theorem blockEvents_recode (opts : Options) (order : WrapOrder) (xs : List (Execution τ ι)) :
    blockEvents opts build order (xs.map (recode f)) = blockEvents opts build order xs := by
  unfold blockEvents
  rw [List.flatMap_map]
  exact congrArg (fun g => xs.flatMap g) (funext fun x => events_recode hf opts order x)

end recoding

def probe [Zero τ] (op : X86.Opcode) : List (Execution τ X86.Opcode) :=
  [⟨[plainInstr op], some ⟨.roiInit ⟨"a", 1, "f.c"⟩ 0, rfl⟩⟩,
    ⟨[plainInstr op], some ⟨.roiEnd ⟨"a", 2, "f.c"⟩ 0, rfl⟩⟩]

private theorem flops_probe [Zero τ] (op : X86.Opcode) :
    (finalPoints {} (blockEvents {} X86.x86Build .afterCleanCall (probe (τ := τ) op))).map (·.flops) =
      [if isListed op then 1 else 0] := by
  cases op with
  | listed opc => rfl
  | other opc => rfl

/-- All that an x86 client makes of the opcodes: exchanging instructions leaves the points of every run as they are,
exactly if each listed one is exchanged for a listed one, such as a scalar form for a packed or a fused one. -/
theorem x86_recoded [Zero τ] (f : X86.Opcode → X86.Opcode) :
    (∀ (opts : Options) (order : WrapOrder) (xs : List (Execution τ X86.Opcode)),
      finalPoints opts (blockEvents opts X86.x86Build order (xs.map (recode f))) =
        finalPoints opts (blockEvents opts X86.x86Build order xs)) ↔
      ∀ op, isListed (f op) = isListed op := by
  constructor
  · intro h op
    have hpoints := congrArg (List.map (·.flops)) (h {} .afterCleanCall (probe op))
    have hprobe : (probe (τ := τ) op).map (recode f) = probe (f op) := rfl
    rw [hprobe, flops_probe, flops_probe] at hpoints
    cases hop : isListed op <;> cases hfop : isListed (f op) <;> simp [hop, hfop] at hpoints ⊢
  · intro hlisted opts order xs
    have hf (op : X86.Opcode) : X86.x86Build.countFpInstr (f op) = X86.x86Build.countFpInstr op := by
      apply UInt32.toNat_inj.mp
      rw [X86.x86Build, toNat_countFpInstr, toNat_countFpInstr, hlisted]
    rw [blockEvents_recode hf]

end Roofline.Correctness
