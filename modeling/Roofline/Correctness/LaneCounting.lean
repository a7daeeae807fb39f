import Roofline.Client.CountFp
import Mathlib.Algebra.BigOperators.Group.List.Basic
import Mathlib.Tactic.IntervalCases

/-! Counting by lanes. A vector form carries the width of its elements behind its sources,
but the client tells it by the name of the register that it writes. -/
namespace Roofline.Correctness
open Client

/-- The immediate behind the sources: the element width of a vector form. -/
def elemWidth (instr : ArmInstr) : Option ℕ := ((instr.srcs.getLast?).bind Opnd.getImmedInt).map Int.toNat

def destination (instr : ArmInstr) : Option Reg := (instr.dsts.head?).bind Opnd.getReg

def destinationBytes (instr : ArmInstr) : ℕ := (destination instr).elim 0 Reg.sizeInBytes

/-- The lanes of a vector form; a scalar form has a single one. -/
def lanes (instr : ArmInstr) : ℕ :=
  match elemWidth instr with
  | some w => destinationBytes instr / 2 ^ w
  | none => 1

def laneCount (instr : ArmInstr) : ℕ := (countOperationsPerInstr instr.opcode).toNat * lanes instr

/-- The name of the destination tells how many lanes there are: an instruction that writes a Q
register is a vector form, and one that writes another register has a single lane. -/
def NamedByLanes (instr : ArmInstr) : Prop :=
  0 < countOperationsPerInstr instr.opcode →
    if (destination instr).any (·.cls == .q) then (elemWidth instr).isSome = true
    else (elemWidth instr).all (fun w => destinationBytes instr == 2 ^ w) = true

instance (instr : ArmInstr) : Decidable (NamedByLanes instr) := by
  unfold NamedByLanes; infer_instance

section instr
variable (instr : ArmInstr)

private theorem operations_cases :
    countOperationsPerInstr instr.opcode = 0 ∨ countOperationsPerInstr instr.opcode = 1 ∨
      countOperationsPerInstr instr.opcode = 2 := by
  cases instr.opcode <;> simp [countOperationsPerInstr]

private theorem sizeInBytes_bounds (r : Reg) : 0 < r.sizeInBytes ∧ r.sizeInBytes ≤ 16 := by
  rcases r with ⟨cls, number⟩
  cases cls <;> simp [Reg.sizeInBytes]

/-- What is known of a listed instruction. -/
theorem destination_of_listed (h : 0 < countOperationsPerInstr instr.opcode) :
    ∃ r, instr.dsts.head? = some (.reg r) ∧ destination instr = some r ∧
      ∀ w, elemWidth instr = some w → instr.srcs.getLast? = some (.immedInt w) ∧ 2 ^ w ∣ r.sizeInBytes := by
  obtain ⟨r, hr, hw⟩ := instr.decoded h
  refine ⟨r, hr, by rw [destination, hr]; rfl, ?_⟩
  intro w hwidth
  obtain ⟨value, hvalue, hnat⟩ := Option.map_eq_some_iff.mp hwidth
  obtain ⟨o, ho, himm⟩ := Option.bind_eq_some_iff.mp hvalue
  cases o with
  | reg r => cases himm
  | other => cases himm
  | immedInt v =>
    obtain rfl := Option.some.inj himm
    obtain ⟨w', hw', hdvd⟩ := hw v ho
    have hww : w' = w := by rw [← hnat, hw', Int.toNat_natCast]
    rw [← hww]
    exact ⟨hw' ▸ ho, hdvd⟩

private theorem isVectorInstruction_eq {r : Reg} (h : instr.dsts.head? = some (.reg r)) :
    isVectorInstruction instr = some (r.cls == .q) := by
  rcases r with ⟨cls, number⟩
  cases cls <;> simp [isVectorInstruction, h, Opnd.getReg, getRegisterName, RegClass.letter]

private theorem powInt_elemWidth {w : ℕ} (h : w < 5) : powInt (Int32.ofInt w).toInt = some ((2 ^ w : ℕ) : ℤ) := by
  interval_cases w <;> rfl

/-- The lanes of a Q register, as the client divides them. -/
theorem countFpInstr_vector {r : Reg} {w : ℕ} (hops : 0 < countOperationsPerInstr instr.opcode)
    (hr : instr.dsts.head? = some (.reg r)) (hq : (r.cls == .q) = true)
    (hw : instr.srcs.getLast? = some (.immedInt w)) (hdvd : 2 ^ w ∣ r.sizeInBytes) :
    countFpInstr instr =
      some (UInt32.ofInt ((r.sizeInBytes / 2 ^ w : ℕ) * countOperationsPerInstr instr.opcode)) := by
  obtain ⟨hpos, hle⟩ := sizeInBytes_bounds r
  have hsmall : w < 5 := by
    have := Nat.le_of_dvd hpos hdvd
    by_contra hge
    have := Nat.pow_le_pow_right (by decide : 0 < 2) (Nat.le_of_not_lt hge)
    omega
  have hpow := powInt_elemWidth hsmall
  have hne : ((2 ^ w : ℕ) : ℤ) ≠ 0 := Int.natCast_ne_zero.mpr (Nat.two_pow_pos w).ne'
  generalize (2 ^ w : ℕ) = size at *
  simp only [countFpInstr, gt_iff_lt, hops, if_true, if_false, isVectorInstruction_eq instr hr, hq, hw, hr,
    Opnd.getImmedInt, Opnd.getReg, hpow, hne, Option.bind_eq_bind, Option.bind_some]
  rw [Int.ofNat_tdiv]
  rfl

private theorem countFpInstr_scalar {r : Reg} (hops : 0 < countOperationsPerInstr instr.opcode)
    (hr : instr.dsts.head? = some (.reg r)) (hq : (r.cls == .q) = false) :
    countFpInstr instr = some (UInt32.ofInt (countOperationsPerInstr instr.opcode)) := by
  simp only [countFpInstr, gt_iff_lt, hops, if_true, isVectorInstruction_eq instr hr, hq, Option.bind_eq_bind,
    Option.bind_some, Bool.false_eq_true, if_false]
  rfl

private theorem countFpInstr_missing {r : Reg} (hops : 0 < countOperationsPerInstr instr.opcode)
    (hr : instr.dsts.head? = some (.reg r)) (hq : (r.cls == .q) = true) (hw : elemWidth instr = none) :
    countFpInstr instr = none := by
  have himm : (instr.srcs.getLast?).bind Opnd.getImmedInt = none := Option.map_eq_none_iff.mp hw
  simp only [countFpInstr, gt_iff_lt, hops, if_true, isVectorInstruction_eq instr hr, hq, Option.bind_eq_bind,
    Option.bind_some]
  cases hsrc : instr.srcs.getLast? with
  | none => rfl
  | some o =>
    rw [hsrc, Option.bind_some] at himm
    simp [himm]

private theorem toUInt32_natCast (n : ℕ) : UInt32.ofInt n = UInt32.ofNat n := by
  apply UInt32.toNat_inj.mp
  simp only [UInt32.ofInt, UInt32.toNat_ofNat']
  omega

private theorem lanes_of_none (hw : elemWidth instr = none) : lanes instr = 1 := by rw [lanes, hw]

private theorem lanes_of_some {r : Reg} {w : ℕ} (hdest : destination instr = some r) (hw : elemWidth instr = some w) :
    lanes instr = r.sizeInBytes / 2 ^ w := by
  simp only [lanes, hw, destinationBytes, hdest, Option.elim_some]

/-- No instruction of the table executes more than two operations in more than 16 lanes. -/
theorem laneCount_le : laneCount instr ≤ 2 * 16 := by
  rcases Nat.eq_zero_or_pos (countOperationsPerInstr instr.opcode).toNat with hzero | hpos
  · rw [laneCount, hzero, Nat.zero_mul]
    exact Nat.zero_le _
  · obtain ⟨r, -, hdest, -⟩ := destination_of_listed instr (by omega)
    have hfew : (countOperationsPerInstr instr.opcode).toNat ≤ 2 := by
      rcases operations_cases instr with h | h | h <;> rw [h] <;> decide
    refine Nat.mul_le_mul hfew ?_
    cases hw : elemWidth instr with
    | none =>
      rw [lanes_of_none instr hw]
      decide
    | some w =>
      rw [lanes_of_some instr hdest hw]
      exact (Nat.div_le_self _ _).trans (sizeInBytes_bounds r).2

/-- An instruction is counted by its lanes exactly if its destination tells them; otherwise the
client counts less, or stops. -/
theorem countFpInstr_spec :
    laneCount instr < 2 ^ 32 ∧
      (NamedByLanes instr → countFpInstr instr = some (UInt32.ofNat (laneCount instr))) ∧
      (¬ NamedByLanes instr → ∀ c, countFpInstr instr = some c → c.toNat < laneCount instr) := by
  refine ⟨Nat.lt_of_le_of_lt (laneCount_le instr) (by decide), ?_⟩
  obtain ⟨ops, hops, hfew⟩ : ∃ ops : ℕ, countOperationsPerInstr instr.opcode = ops ∧ ops ≤ 2 := by
    rcases operations_cases instr with h | h | h
    · exact ⟨0, h, by decide⟩
    · exact ⟨1, h, by decide⟩
    · exact ⟨2, h, by decide⟩
  have hcount : laneCount instr = ops * lanes instr := by rw [laneCount, hops, Int.toNat_natCast]
  rcases Nat.eq_zero_or_pos ops with rfl | hpos
  · constructor
    · intro _
      rw [hcount, Nat.zero_mul, countFpInstr, hops]
      rfl
    · intro h
      exact absurd (fun h0 => absurd h0 (by rw [hops]; decide)) h
  · have hlisted : 0 < countOperationsPerInstr instr.opcode := by omega
    obtain ⟨r, hr, hdest, hwidth⟩ := destination_of_listed instr hlisted
    have hsize := (sizeInBytes_bounds r).1
    have hnamed : NamedByLanes instr ↔ if (r.cls == .q) = true then (elemWidth instr).isSome = true
        else (elemWidth instr).all (fun w => r.sizeInBytes == 2 ^ w) = true := by
      simp only [NamedByLanes, hlisted, forall_const, destinationBytes, hdest, Option.any_some, Option.elim_some]
    rw [hnamed, hcount]
    cases hq : r.cls == .q with
    | true =>
      cases hw : elemWidth instr with
      | none => simp [countFpInstr_missing instr hlisted hr hq hw]
      | some w =>
        obtain ⟨hsrc, hdvd⟩ := hwidth w hw
        rw [countFpInstr_vector instr hlisted hr hq hsrc hdvd, hops, lanes_of_some instr hdest hw, Nat.mul_comm ops]
        rw [← Nat.cast_mul, toUInt32_natCast]
        simp
    | false =>
      have hone : countFpInstr instr = some (UInt32.ofNat ops) := by
        rw [countFpInstr_scalar instr hlisted hr hq, hops, toUInt32_natCast]
      cases hw : elemWidth instr with
      | none => simp [hone, lanes_of_none instr hw]
      | some w =>
        obtain ⟨k, hk⟩ := (hwidth w hw).2
        have hdiv : lanes instr = k := by
          rw [lanes_of_some instr hdest hw, hk, Nat.mul_div_cancel_left _ (Nat.two_pow_pos w)]
        have hfilled : (some w).all (fun w => r.sizeInBytes == 2 ^ w) = true ↔ k = 1 := by
          rw [Option.all_some, beq_iff_eq, hk, Nat.mul_eq_left (Nat.two_pow_pos w).ne']
        rw [hdiv, hone, if_neg Bool.false_ne_true, hfilled]
        constructor
        · rintro rfl
          rw [Nat.mul_one]
        · intro hk1 c hc
          have hkpos : k ≠ 0 := by
            rintro rfl
            omega
          obtain rfl := Option.some.inj hc
          rw [UInt32.toNat_ofNat', Nat.mod_eq_of_lt (by omega)]
          exact (Nat.lt_mul_iff_one_lt_right hpos).mpr (by omega)

end instr

section block
variable (bb : List (Instr ArmInstr))

def blockLaneCount : ℕ := ((bb.filter (·.isApp)).map fun i => laneCount i.op).sum

/-- The counts of a list of instructions are computed and add up, or they fall short. -/
theorem foldlM_countFpInstr (is : List (Instr ArmInstr)) (start : UInt32) (total : ℕ)
    (hstart : start.toNat ≤ total) (hsum : total + (is.map fun i => laneCount i.op).sum < 2 ^ 32) :
    (∃ c, is.foldlM (fun count i => do return count + (← countFpInstr i.op)) start = some c ∧
      c.toNat = total + (is.map fun i => laneCount i.op).sum) ↔
        start.toNat = total ∧ ∀ i ∈ is, NamedByLanes i.op := by
  induction is generalizing start total with
  | nil => simp
  | cons i is ih =>
    obtain ⟨hlt, hright, hwrong⟩ := countFpInstr_spec i.op
    rw [List.map_cons, List.sum_cons, ← Nat.add_assoc] at hsum ⊢
    rw [List.foldlM_cons]
    cases hc : countFpInstr i.op with
    | none =>
      have hnot : ¬ NamedByLanes i.op := fun h => by simp [hright h] at hc
      simp [hnot]
    | some c =>
      have hle : c.toNat ≤ laneCount i.op ∧ (c.toNat = laneCount i.op ↔ NamedByLanes i.op) := by
        by_cases hn : NamedByLanes i.op
        · obtain rfl := Option.some.inj (hc.symm.trans (hright hn))
          rw [UInt32.toNat_ofNat', Nat.mod_eq_of_lt hlt]
          exact ⟨le_rfl, by simp [hn]⟩
        · have := hwrong hn c hc
          simp only [hn, iff_false]
          omega
      have hnext : (start + c).toNat = start.toNat + c.toNat := by
        rw [UInt32.toNat_add, Nat.mod_eq_of_lt (by omega)]
      have hrest := ih (start + c) (total + laneCount i.op) (by omega) hsum
      refine Iff.trans hrest ?_
      rw [hnext, List.forall_mem_cons, ← hle.2, ← and_assoc]
      refine and_congr_left fun _ => ?_
      omega

/-- The count of a block is exact if every destination tells the lanes of its instruction, as long
as the total fits into the counter. -/
theorem lane_counting :
    (∃ c, armFpInstrCount bb = some c ∧ c.toNat = blockLaneCount bb) ↔
      (∀ i ∈ bb, i.isApp = true → NamedByLanes i.op) ∧ blockLaneCount bb < 2 ^ 32 := by
  have hfold (hlt : blockLaneCount bb < 2 ^ 32) :
      (∃ c, armFpInstrCount bb = some c ∧ c.toNat = blockLaneCount bb) ↔
        ∀ i ∈ bb.filter (·.isApp), NamedByLanes i.op := by
    have h := foldlM_countFpInstr (bb.filter (·.isApp)) 0 0 le_rfl (by rwa [Nat.zero_add])
    rw [Nat.zero_add] at h
    exact h.trans (and_iff_right rfl)
  have hmem : (∀ i ∈ bb.filter (·.isApp), NamedByLanes i.op) ↔
      ∀ i ∈ bb, i.isApp = true → NamedByLanes i.op := by
    simp only [List.mem_filter, and_imp]
  rw [← hmem]
  constructor
  · rintro ⟨c, hc, hcount⟩
    have hlt : blockLaneCount bb < 2 ^ 32 := hcount ▸ c.toNat_lt
    exact ⟨(hfold hlt).mp ⟨c, hc, hcount⟩, hlt⟩
  · rintro ⟨hnamed, hlt⟩
    exact (hfold hlt).mpr hnamed

end block

/-- The addition of two lanes of four bytes in D registers. -/
def addTwoLanes : ArmInstr where
  opcode := .fadd
  srcs := [.reg ⟨.d, 1⟩, .reg ⟨.d, 2⟩, .immedInt 2]
  dsts := [.reg ⟨.d, 0⟩]
  decoded _ := ⟨⟨.d, 0⟩, rfl, by
    intro value h
    obtain rfl := Opnd.immedInt.inj (Option.some.inj h)
    exact ⟨2, rfl, by decide⟩⟩

/-- The client counts one operation where two are executed. -/
theorem addTwoLanes_not_exact :
    ¬ ∃ c, armFpInstrCount [⟨true, false, false, 0, false, addTwoLanes⟩] = some c ∧
      c.toNat = blockLaneCount [⟨true, false, false, 0, false, addTwoLanes⟩] := by
  rintro ⟨c, hc, hcount⟩
  obtain rfl := Option.some.inj hc
  exact absurd hcount (by decide)

end Roofline.Correctness
