import Roofline.Client.Instrumentation

/-! The floating point operations of an Arm instruction (client/count_fp.hpp) and of a basic
block (client/main.cpp). The result is none where an assertion stops the client, or where it
divides by zero or converts a number that no int holds. -/
namespace Roofline.Client

/-- The opcodes that count_operations_per_instr lists, and all others. -/
inductive Opcode where
  | fabd
  | fabs
  | facge
  | facgt
  | fadd
  | faddp
  | fcmeq
  | fcmge
  | fcmgt
  | fdiv
  | fmax
  | fmaxnm
  | fmaxnmp
  | fmaxp
  | fmin
  | fminnm
  | fminnmp
  | fminp
  | fmul
  | fmulx
  | fneg
  | frecps
  | frsqrts
  | fsqrt
  | fmadd
  | fmla
  | fmlal
  | fmlal2
  | fmls
  | fmlsl
  | fmlsl2
  | fmsub
  | fnmadd
  | fnmsub
  | fnmul
  | other (opc : ℕ)
  deriving DecidableEq, Repr

def countOperationsPerInstr : Opcode → ℤ
  | .fabd | .fabs | .facge | .facgt | .fadd | .faddp | .fcmeq | .fcmge | .fcmgt | .fdiv | .fmax
  | .fmaxnm | .fmaxnmp | .fmaxp | .fmin | .fminnm | .fminnmp | .fminp | .fmul | .fmulx | .fneg
  | .frecps | .frsqrts | .fsqrt => 1
  | .fmadd | .fmla | .fmlal | .fmlal2 | .fmls | .fmlsl | .fmlsl2 | .fmsub | .fnmadd | .fnmsub
  | .fnmul => 2
  | .other _ => 0

/-- The general and the floating point registers, by the first letter of their names. -/
inductive RegClass where
  | w
  | x
  | b
  | h
  | s
  | d
  | q
  deriving DecidableEq, Repr

structure Reg where
  cls : RegClass
  number : Fin 32
  deriving DecidableEq, Repr

def RegClass.letter : RegClass → Char
  | w => 'w'
  | x => 'x'
  | b => 'b'
  | h => 'h'
  | s => 's'
  | d => 'd'
  | q => 'q'

def Reg.sizeInBytes (r : Reg) : ℕ :=
  match r.cls with
  | .b => 1
  | .h => 2
  | .w | .s => 4
  | .x | .d => 8
  | .q => 16

def getRegisterName (r : Reg) : List Char := r.cls.letter :: (toString r.number.val).toList

inductive Opnd where
  | reg (r : Reg)
  | immedInt (value : ℤ)
  | other
  deriving DecidableEq, Repr

def Opnd.getReg : Opnd → Option Reg
  | reg r => some r
  | _ => none

def Opnd.getImmedInt : Opnd → Option ℤ
  | immedInt value => some value
  | _ => none

/-- A decoded instruction. One of a listed opcode writes a register, and an immediate behind its
sources is the binary logarithm of the size of the elements that this register is filled with. -/
structure ArmInstr where
  opcode : Opcode
  srcs : List Opnd
  dsts : List Opnd
  decoded : 0 < countOperationsPerInstr opcode → ∃ r, dsts.head? = some (.reg r) ∧
    ∀ value, srcs.getLast? = some (.immedInt value) → ∃ w : ℕ, value = w ∧ 2 ^ w ∣ r.sizeInBytes

def isVectorInstruction (instr : ArmInstr) : Option Bool := do
  let r ← (← instr.dsts.head?).getReg
  return (getRegisterName r).head? == some 'q'

/-- The int that pow(2, n) is converted to. -/
def powInt (n : ℤ) : Option ℤ := if n < 0 then some 0 else if n < 31 then some (2 ^ n.toNat) else none

def countFpInstr (instr : ArmInstr) : Option UInt32 := do
  let operationsPerInstr := countOperationsPerInstr instr.opcode
  if operationsPerInstr > 0 then
    if ← isVectorInstruction instr then
      let widthOperand ← instr.srcs.getLast?
      let elemWidth := (Int32.ofInt (← widthOperand.getImmedInt)).toInt
      let regSize := (← (← instr.dsts.head?).getReg).sizeInBytes
      let elemWidthInBytes ← powInt elemWidth
      if elemWidthInBytes = 0 then none
      let numElems := (regSize : ℤ).tdiv elemWidthInBytes
      return UInt32.ofInt (numElems * operationsPerInstr)
    else return UInt32.ofInt operationsPerInstr
  else return 0

/-- The loop of event_app_instruction over the application instructions of a block. -/
def armFpInstrCount (bb : List (Instr ArmInstr)) : Option UInt32 :=
  (bb.filter (·.isApp)).foldlM (fun count i => do return count + (← countFpInstr i.op)) 0

def armBuild : Build ArmInstr := ⟨true, fun instr => (countFpInstr instr).getD 0⟩

/-- A count that is computed at all is the one that the clean call of the block carries. -/
theorem fpInstrCount_armBuild {bb : List (Instr ArmInstr)} {count : UInt32}
    (h : armFpInstrCount bb = some count) : fpInstrCount armBuild bb = count := by
  have hfold (is : List (Instr ArmInstr)) (start : UInt32)
      (h : is.foldlM (fun count i => do return count + (← countFpInstr i.op)) start = some count) :
      is.foldl (fun count i => count + armBuild.countFpInstr i.op) start = count := by
    induction is generalizing start with
    | nil => exact Option.some.inj h
    | cons i is ih =>
      rw [List.foldlM_cons] at h
      obtain ⟨next, hnext, hrest⟩ := Option.bind_eq_some_iff.mp h
      obtain ⟨c, hc, hsum⟩ := Option.bind_eq_some_iff.mp hnext
      obtain rfl := Option.some.inj hsum
      have hcount : armBuild.countFpInstr i.op = c := congrArg (Option.getD · 0) hc
      rw [List.foldl_cons, hcount]
      exact ih _ hrest
  exact hfold _ 0 h

end Roofline.Client
