import Roofline.Client.Instrumentation

/-! The floating point operations of an x86 instruction (client/count_fp.hpp): one for each of a list of opcodes,
whatever it computes. -/
namespace Roofline.Client.X86

/-- The opcodes that count_operations_per_instr lists. -/
inductive FpOpcode where
  | ucomiss | ucomisd | comiss | comisd | movmskps | movmskpd | sqrtps | sqrtss | sqrtpd | sqrtsd
  | rsqrtps | rsqrtss | rcpps | rcpss | andps | andpd | andnps | andnpd | orps | orpd | xorps
  | xorpd | addps | addss | addpd | addsd | mulps | mulss | mulpd | mulsd | subps | subss | subpd
  | subsd | minps | minss | minpd | minsd | divps | divss | divpd | divsd | maxps | maxss | maxpd
  | maxsd | cmpps | cmpss | cmppd | cmpsd | fadd | fmul | fcom | fcomp | fsub | fsubr | fdiv | fdivr
  | fiadd | fimul | ficom | ficomp | fisub | fisubr | fidiv | fidivr | fxch | fnop | fchs | fabs
  | ftst | fxam | fld1 | fldl2t | fldl2e | fldpi | fldlg2 | fldln2 | fldz | f2xm1 | fyl2x | fptan
  | fpatan | fxtract | fprem1 | fdecstp | fincstp | fprem | fyl2xp1 | fsqrt | fsincos | frndint
  | fscale | fsin | fcos | fcmovb | fcmove | fcmovbe | fcmovu | fucompp | fcmovnb | fcmovne
  | fcmovnbe | fcmovnu | fucomi | fcomi | ffree | fucom | fucomp | faddp | fmulp | fcompp | fsubrp
  | fsubp | fdivrp | fdivp | fucomip | fcomip | ffreep
  -- SSE3/3D-Now!/SSE4
  | haddpd | haddps | hsubpd | hsubps | addsubpd | addsubps | femms | movntss | movntsd | blendvps
  | blendvpd | roundps | roundpd | roundss | roundsd | blendps | blendpd | dpps | dppd
  -- AVX
  | vucomiss | vucomisd | vcomiss | vcomisd | vmovmskps | vmovmskpd | vsqrtps | vsqrtss | vsqrtpd
  | vsqrtsd | vrsqrtps | vrsqrtss | vrcpps | vrcpss | vandps | vandpd | vandnps | vandnpd | vorps
  | vorpd | vxorps | vxorpd | vaddps | vaddss | vaddpd | vaddsd | vmulps | vmulss | vmulpd | vmulsd
  | vsubps | vsubss | vsubpd | vsubsd | vminps | vminss | vminpd | vminsd | vdivps | vdivss | vdivpd
  | vdivsd | vmaxps | vmaxss | vmaxpd | vmaxsd | vcmpps | vcmpss | vcmppd | vcmpsd | vhaddpd
  | vhaddps | vhsubpd | vhsubps | vaddsubpd | vaddsubps | vblendvps | vblendvpd | vroundps
  | vroundpd | vroundss | vroundsd | vblendps | vblendpd | vdpps | vdppd | vtestps | vtestpd
  -- FMA
  | vfmadd132ps | vfmadd132pd | vfmadd213ps | vfmadd213pd | vfmadd231ps | vfmadd231pd | vfmadd132ss
  | vfmadd132sd | vfmadd213ss | vfmadd213sd | vfmadd231ss | vfmadd231sd | vfmaddsub132ps
  | vfmaddsub132pd | vfmaddsub213ps | vfmaddsub213pd | vfmaddsub231ps | vfmaddsub231pd
  | vfmsubadd132ps | vfmsubadd132pd | vfmsubadd213ps | vfmsubadd213pd | vfmsubadd231ps
  | vfmsubadd231pd | vfmsub132ps | vfmsub132pd | vfmsub213ps | vfmsub213pd | vfmsub231ps
  | vfmsub231pd | vfmsub132ss | vfmsub132sd | vfmsub213ss | vfmsub213sd | vfmsub231ss | vfmsub231sd
  | vfnmadd132ps | vfnmadd132pd | vfnmadd213ps | vfnmadd213pd | vfnmadd231ps | vfnmadd231pd
  | vfnmadd132ss | vfnmadd132sd | vfnmadd213ss | vfnmadd213sd | vfnmadd231ss | vfnmadd231sd
  | vfnmsub132ps | vfnmsub132pd | vfnmsub213ps | vfnmsub213pd | vfnmsub231ps | vfnmsub231pd
  | vfnmsub132ss | vfnmsub132sd | vfnmsub213ss | vfnmsub213sd | vfnmsub231ss | vfnmsub231sd
  deriving DecidableEq, Repr

inductive Opcode where
  | listed (opc : FpOpcode)
  | other (opc : ℕ)
  deriving DecidableEq, Repr

def countOperationsPerInstr : Opcode → ℤ
  | .listed _ => 1
  | .other _ => 0

def countFpInstr (opc : Opcode) : UInt32 := UInt32.ofInt (countOperationsPerInstr opc)

def x86Build : Build Opcode := ⟨false, countFpInstr⟩

end Roofline.Client.X86
