/-
The decoded instruction stream: opcodes, operands and instructions, as
Rosetta hands them to the translator (`Opcode.h`, `IROperand.h`,
`IRInstr.h`, `Register.h`).

An operand is sixteen bytes read through a union; the fields below are
the bytes at their offsets, so a read that the source makes through the
wrong member (`op.mem.seg_override` of an absolute operand) reads the
same byte here. `reg` is offset 2, which a memory operand calls
`addr_size`; `value` is offset 8: displacement, absolute address,
immediate or branch value.
-/
import Mathlib.Data.BitVec

namespace X87Sidecar

/-- The opcodes the translator tells apart; every other one is `other`. -/
inductive Opcode
  -- handled x87
  | fldz | fld1 | fldl2e | fldl2t | fldlg2 | fldln2 | fldpi | fld | fild
  | fadd | faddp | fiadd | fsub | fsubr | fsubp | fsubrp | fdiv | fdivr
  | fdivp | fdivrp | fmul | fmulp | fst | fst_stack | fstp | fstp_stack
  | fstsw | fcom | fcomp | fcompp | fucom | fucomp | fucompp | fxch | fchs
  | fabs | fsqrt | fistp | fisttp | fidiv | fimul | fisub | fidivr
  | frndint | fcomi | fcomip | fucomi | fucomip | ftst | fist | fisubr
  | fcmovb | fcmovbe | fcmove | fcmovnb | fcmovnbe | fcmovne | fcmovu
  | fcmovnu | ficom | ficomp | fldcw | fnstcw | fnop | fdisi | feni | fxam
  | fbld | fdecstp | fincstp | ffree | fxtract | fscale | fbstp | frstor
  | fsave | fsin | fcos | f2xm1 | fpatan | fsincos | fptan | fyl2x
  | fyl2xp1 | fprem | fprem1
  -- x87 left to stock
  | fclex | finit | fldenv | fstenv | fxsave | fxrstor
  -- integer instructions that may bridge two x87 runs
  | mov | lea | movzx | movsx | movsxd | wait | add | sub | and | or | xor
  | inc | dec
  -- the one non-x87 instruction the translator claims
  | arpl
  | other
  deriving DecidableEq, Repr

/-- `IROperandKind`. -/
inductive IROperandKind
  | register | memRef | absMem | immediate | branchOffset | conditionCode
  | segmentRegister
  deriving DecidableEq, Repr

/-- `IROperandSize`. -/
inductive IROperandSize
  | s8 | s16 | s32 | s64 | s128 | s256 | s80
  deriving DecidableEq, Repr

/-- `IROperand`: the union's bytes by offset. -/
structure IROperand where
  kind : IROperandKind
  size : IROperandSize
  /-- offset 2: a register byte, or the raw `addr_size` of a memory operand -/
  reg : BitVec 8 := 0
  segOverride : BitVec 8 := 0
  memFlags : BitVec 8 := 0
  baseReg : BitVec 8 := 0
  indexReg : BitVec 8 := 0
  shiftAmount : BitVec 8 := 0
  value : BitVec 64 := 0
  deriving DecidableEq, Repr

/-- `Register::index`: the low nibble, or the low three bits of an MMX
register. -/
def regIndex (r : BitVec 8) : Nat :=
  if r &&& 0xF8 = 0x60 then (r &&& 0x07).toNat else (r &&& 0x0F).toNat

/-- `Register::is_gpr`. -/
def regIsGpr (r : BitVec 8) : Bool := r.toNat < 0x50

namespace IROperand

/-- `op.reg.reg.index()`. -/
def index (op : IROperand) : Nat := regIndex op.reg

/-- `mem_flags` bit 0. -/
def hasBase (op : IROperand) : Bool := op.memFlags.getLsbD 0

/-- `mem_flags` bit 1. -/
def hasIndex (op : IROperand) : Bool := op.memFlags.getLsbD 1

/-- `ST(d)` as the decoder encodes it. -/
def st (d : BitVec 8) : IROperand :=
  ⟨.register, .s80, 0x70 + d, 0, 0, 0, 0, 0, 0⟩

/-- `[base + disp]` with a 64-bit address. -/
def based (size : IROperandSize) (base : BitVec 8) (disp : BitVec 64) :
    IROperand :=
  ⟨.memRef, size, 3, 0, 1, base, 0, 0, disp⟩

end IROperand

/-- `IRInstr`: the fields the translator reads. Operand slots at or past
`numOperands` hold whatever the decoder left there. -/
structure IRInstr where
  opcode : Opcode
  numOperands : Nat := 0
  op0 : IROperand := ⟨.register, .s8, 0, 0, 0, 0, 0, 0, 0⟩
  op1 : IROperand := ⟨.register, .s8, 0, 0, 0, 0, 0, 0, 0⟩
  op2 : IROperand := ⟨.register, .s8, 0, 0, 0, 0, 0, 0, 0⟩
  op3 : IROperand := ⟨.register, .s8, 0, 0, 0, 0, 0, 0, 0⟩
  repPrefix : BitVec 8 := 0
  flagLiveness : BitVec 8 := 0
  deriving DecidableEq, Repr

/-- The operands a walk over `k < num_operands && k < 4` visits. -/
def IRInstr.operands (i : IRInstr) : List IROperand :=
  [i.op0, i.op1, i.op2, i.op3].take i.numOperands

/-- `has_segment_override`: `compute_operand_address` reads the byte for
every operand kind it accepts. -/
def IRInstr.hasSegmentOverride (instr : IRInstr) : Bool :=
  instr.operands.any fun op =>
    (op.kind = .memRef || op.kind = .absMem || op.kind = .immediate)
      && op.segOverride ≠ 0

end X87Sidecar
