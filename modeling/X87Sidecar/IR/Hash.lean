/-
The hash of a block's instructions (`hash_ir_stream` in
`rosetta_core/src/ProfileRuntime.cpp`).

A block is known across launches by a hash of its decoded instructions.
The decoder leaves stack bytes in what an operand's kind does not use, so
each instruction is first copied into a canonical form: dead bytes
cleared, the opcode in the internal numbering, absolute addresses cut to
their page offset. The hash is FNV-1a over the bytes of the copies.

`RawInstr` and `RawOperand` are the records byte for byte as `IRInstr.h`
and `IROperand.h` lay them out; an operand is read through a union, so
its bytes are named here by what most of its members call them.
-/
import X87Sidecar.Lib.Record

namespace X87Sidecar.IrHash

open Lib.Record

/-- `IROperand`: sixteen bytes, of which the last eight are one value. -/
structure RawOperand where
  kind : BitVec 8 := 0
  /-- offset 1: the size, or the condition of a condition code -/
  size : BitVec 8 := 0
  /-- offset 2: a register, an address size or a segment register -/
  reg : BitVec 8 := 0
  segOverride : BitVec 8 := 0
  memFlags : BitVec 8 := 0
  baseReg : BitVec 8 := 0
  indexReg : BitVec 8 := 0
  shiftAmount : BitVec 8 := 0
  value : BitVec 64 := 0
  deriving DecidableEq, Repr

/-- `IRInstr`: eighty bytes. -/
structure RawInstr where
  pc : BitVec 32 := 0
  opcode : BitVec 16 := 0
  repPrefix : BitVec 8 := 0
  flagLiveness : BitVec 8 := 0
  pad08 : BitVec 8 := 0
  rexEscape : BitVec 8 := 0
  numOperands : BitVec 8 := 0
  irKind : BitVec 8 := 0
  irSubkind : BitVec 8 := 0
  auxOpcode : BitVec 16 := 0
  fieldF : BitVec 8 := 0
  operands : Fin 4 → RawOperand := fun _ => {}
  deriving DecidableEq

-- `IROperandKind`, as the byte at offset 0

/-- `IROperandKind::Register`. -/
abbrev kRegister : BitVec 8 := 0
/-- `IROperandKind::MemRef`. -/
abbrev kMemRef : BitVec 8 := 1
/-- `IROperandKind::AbsMem`. -/
abbrev kAbsMem : BitVec 8 := 2
/-- `IROperandKind::Immediate`. -/
abbrev kImmediate : BitVec 8 := 3
/-- `IROperandKind::BranchOffset`. -/
abbrev kBranchOffset : BitVec 8 := 4
/-- `IROperandKind::ConditionCode`. -/
abbrev kConditionCode : BitVec 8 := 5
/-- `IROperandKind::SegmentRegister`. -/
abbrev kSegmentRegister : BitVec 8 := 6

-- ================================================================= bytes

/-- An operand's bytes. -/
def RawOperand.bytes (o : RawOperand) : List (BitVec 8) :=
  [o.kind, o.size, o.reg, o.segOverride, o.memFlags, o.baseReg, o.indexReg,
    o.shiftAmount] ++ leBytes 8 o.value

/-- An instruction's bytes. -/
def RawInstr.bytes (i : RawInstr) : List (BitVec 8) :=
  leBytes 4 i.pc ++ leBytes 2 i.opcode
    ++ [i.repPrefix, i.flagLiveness, i.pad08, i.rexEscape, i.numOperands,
      i.irKind, i.irSubkind]
    ++ leBytes 2 i.auxOpcode ++ [i.fieldF]
    ++ (List.finRange 4).flatMap fun o => (i.operands o).bytes

-- ============================================================== the hash

/-- The canonical form of a used operand, by its kind. -/
def canonOperand (src : RawOperand) : RawOperand :=
  if src.kind = kRegister then
    { kind := src.kind, size := src.size, reg := src.reg,
      segOverride := src.segOverride }
  else if src.kind = kMemRef then src
  else if src.kind = kAbsMem then
    { kind := src.kind, size := src.size, reg := src.reg,
      value := src.value &&& 0xfff }
  else if src.kind = kImmediate then
    { kind := src.kind, size := src.size, reg := src.reg,
      memFlags := src.memFlags
      value := if src.memFlags ≠ 0 then src.value &&& 0xfff
        else src.value }
  else if src.kind = kBranchOffset then
    { kind := src.kind, value := src.value }
  else if src.kind = kConditionCode then
    { kind := src.kind, size := src.size }
  else if src.kind = kSegmentRegister then
    { kind := src.kind, reg := src.reg }
  else src

/-- How many operand slots are used. -/
def RawInstr.nops (i : RawInstr) : Nat :=
  if i.numOperands.toNat > 4 then 4 else i.numOperands.toNat

/-- The canonical copy of an instruction, in a numbering of the host's
opcodes. -/
def canonInstr (toInternal : BitVec 16 → BitVec 16) (i : RawInstr) :
    RawInstr :=
  { i with
    opcode := toInternal i.opcode
    pc := 0
    pad08 := 0
    flagLiveness := 0
    operands := fun o =>
      if o.val < i.nops then canonOperand (i.operands o) else {} }

/-- The bytes that are hashed. -/
def canonBytes (toInternal : BitVec 16 → BitVec 16)
    (instrs : List RawInstr) : List (BitVec 8) :=
  instrs.flatMap fun i => (canonInstr toInternal i).bytes

/-- `kFnvOffset`. -/
def kFnvOffset : BitVec 64 := 14695981039346656037

/-- `kFnvPrime`. -/
def kFnvPrime : BitVec 64 := 1099511628211

/-- One byte into the hash. -/
def fnvStep (h : BitVec 64) (b : BitVec 8) : BitVec 64 :=
  (h ^^^ b.setWidth 64) * kFnvPrime

/-- `hash_ir_stream`. -/
def hash_ir_stream (toInternal : BitVec 16 → BitVec 16)
    (instrs : List RawInstr) : BitVec 64 :=
  (canonBytes toInternal instrs).foldl fnvStep kFnvOffset

end X87Sidecar.IrHash
