/-
The peephole fusions (`TranslatorX87Fusion.cpp`).

A fusion covers two to six instructions with one emitter. It looks at the
instructions ahead and, in a few cases, at the cache and at how many
registers are free; each is written here in the order of the source's
checks, and what it returns is how many instructions it took and the
steps it emits. `try_peephole` tries them longest first.
-/
import X87Sidecar.Translate.Run

namespace X87Sidecar

open Act

/-- `FusionId`. -/
inductive FusionId
  | fld_arithp | fld_fstp | fld_arith_fstp | fld_fcomp_fstsw
  | fxch_arithp | fxch_fstp | fxch_fcom_fstsw | fxch_fcom | fcom_fstsw
  | fld_fcompp_fstsw | fld_fld_fucompp | fld_fcomp | fld_arith_arithp
  | fld_arith | arithp_fstp | fstp_fld | arith_fstp | arith_faddp
  | fstp_arith_fstp | fild_fistp | fld_fstp_m80
  deriving DecidableEq, Repr

/-- What the fusions read of the configuration and of the allocator. -/
structure FusionConfig where
  /-- `fusion_disabled` -/
  disabled : FusionId → Bool
  /-- `fma_contract_enabled` -/
  fmaContract : Bool
  /-- `precise_faults_enabled` -/
  preciseFaults : Bool
  /-- `precise_split_enabled` -/
  preciseSplit : Bool
  /-- are so many integer registers free beside `x87_begin`'s? -/
  roomFor : X87Cache → Nat → Bool

/-- A fusion that matched: the instructions it took and its emitter. -/
structure Fused where
  count : Nat
  script : Script

-- ============================================ what is loaded, what computes

/-- `FldSource`, `kFldInvalid` apart, with what the classification keeps. -/
inductive FldSource
  | reg (d : Depth)
  /-- `kFldM32` and `kFldM64` -/
  | mem
  /-- `kFildM16`, `kFildM32` and `kFildM64` -/
  | fild
  | zero
  | one
  | const (v : BitVec 64)

/-- `classify_fld_source`. -/
def classify_fld_source (i : IRInstr) : Option FldSource :=
  match i.opcode with
  | .fld =>
      if i.op0.kind = .register then some (.reg i.op1.depth)
      else if i.op0.size = .s32 ∨ i.op0.size = .s64 then some .mem
      else none
  | .fild => some .fild
  | .fldz => some .zero
  | .fld1 => some .one
  | .fldl2e => some (.const 0x3FF71547652B82FE)
  | .fldl2t => some (.const 0x400A934F0979A371)
  | .fldlg2 => some (.const 0x3FD34413509F79FF)
  | .fldln2 => some (.const 0x3FE62E42FEFA39EF)
  | .fldpi => some (.const 0x400921FB54442D18)
  | _ => none

/-- `emit_fld_value`, with the access of a register source given. -/
def emit_fld_value (env : Env) (src : FldSource) (i : IRInstr) (r : Nat)
    (fromReg : Depth → StDepth) : Script :=
  match src with
  | .reg d => [.load (fromReg d) 1 r]
  | .mem => [setD r fun g _ => env.memFp (Env.addrIs64 i.op0) i.op0 g]
  | .fild => [setD r fun g _ => env.memInt i.op0 g]
  | .zero => [setD r fun _ _ => env.fp.zero]
  | .one => [setD r fun _ _ => env.fp.one]
  | .const v => [setD r fun _ _ => v]

/-- `ArithOp` of a non-popping opcode, destination first. -/
def arithOp (env : Env) :
    Opcode → Option (BitVec 64 → BitVec 64 → BitVec 64)
  | .fadd => some env.fp.add
  | .fsub => some env.fp.sub
  | .fsubr => some fun a b => env.fp.sub b a
  | .fmul => some env.fp.mul
  | .fdiv => some env.fp.div
  | .fdivr => some fun a b => env.fp.div b a
  | _ => none

/-- `ArithOp` of a popping opcode, destination first. -/
def arithpOp (env : Env) :
    Opcode → Option (BitVec 64 → BitVec 64 → BitVec 64)
  | .faddp => some env.fp.add
  | .fsubp => some env.fp.sub
  | .fsubrp => some fun a b => env.fp.sub b a
  | .fmulp => some env.fp.mul
  | .fdivp => some env.fp.div
  | .fdivrp => some fun a b => env.fp.div b a
  | _ => none

/-- The fused multiply-add of a popping opcode: the accumulator last. -/
def fmaOf (env : Env) :
    Opcode → Option (BitVec 64 → BitVec 64 → BitVec 64 → BitVec 64)
  | .faddp => some env.fp.fma
  | .fsubp => some env.fp.fms
  | .fsubrp => some env.fp.fnms
  | _ => none

/-- The opcodes of `fcom` and its like. -/
def isFcom : Opcode → Bool
  | .fcom | .fcomp | .fucom | .fucomp | .fcompp | .fucompp => true
  | _ => false

/-- Those that pop once. -/
def isFcomp (o : Opcode) : Bool := o = .fcomp ∨ o = .fucomp

/-- Those that pop twice. -/
def isFcompp (o : Opcode) : Bool := o = .fcompp ∨ o = .fucompp

/-- `fstp` in either of its two opcodes. -/
def isFstp (o : Opcode) : Bool := o = .fstp ∨ o = .fstp_stack

/-- A register operand that names `ST(1)`. -/
def IROperand.isSt1 (op : IROperand) : Bool := op.index = 1

/-- An `fstp` that ends a fusion with a net push of zero: to `ST(1)`, or to
memory but for the m80 form. -/
def IRInstr.storesPlain (i : IRInstr) : Bool :=
  if i.op0.kind = .register then i.op0.isSt1 else i.op0.size ≠ .s80

/-- `fnstsw ax`. -/
def IRInstr.isFstswAx (i : IRInstr) : Bool :=
  i.opcode = .fstsw ∧ i.op0.kind = .register

/-- A push of an earlier instruction that the fusion leaves pending. -/
def X87Cache.keepPending (c : X87Cache) : Bool :=
  c.tagPushPending && c.topDirty

/-- The status word's low half of a guest register with its TOP field
taken from TOP's register: `BFI X_ax, X_top, #11, #3`. -/
def patchTop (ax : Nat) : Script :=
  [.ldTop 3,
    onGuest fun g s =>
      g.setReg16 ax
        (withTop ((g.regs ax).setWidth 16) ((s.x 3).setWidth 3))]

/-- The condition codes of a comparison of two FP registers, packed. -/
def packCC (env : Env) (a b : Nat) : Act :=
  setX 0 fun _ s => (env.fp.cmp (s.d a) (s.d b)).cc.setWidth 64

/-- The status word read, its codes replaced by the packed ones, copied to
`AX` where an `fnstsw` is part of the fusion, and written. -/
def writeSw (ax : Option Nat) (patch : Script) : Script :=
  [.ldSw 1,
    setX 1 fun _ s =>
      (withCC ((s.x 1).setWidth 16) ((s.x 0).setWidth 16)).setWidth 64]
    ++ (match ax with
      | some r =>
          [onGuest fun g s => g.setReg16 r ((s.x 1).setWidth 16)] ++ patch
      | none => [])
    ++ [.stSw 1]

/-- How a fusion of net push zero begins: TOP is flushed unless a push is
still to be cancelled. -/
def beginNetZero : Script := [.begin, .flush .top .unlessPush]

/-- The register access of `emit_fld_value`. -/
def asResolved (d : Depth) : StDepth := .resolve d

section
variable (env : Env) (cfg : FusionConfig) (c : X87Cache)

-- ======================================================= a load leads

/-- `try_fuse_fld_arithp`. -/
def try_fuse_fld_arithp (fld arithp : IRInstr) : Option Fused := do
  let cls ← classify_fld_source fld
  let f ← arithpOp env arithp.opcode
  guard arithp.op0.isSt1
  return ⟨2, beginNetZero ++ emit_fld_value env cls fld 1 asResolved
    ++ [.load (st 0) 0 0, setD 0 fun _ s => f (s.d 0) (s.d 1),
      .storeKey 0 0, .finish 2]⟩

/-- `try_fuse_fld_arith`. -/
def try_fuse_fld_arith (fld arith : IRInstr) : Option Fused := do
  let cls ← classify_fld_source fld
  let f ← arithOp env arith.opcode
  guard (arith.op0.kind ≠ .register)
  return ⟨2, .begin :: emit_fld_value env cls fld 0 asResolved
    ++ [setD 1 fun g _ => env.memFp true arith.op0 g,
      setD 0 fun _ s => f (s.d 0) (s.d 1), .push, .store (st 0) 0,
      .finish 2]⟩

/-- Where a fusion of net push zero leaves its result: in the slot of the
old `ST(0)`, or in memory. -/
def storePlain (fstp : IRInstr) : Script :=
  if fstp.op0.kind = .register then [.store (st 0) 0]
  else [onGuest fun g s => env.storeFp fstp.op0 g (s.d 0)]

/-- `try_fuse_fld_fstp`. -/
def try_fuse_fld_fstp (fld fstp : IRInstr) : Option Fused := do
  guard (isFstp fstp.opcode)
  guard fstp.storesPlain
  let cls ← classify_fld_source fld
  return ⟨2, beginNetZero ++ emit_fld_value env cls fld 0 asResolved
    ++ storePlain env fstp ++ [.finish 2]⟩

/-- `is_exact_i64_operand`. -/
def is_exact_i64_operand (i : IRInstr) : Bool :=
  i.op0.kind ≠ .register ∧ i.op0.size = .s64 ∧ i.op0.segOverride = 0

/-- The store of an integer copy. -/
def isIntStore (i : IRInstr) : Bool :=
  i.opcode = .fistp ∨ i.opcode = .fisttp

/-- `try_fuse_fild_fistp`. -/
def try_fuse_fild_fistp (fild fistp : IRInstr) : Option Fused := do
  guard (fild.opcode = .fild)
  guard (isIntStore fistp)
  guard (is_exact_i64_operand fild ∧ is_exact_i64_operand fistp)
  return ⟨2, beginNetZero
    ++ [setD 0 fun g _ => g.mem.load (env.ea true fild.op0 g) 8,
      onGuest fun g s => g.storeAt (env.ea true fistp.op0 g) 8 (s.d 0),
      .finish 2]⟩

/-- `try_fuse_fld_fstp_m80`. -/
def try_fuse_fld_fstp_m80 (fld fstp : IRInstr) : Option Fused := do
  guard (fld.opcode = .fld ∧ fstp.opcode = .fstp)
  guard (fld.op0.kind ≠ .register ∧ fld.op0.size = .s80)
  guard (fstp.op0.kind ≠ .register ∧ fstp.op0.size = .s80)
  return ⟨2, beginNetZero
    ++ [setQ 0 fun g _ => env.memF80 true fld.op0 g,
      onGuest fun g s => g.storeF80 (env.ea true fstp.op0 g) (s.q 0),
      .finish 2]⟩

/-- The `k` loads and `k` stores of a nested integer copy. -/
def isNested (k : Nat) (instrs : List IRInstr) : Bool :=
  decide (2 * k ≤ instrs.length)
    && (instrs.take k).all (fun i =>
      decide (i.opcode = .fild) && is_exact_i64_operand i)
    && ((instrs.drop k).take k).all (fun i =>
      isIntStore i && is_exact_i64_operand i)

/-- An operand whose address takes a second register. -/
def addsAtRunTime (i : IRInstr) : Bool :=
  i.op0.kind = .immediate ∧ i.op0.memFlags.getLsbD 0 = false

/-- The code of a nested integer copy: the stores take the loaded values
in reverse. -/
def nestedCopy (k : Nat) (instrs : List IRInstr) : Script :=
  beginNetZero
    ++ ((instrs.take k).zipIdx.map fun p =>
        setX p.2 fun g _ => g.mem.load (env.ea true p.1.op0 g) 8)
    ++ (((instrs.drop k).take k).zipIdx.map fun p =>
        onGuest fun g s =>
          g.storeAt (env.ea true p.1.op0 g) 8 (s.x (k - 1 - p.2)))
    ++ [.finish (2 * k)]

/-- `try_fuse_fild_fistp_nested`: three pairs, or else two, if there are
registers for them. -/
def try_fuse_fild_fistp_nested (instrs : List IRInstr) :
    Option Fused := do
  let k ← if isNested 3 instrs then some 3
    else if isNested 2 instrs then some 2 else none
  let addrNeed := if (instrs.take (2 * k)).any addsAtRunTime then 2 else 1
  guard (cfg.roomFor c (1 + k + addrNeed))
  return ⟨2 * k, nestedCopy env k instrs⟩

/-- The operands that `fld; arith` may have in the longer fusions. -/
def arithOnPushed (arith : IRInstr) : Bool :=
  arith.op0.kind ≠ .register ∨ (arith.op0.index = 0 ∧ arith.op1.isSt1)

/-- `try_fuse_fld_arith_fstp`. -/
def try_fuse_fld_arith_fstp (fld arith fstp : IRInstr) :
    Option Fused := do
  let cls ← classify_fld_source fld
  let f ← arithOp env arith.opcode
  guard (arithOnPushed arith)
  guard (isFstp fstp.opcode)
  guard fstp.storesPlain
  return ⟨3, beginNetZero ++ emit_fld_value env cls fld 0 asResolved
    ++ (if arith.op0.kind = .register then [.load (st 0) 0 1]
        else [setD 1 fun g _ => env.memFp true arith.op0 g])
    ++ [setD 0 fun _ s => f (s.d 0) (s.d 1)]
    ++ (if fstp.op0.kind = .register ∧ arith.op0.kind = .register
        then [.storeKey 0 0] else storePlain env fstp)
    ++ [.finish 3]⟩

/-- `try_fuse_fld_arith_arithp`: a multiplication is contracted into the
popping operation where that is allowed. -/
def try_fuse_fld_arith_arithp (fld arith arithp : IRInstr) :
    Option Fused := do
  let cls ← classify_fld_source fld
  let f ← arithOp env arith.opcode
  guard (arithOnPushed arith)
  let h ← arithpOp env arithp.opcode
  guard arithp.op0.isSt1
  let isMem := arith.op0.kind ≠ .register
  let contracted := if cfg.fmaContract ∧ arith.opcode = .fmul
    then fmaOf env arithp.opcode else none
  return ⟨3, beginNetZero ++ emit_fld_value env cls fld 0 asResolved
    ++ [.load (st 0) 0 1]
    ++ (if isMem then [setD 2 fun g _ => env.memFp true arith.op0 g]
        else [setD 2 fun _ s => s.d 1])
    ++ (match contracted with
      | some fma => [setD 1 fun _ s => fma (s.d 0) (s.d 2) (s.d 1)]
      | none =>
          [setD 0 fun _ s => f (s.d 0) (s.d 2),
            setD 1 fun _ s => h (s.d 1) (s.d 0)])
    ++ [.storeKey 0 1, .finish 3]⟩

/-- The comparand of `fcomp` after a load: the old `ST(0)`, or memory. -/
def fcompOnPushed (fcomp : IRInstr) : Bool :=
  if fcomp.op1.kind = .register then fcomp.op1.isSt1
  else fcomp.op1.size ≠ .s80

/-- `fld` and `fcomp` up to the packed codes. -/
def comparePushed (cls : FldSource) (fld fcomp : IRInstr) : Script :=
  .begin :: emit_fld_value env cls fld 0 asResolved
    ++ (if fcomp.op1.kind = .register then [.load (st 0) 0 1]
        else [setD 1 fun g _ => env.memFp true fcomp.op1 g])
    ++ [packCC env 0 1, .flush .top .unlessPush]

/-- `try_fuse_fld_fcomp_fstsw`. -/
def try_fuse_fld_fcomp_fstsw (fld fcomp fstsw : IRInstr) :
    Option Fused := do
  guard (isFcomp fcomp.opcode)
  guard (fcompOnPushed fcomp)
  guard fstsw.isFstswAx
  let cls ← classify_fld_source fld
  return ⟨3, comparePushed env cls fld fcomp
    ++ writeSw (some fstsw.op0.index)
      (onlyIf c.keepPending (patchTop fstsw.op0.index))
    ++ [.finish 3]⟩

/-- `try_fuse_fld_fcomp`. -/
def try_fuse_fld_fcomp (fld fcomp : IRInstr) : Option Fused := do
  guard (isFcomp fcomp.opcode)
  guard (fcompOnPushed fcomp)
  let cls ← classify_fld_source fld
  return ⟨2, comparePushed env cls fld fcomp ++ writeSw none []
    ++ [.finish 2]⟩

/-- `try_fuse_fld_fcompp_fstsw`. -/
def try_fuse_fld_fcompp_fstsw (fld fcompp fstsw : IRInstr) :
    Option Fused := do
  guard (isFcompp fcompp.opcode)
  guard fstsw.isFstswAx
  let cls ← classify_fld_source fld
  return ⟨3, .begin :: emit_fld_value env cls fld 0 asResolved
    ++ [.load (st 0) 0 1, packCC env 0 1, .flush .top .always]
    ++ writeSw (some fstsw.op0.index) []
    ++ .pop :: patchTop fstsw.op0.index ++ [.finish 3]⟩

/-- The second of two loads: its register operand is counted after the
first one's push. -/
def emit_second_fld (cls : FldSource) (fld2 : IRInstr) : Script :=
  match cls with
  | .reg d =>
      if d = 0 then [setD 1 fun _ s => s.d 0]
      else emit_fld_value env (.reg (d - 1)) fld2 1 asResolved
  | _ => emit_fld_value env cls fld2 1 asResolved

/-- `try_fuse_fld_fld_fucompp`, with the `fnstsw` it may end in. -/
def try_fuse_fld_fld_fucompp (fld1 fld2 fucompp : IRInstr)
    (fstsw : Option IRInstr) : Option Fused := do
  let cls1 ← classify_fld_source fld1
  let cls2 ← classify_fld_source fld2
  guard (isFcompp fucompp.opcode)
  let ax := (fstsw.filter (·.isFstswAx)).map fun i => i.op0.index
  let consumed := if ax.isSome then 4 else 3
  return ⟨consumed, .begin :: emit_fld_value env cls1 fld1 0 asResolved
    ++ emit_second_fld env cls2 fld2
    ++ [packCC env 1 0, .flush .top .unlessPush]
    ++ writeSw ax
      (onlyIf c.keepPending (match ax with
        | some r => patchTop r
        | none => []))
    ++ [.finish consumed]⟩

-- =================================================== an exchange leads

/-- The opcode that undoes an exchange of its two operands. -/
def swappedArithp (env : Env) (next : IRInstr) : Option Script :=
  match next.opcode with
  | .faddp => some (translate_faddp env next)
  | .fmulp => some (translate_fmulp env next)
  | .fsubp => some (translate_fsubrp env next)
  | .fsubrp => some (translate_fsubp env next)
  | .fdivp => some (translate_fdivrp env next)
  | .fdivrp => some (translate_fdivp env next)
  | _ => none

/-- `try_fuse_fxch_arithp`: the exchange is absorbed, its instruction taken
off the count of the run. -/
def try_fuse_fxch_arithp (fxch next : IRInstr) : Option Fused := do
  guard (fxch.opcode = .fxch)
  guard fxch.op1.isSt1
  let body ← swappedArithp env next
  guard next.op0.isSt1
  return ⟨2, .shorten :: body⟩

/-- `try_fuse_fxch_fstp`. -/
def try_fuse_fxch_fstp (fxch fstp : IRInstr) : Option Fused := do
  guard (fxch.opcode = .fxch)
  guard fxch.op1.isSt1
  guard (fstp.opcode = .fstp_stack)
  guard (fstp.op0.kind = .register)
  guard fstp.op0.isSt1
  return ⟨2, [.begin, .flush .top .always, .pop, .finish 2]⟩

/-- `try_fuse_fcom_fstsw`. -/
def try_fuse_fcom_fstsw (fcom fstsw : IRInstr) : Option Fused := do
  guard fstsw.isFstswAx
  let ax := fstsw.op0.index
  let twice := isFcompp fcom.opcode
  return ⟨2, .begin :: .load (st 0) 0 0 ::
    (if twice then [.load (st 1) 0 1]
     else if fcom.op1.kind = .register
     then [.load (st fcom.op1.depth) 0 1]
     else [setD 1 fun g _ => env.memFp true fcom.op1 g])
    ++ [packCC env 0 1, .flush .top .always]
    ++ writeSw (some ax) []
    ++ onlyIf (twice || isFcomp fcom.opcode)
      ((if twice then .popN 2 else .pop) :: patchTop ax)
    ++ [.finish 2]⟩

/-- The exchange that the two fusions below absorb: `ST(1)` to `ST(7)`. -/
def absorbsFxch (fxch fcom : IRInstr) : Bool :=
  fxch.opcode = .fxch ∧ 0 < fxch.op1.index ∧ fxch.op1.index < 8
    ∧ isFcom fcom.opcode

/-- `try_fuse_fxch_fcom_fstsw`. -/
def try_fuse_fxch_fcom_fstsw (fxch fcom fstsw : IRInstr) :
    Option Fused := do
  guard (absorbsFxch fxch fcom)
  guard fstsw.isFstswAx
  let inner ← try_fuse_fcom_fstsw env fcom fstsw
  return ⟨inner.count + 1,
    .exchange fxch.op1.depth :: .shorten :: inner.script⟩

/-- `try_fuse_fxch_fcom`. -/
def try_fuse_fxch_fcom (fxch fcom : IRInstr) : Option Fused := do
  guard (absorbsFxch fxch fcom)
  return ⟨2, .exchange fxch.op1.depth :: .shorten ::
    translate_fcom env fcom⟩

-- ==================================================== arithmetic leads

/-- `fstp` to memory as a binary32 or a binary64. -/
def IRInstr.isFstpMem (i : IRInstr) : Bool :=
  i.opcode = .fstp ∧ i.op0.kind ≠ .register ∧ i.op0.size ≠ .s80

/-- `try_fuse_arithp_fstp`. -/
def try_fuse_arithp_fstp (arithp fstp : IRInstr) : Option Fused := do
  let f ← arithpOp env arithp.opcode
  guard arithp.op0.isSt1
  guard fstp.isFstpMem
  return ⟨2, [.begin, .load (st 0) 0 1, .load (st 1) 0 0,
    setD 0 fun _ s => f (s.d 0) (s.d 1),
    onGuest fun g s => env.storeFp fstp.op0 g (s.d 0), .popN 2,
    .finish 2]⟩

/-- `try_fuse_arith_fstp`. -/
def try_fuse_arith_fstp (arith fstp : IRInstr) : Option Fused := do
  let f ← arithOp env arith.opcode
  guard (arith.op0.kind ≠ .register ∨ arith.op0.index = 0)
  guard fstp.isFstpMem
  return ⟨2, .begin ::
    (if arith.op0.kind = .register
     then [.load (st arith.op1.depth) 0 1, .load (st 0) 0 0]
     else [.load (st 0) 0 0,
       setD 1 fun g _ => env.memFp true arith.op0 g])
    ++ [setD 0 fun _ s => f (s.d 0) (s.d 1),
      onGuest fun g s => env.storeFp fstp.op0 g (s.d 0), .pop,
      .finish 2]⟩

/-- `try_fuse_arith_faddp`: there is no such fusion without contraction. -/
def try_fuse_arith_faddp (mul addp : IRInstr) : Option Fused := do
  guard (cfg.fmaContract ∧ mul.opcode = .fmul)
  guard (mul.op0.kind ≠ .register ∨ mul.op0.index = 0)
  let fma ← fmaOf env addp.opcode
  guard addp.op0.isSt1
  return ⟨2, .begin ::
    (if mul.op0.kind = .register
     then [.load (st mul.op1.depth) 0 1, .load (st 0) 0 0]
     else [.load (st 0) 0 0,
       setD 1 fun g _ => env.memFp true mul.op0 g])
    ++ [.load (st 1) 0 2, setD 2 fun _ s => fma (s.d 0) (s.d 1) (s.d 2),
      .storeKey 0 2, .pop, .finish 2]⟩

-- ======================================================== a store leads

/-- `try_fuse_fstp_arith_fstp`. -/
def try_fuse_fstp_arith_fstp (fstp1 arith fstp2 : IRInstr) :
    Option Fused := do
  guard fstp1.isFstpMem
  let f ← arithOp env arith.opcode
  guard (arith.op0.kind ≠ .register)
  guard fstp2.isFstpMem
  return ⟨3, [.begin, .load (st 0) 0 0,
    onGuest fun g s => env.storeFp fstp1.op0 g (s.d 0),
    .load (st 1) 0 0, setD 1 fun g _ => env.memFp true arith.op0 g,
    setD 0 fun _ s => f (s.d 0) (s.d 1),
    onGuest fun g s => env.storeFp fstp2.op0 g (s.d 0), .popN 2,
    .finish 3]⟩

/-- `try_fuse_fstp_fld`: the destination is written before the source is
read. -/
def try_fuse_fstp_fld (fstp fld : IRInstr) : Option Fused := do
  guard (fstp.op0.kind = .register ∨ fstp.op0.size ≠ .s80)
  let cls ← classify_fld_source fld
  let isReg := fstp.op0.kind = .register
  let isDiscard := isReg ∧ fstp.op0.index = 0
  return ⟨2, beginNetZero
    ++ (if isDiscard then []
        else .load (st 0) 0 0 ::
          (if isReg then [.store (st fstp.op0.depth) 0]
           else [onGuest fun g s => env.storeFp fstp.op0 g (s.d 0)]))
    ++ emit_fld_value env cls fld 1 .next
    ++ [.store (st 0) 1, .finish 2]⟩

-- ========================================================== the groups

/-- A fusion that may be switched off. -/
def FusionConfig.unless (id : FusionId) (r : Option Fused) :
    Option Fused :=
  if cfg.disabled id then none else r

/-- `try_fuse_fld_group`. A transport reply under precise faults keeps the
lone pair, and with the finer split not even that. -/
def try_fuse_fld_group (instrs : List IRInstr) (cur next : IRInstr)
    (rest : List IRInstr) : Option Fused :=
  let lonePairOnly := c.nativeTransport && cfg.preciseFaults
  let noPair := lonePairOnly && cfg.preciseSplit
  (if noPair then none else
    cfg.unless .fild_fistp
      ((if lonePairOnly then none
        else try_fuse_fild_fistp_nested env cfg c instrs)
        <|> try_fuse_fild_fistp env cur next))
  <|> (match rest with
    | i2 :: i3 :: _ =>
        cfg.unless .fld_fld_fucompp
          (try_fuse_fld_fld_fucompp env c cur next i2 (some i3))
    | _ => none)
  <|> (match rest with
    | i2 :: _ =>
        cfg.unless .fld_arith_fstp
          (try_fuse_fld_arith_fstp env cur next i2)
        <|> cfg.unless .fld_arith_arithp
          (try_fuse_fld_arith_arithp env cfg cur next i2)
        <|> cfg.unless .fld_fcomp_fstsw
          (try_fuse_fld_fcomp_fstsw env c cur next i2)
        <|> cfg.unless .fld_fcompp_fstsw
          (try_fuse_fld_fcompp_fstsw env cur next i2)
        <|> cfg.unless .fld_fld_fucompp
          (try_fuse_fld_fld_fucompp env c cur next i2 none)
    | [] => none)
  <|> cfg.unless .fld_arithp (try_fuse_fld_arithp env cur next)
  <|> cfg.unless .fld_fstp_m80 (try_fuse_fld_fstp_m80 env cur next)
  <|> cfg.unless .fld_fstp (try_fuse_fld_fstp env cur next)
  <|> cfg.unless .fld_fcomp (try_fuse_fld_fcomp env cur next)
  <|> cfg.unless .fld_arith (try_fuse_fld_arith env cur next)

/-- `try_fuse_fxch_group`. -/
def try_fuse_fxch_group (cur next : IRInstr) (rest : List IRInstr) :
    Option Fused :=
  (match rest with
    | i2 :: _ =>
        cfg.unless .fxch_fcom_fstsw
          (try_fuse_fxch_fcom_fstsw env cur next i2)
    | [] => none)
  <|> cfg.unless .fxch_arithp (try_fuse_fxch_arithp env cur next)
  <|> cfg.unless .fxch_fstp (try_fuse_fxch_fstp cur next)
  <|> cfg.unless .fxch_fcom (try_fuse_fxch_fcom env cur next)

/-- `try_fuse_fcom_group`. -/
def try_fuse_fcom_group (cur next : IRInstr) : Option Fused :=
  cfg.unless .fcom_fstsw (try_fuse_fcom_fstsw env cur next)

/-- `try_fuse_arithp_group`. -/
def try_fuse_arithp_group (cur next : IRInstr) : Option Fused :=
  cfg.unless .arithp_fstp (try_fuse_arithp_fstp env cur next)

/-- `try_fuse_arith_group`. -/
def try_fuse_arith_group (cur next : IRInstr) : Option Fused :=
  cfg.unless .arith_faddp (try_fuse_arith_faddp env cfg cur next)
  <|> cfg.unless .arith_fstp (try_fuse_arith_fstp env cur next)

/-- `try_fuse_fstp_group`. -/
def try_fuse_fstp_group (cur next : IRInstr) (rest : List IRInstr) :
    Option Fused :=
  (match rest with
    | i2 :: _ =>
        cfg.unless .fstp_arith_fstp
          (try_fuse_fstp_arith_fstp env cur next i2)
    | [] => none)
  <|> cfg.unless .fstp_fld (try_fuse_fstp_fld env cur next)

/-- `try_peephole` on the instructions from the current one to the end of
the window. -/
def try_peephole (instrs : List IRInstr) : Option Fused :=
  match instrs with
  | cur :: next :: rest =>
      match cur.opcode with
      | .fld | .fild | .fldz | .fld1 | .fldl2e | .fldl2t | .fldlg2
      | .fldln2 | .fldpi =>
          try_fuse_fld_group env cfg c instrs cur next rest
      | .fxch => try_fuse_fxch_group env cfg cur next rest
      | .fcom | .fcomp | .fucom | .fucomp | .fcompp | .fucompp =>
          try_fuse_fcom_group env cfg cur next
      | .faddp | .fsubp | .fsubrp | .fmulp | .fdivp | .fdivrp =>
          try_fuse_arithp_group env cfg cur next
      | .fadd | .fsub | .fsubr | .fmul | .fdiv | .fdivr =>
          try_fuse_arith_group env cfg cur next
      | .fstp | .fstp_stack =>
          try_fuse_fstp_group env cfg cur next rest
      | _ => none
  | _ => none

end

end X87Sidecar
