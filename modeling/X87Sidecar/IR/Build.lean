/-
The IR builder (`X87IRBuild.cpp`): one instruction at a time, each either
consumed or the end of the run.

A builder step that fails keeps the nodes it had already appended, as the
source does, so the Context of a run that stopped early may end in nodes
of the instruction it stopped at. Every step that appends a node with a
side effect appends it last.
-/
import X87Sidecar.IR.Context

namespace X87Sidecar

open Lib Context

namespace Build

-- ============================================================ helpers

/-- `build_fp_load`. -/
def fpLoad (op : IROperand) : BuildM Nat :=
  match op.size with
  | .s32 => addNode { op := .LoadF32, memOperand := some op }
  | .s64 => addNode { op := .LoadF64, memOperand := some op }
  | _ => Keep.fail

/-- `build_int_load`. -/
def intLoad (op : IROperand) : BuildM Nat :=
  match op.size with
  | .s16 => addNode { op := .LoadI16, memOperand := some op }
  | .s32 => addNode { op := .LoadI32, memOperand := some op }
  | .s64 => addNode { op := .LoadI64, memOperand := some op }
  | _ => Keep.fail

/-- `build_fp_store`. -/
def fpStore (op : IROperand) (val : Nat) : BuildM Nat :=
  match op.size with
  | .s32 => addNode { op := .StoreF32, in0 := val, memOperand := some op }
  | .s64 => addNode { op := .StoreF64, in0 := val, memOperand := some op }
  | _ => Keep.fail

/-- `build_int_store`. -/
def intStore (op : IROperand) (val : Nat) (truncate : Bool) :
    BuildM Nat :=
  match op.size with
  | .s16 => addNode { op := .StoreI16, in0 := val, memOperand := some op,
                      flags := { truncate } }
  | .s32 => addNode { op := .StoreI32, in0 := val, memOperand := some op,
                      flags := { truncate } }
  | .s64 => addNode { op := .StoreI64, in0 := val, memOperand := some op,
                      flags := { truncate } }
  | _ => Keep.fail

/-- A load of constant bits, or of one of the two constants with a node
of their own, pushed. -/
def pushNode (n : Node) : BuildM Unit := do
  let id ← addNode n
  Keep.modify (push id)

/-- `build_const`, pushed. -/
def pushConst (bits : BitVec 64) : BuildM Unit :=
  pushNode { op := .ConstF64, immBits := bits }

/-- `ST(d) := op(a, b)`, operands swapped when `reversed`. -/
def binary (op : Op) (reversed : Bool) (a b d : Nat) : BuildM Unit := do
  let id ← if reversed then addNode { op, in0 := b, in1 := a }
           else addNode { op, in0 := a, in1 := b }
  Keep.modify (setSlot d (.node id))

/-- Two operands, tested together: the second is resolved also when the
first is not, so its `ReadSt` and its slot stay behind a failure. -/
def resolveBoth (d e : Nat) : BuildM (Nat × Nat) :=
  Keep.both (resolve d) (resolve e)

/-- `build_arith`. -/
def arith (instr : IRInstr) (op : Op) (reversed : Bool) : BuildM Unit :=
  if instr.op0.kind = .register then do
    let dst := instr.op0.index
    let (dstVal, srcVal) ← resolveBoth dst instr.op1.index
    binary op reversed dstVal srcVal dst
  else do
    let st0 ← resolve 0
    let mem ← fpLoad instr.op0
    binary op reversed st0 mem 0

/-- `build_arithp`. -/
def arithp (instr : IRInstr) (op : Op) (reversed : Bool) : BuildM Unit := do
  let dst := instr.op0.index
  let (dstVal, srcVal) ← resolveBoth dst 0
  binary op reversed dstVal srcVal dst
  Keep.modify pop

/-- `fiadd` and its family: `ST(0)` with an integer from memory. -/
def iarith (instr : IRInstr) (op : Op) (reversed : Bool) : BuildM Unit := do
  let st0 ← resolve 0
  let mem ← intLoad instr.op0
  binary op reversed st0 mem 0

/-- `ST(0) := op(ST(0))`. -/
def unary (op : Op) : BuildM Unit := do
  let st0 ← resolve 0
  let id ← addNode { op, in0 := st0 }
  Keep.modify (setSlot 0 (.node id))

/-- `fpatan` and `fyl2x`: `ST(1) := op(ST(1), ST(0))`, then pop. -/
def binaryPop (op : Op) : BuildM Unit := do
  let (st0, st1) ← resolveBoth 0 1
  let id ← addNode { op, in0 := st1, in1 := st0 }
  Keep.modify (setSlot 1 (.node id))
  Keep.modify pop

/-- `fscale`: `ST(0) := op(ST(0), ST(1))`. -/
def scale : BuildM Unit := do
  let (st0, st1) ← resolveBoth 0 1
  let id ← addNode { op := .FScale, in0 := st0, in1 := st1 }
  Keep.modify (setSlot 0 (.node id))

/-- `fsincos`: sine in place, cosine pushed. -/
def sincos : BuildM Unit := do
  let orig ← resolve 0
  let sinId ← addNode { op := .FSin, in0 := orig }
  let cosId ← addNode { op := .FCos, in0 := orig }
  Keep.modify (setSlot 0 (.node sinId))
  Keep.modify (push cosId)

/-- `fptan`: tangent in place, 1.0 pushed. -/
def ptan : BuildM Unit := do
  let st0 ← resolve 0
  let tanId ← addNode { op := .FPtan, in0 := st0 }
  let oneId ← addNode { op := .ConstOne }
  Keep.modify (setSlot 0 (.node tanId))
  Keep.modify (push oneId)

/-- `fld`: the source of the register form is `operands[1]`. -/
def fld (instr : IRInstr) : BuildM Unit := do
  let val ← if instr.op0.kind = .register then resolve instr.op1.index
            else fpLoad instr.op0
  Keep.modify (push val)

/-- `fild`. -/
def fild (instr : IRInstr) : BuildM Unit := do
  let val ← intLoad instr.op0
  Keep.modify (push val)

/-- `if (is_pop) ctx.pop()`. -/
def popIf (isPop : Bool) : BuildM Unit :=
  Keep.modify fun c => if isPop then c.pop else c

/-- The two destinations of `fst`: another register, or memory. -/
def fstTo (op : IROperand) (st0 : Nat) : BuildM Unit :=
  if op.kind = .register then
    let dst := op.index
    if dst ≠ 0 then Keep.modify (setSlot dst (.node st0)) else pure ()
  else do
    let _ ← fpStore op st0

/-- `fst`, `fstp` and their stack forms. -/
def fst (instr : IRInstr) (isPop : Bool) : BuildM Unit := do
  let st0 ← resolve 0
  fstTo instr.op0 st0
  popIf isPop

/-- `fist`, `fistp` and `fisttp`. -/
def fist (instr : IRInstr) (isPop truncate : Bool) : BuildM Unit := do
  let st0 ← resolve 0
  let _ ← intStore instr.op0 st0 truncate
  popIf isPop

/-- Pop `n` times. -/
def pops (n : Nat) (c : Context) : Context := pop^[n] c

/-- The comparison node of the `fcom` family; `last_fcmp` remembers it. -/
def compare (lhs rhs : Nat) (numPops : Nat) : BuildM Unit := do
  let id ← addNode { op := .FCmp, in0 := lhs, in1 := rhs }
  Keep.modify fun c => pops numPops { c with lastFcmp := id }

/-- `build_fcom`. -/
def fcom (instr : IRInstr) (numPops : Nat) (isFcompp : Bool) :
    BuildM Unit := do
  let lhs ← resolve 0
  let rhs ← if isFcompp then resolve 1
            else if instr.op1.kind = .register then resolve instr.op1.index
            else fpLoad instr.op1
  compare lhs rhs numPops

/-- `build_ficom`. -/
def ficom (instr : IRInstr) (isPopping : Bool) : BuildM Unit := do
  let lhs ← resolve 0
  let rhs ← intLoad instr.op0
  compare lhs rhs (if isPopping then 1 else 0)

/-- `ftst`. -/
def ftst : BuildM Unit := do
  let st0 ← resolve 0
  let id ← addNode { op := .FTst, in0 := st0 }
  Keep.modify fun c => { c with lastFcmp := id }

/-- `build_fcomi`. -/
def fcomi (instr : IRInstr) (isPopping : Bool) : BuildM Unit := do
  let st0 ← resolve 0
  let src ← resolve instr.op1.index
  let id ← addNode { op := .FComI, in0 := st0, in1 := src,
                     flags := { fcomIPopping := isPopping } }
  Keep.modify fun c =>
    pops (if isPopping then 1 else 0) { c with lastFcomi := id }

/-- `build_fcmov`: refused unless a comparison of this run set NZCV. -/
def fcmov (instr : IRInstr) (cond : Nat) : BuildM Unit := do
  let c ← Keep.get
  if c.lastFcomi < 0 then Keep.fail
  else
    let st0 ← resolve 0
    let src ← resolve instr.op1.index
    let id ← addNode { op := .FCSel, in0 := st0, in1 := src,
                       immBits := BitVec.ofNat 64 cond }
    Keep.modify (setSlot 0 (.node id))

/-- `fxch`: the two slots are resolved so that the epilogue can track the
swap. The source does not look at what `resolve` returned. -/
def fxch (instr : IRInstr) : BuildM Unit :=
  let depth := instr.op1.index
  if 0 < depth ∧ depth < 8 then do
    Keep.ignore (resolve 0)
    Keep.ignore (resolve depth)
    Keep.modify fun c =>
      let d : Fin 8 := Fin.ofNat 8 depth
      { c with slotVal := Function.update (Function.update c.slotVal 0
          (c.slotVal d)) d (c.slotVal 0) }
  else Keep.fail

/-- `fstsw`: only the register form. The inputs are the comparison to
fuse with, the destination register and the `top_delta` snapshot. -/
def fstsw (instr : IRInstr) : BuildM Unit := do
  if instr.op0.kind ≠ .register then Keep.fail
  else
    let c ← Keep.get
    let _ ← addNode { op := .FStsw, in0 := c.lastFcmp,
                      in1 := instr.op0.index, in2 := c.topDelta }

/-- `fldcw` and `fnstcw`. -/
def controlWord (instr : IRInstr) (op : Op) : BuildM Unit := do
  let _ ← addNode { op, memOperand := some instr.op0 }

-- ====================================================== bridge nodes

/-- Append a bridge node. -/
def bridgeNode (n : Node) : BuildM Unit := do
  let _ ← addNode n

/-- `width_flag`. -/
def widthFlag (reg : IROperand) : NodeFlags :=
  { bridge64 := reg.size = .s64 }

/-- The selector of a v2 ALU opcode (`alu_kind`). -/
def aluKind : Opcode → Option AluKind
  | .add => some .add
  | .sub => some .sub
  | .and => some .and
  | .or => some .or
  | .xor => some .xor
  | _ => none

/-- `build_bridge`, the `mov` branch. -/
def bridgeMov (dst src : IROperand) : BuildM Unit :=
  if dst.kind = .register then
    let enc := bridgeEncodeReg dst.index
    match src.kind with
    | .register =>
        bridgeNode { op := .BridgeMovRR, in0 := enc,
                     in1 := bridgeEncodeReg src.index,
                     flags := widthFlag dst }
    | .branchOffset =>
        bridgeNode { op := .BridgeMovRI, in0 := enc,
                     immBits := src.value, flags := widthFlag dst }
    | .memRef =>
        bridgeNode { op := .BridgeLoadG, in0 := enc,
                     memOperand := some src, flags := widthFlag dst }
    | _ => Keep.fail
  else if dst.kind = .memRef ∧ src.kind = .register then
    bridgeNode { op := .BridgeStoreG, in0 := bridgeEncodeReg src.index,
                 memOperand := some dst, flags := widthFlag src }
  else Keep.fail

/-- The source class of a `movzx`, `movsx` or `movsxd`. -/
def extClass (src : IROperand) : Nat :=
  match src.size with
  | .s8 => if src.reg &&& 0xF0 = 0x10 then 1 else 0
  | .s16 => 2
  | _ => 3

/-- `build_bridge`, the extending moves. -/
def bridgeExt (dst src : IROperand) (signed : Bool) : BuildM Unit :=
  bridgeNode { op := .BridgeExt, in0 := bridgeEncodeReg dst.index,
               in1 := bridgeEncodeReg src.index, flags := widthFlag dst,
               immBits := BitVec.ofNat 64
                 (extClass src + if signed then 4 else 0) }

/-- `build_bridge`, the ALU branch. -/
def bridgeAlu (kind : AluKind) (dst src : IROperand) : BuildM Unit :=
  let kindEnc := bridgeEncodeReg kind.toNat
  if dst.kind = .register then
    let enc := bridgeEncodeReg dst.index
    match src.kind with
    | .register =>
        bridgeNode { op := .BridgeAluRR, in0 := enc,
                     in1 := bridgeEncodeReg src.index, in2 := kindEnc,
                     flags := widthFlag dst }
    | .branchOffset =>
        bridgeNode { op := .BridgeAluRI, in0 := enc, in2 := kindEnc,
                     immBits := src.value, flags := widthFlag dst }
    | .memRef =>
        bridgeNode { op := .BridgeAluRM, in0 := enc, in2 := kindEnc,
                     memOperand := some src, flags := widthFlag dst }
    | _ => Keep.fail
  else if dst.kind = .memRef ∧ src.kind = .register then
    bridgeNode { op := .BridgeAluMR, in0 := bridgeEncodeReg src.index,
                 in2 := kindEnc, memOperand := some dst,
                 flags := widthFlag src }
  else Keep.fail

/-- `build_bridge`. -/
def bridge (instr : IRInstr) : BuildM Unit :=
  let dst := instr.op0
  let src := instr.op1
  match instr.opcode with
  | .wait => pure ()
  | .mov => bridgeMov dst src
  | .lea =>
      bridgeNode { op := .BridgeLea, memOperand := some src,
                   in0 := bridgeEncodeReg dst.index,
                   flags := widthFlag dst }
  | .movzx => bridgeExt dst src false
  | .movsx => bridgeExt dst src true
  | .movsxd => bridgeExt dst src true
  | .inc =>
      bridgeNode { op := .BridgeAluRI,
                   in0 := bridgeEncodeReg dst.index,
                   in2 := bridgeEncodeReg AluKind.add.toNat, immBits := 1,
                   flags := widthFlag dst }
  | .dec =>
      bridgeNode { op := .BridgeAluRI,
                   in0 := bridgeEncodeReg dst.index,
                   in2 := bridgeEncodeReg AluKind.sub.toNat, immBits := 1,
                   flags := widthFlag dst }
  | op =>
      match aluKind op with
      | some kind => bridgeAlu kind dst src
      | none => Keep.fail

/-- Which bridging the caller allows. -/
structure BridgeMode where
  allow : Bool := false
  v2 : Bool := false

/-- May this instruction be bridged? -/
def BridgeMode.accepts (mode : BridgeMode) (instr : IRInstr) : Bool :=
  mode.allow && if mode.v2 then Bridge.isBridgeV2Proven instr
                else Bridge.isBridgeV1 instr

/-- The default arm: a bridge instruction, or the end of the run. -/
def otherwise (mode : BridgeMode) (instr : IRInstr) : BuildM Unit :=
  if mode.accepts instr then bridge instr
  else do
    Keep.modify fun c => { c with failOpcode := some instr.opcode }
    Keep.fail

-- ======================================================= the main loop

/-- The `switch` of `build`. -/
def instr (mode : BridgeMode) (i : IRInstr) : BuildM Unit :=
  match i.opcode with
  | .fldz => pushNode { op := .ConstZero }
  | .fld1 => pushNode { op := .ConstOne }
  | .fldl2e => pushConst 0x3FF71547652B82FE
  | .fldl2t => pushConst 0x400A934F0979A371
  | .fldlg2 => pushConst 0x3FD34413509F79FF
  | .fldln2 => pushConst 0x3FE62E42FEFA39EF
  | .fldpi => pushConst 0x400921FB54442D18
  | .fld => fld i
  | .fild => fild i
  | .fst | .fst_stack => fst i false
  | .fstp | .fstp_stack => fst i true
  | .fist => fist i false false
  | .fistp => fist i true false
  | .fisttp => fist i true true
  | .fadd => arith i .FAdd false
  | .fsub => arith i .FSub false
  | .fsubr => arith i .FSub true
  | .fmul => arith i .FMul false
  | .fdiv => arith i .FDiv false
  | .fdivr => arith i .FDiv true
  | .fiadd => iarith i .FAdd false
  | .fisub => iarith i .FSub false
  | .fisubr => iarith i .FSub true
  | .fimul => iarith i .FMul false
  | .fidiv => iarith i .FDiv false
  | .fidivr => iarith i .FDiv true
  | .faddp => arithp i .FAdd false
  | .fsubp => arithp i .FSub false
  | .fsubrp => arithp i .FSub true
  | .fmulp => arithp i .FMul false
  | .fdivp => arithp i .FDiv false
  | .fdivrp => arithp i .FDiv true
  | .fchs => unary .FNeg
  | .fabs => unary .FAbs
  | .fsqrt => unary .FSqrt
  | .frndint => unary .FRndInt
  | .fsin => unary .FSin
  | .fcos => unary .FCos
  | .fsincos => sincos
  | .fptan => ptan
  | .fpatan => binaryPop .FPatan
  | .fyl2x => binaryPop .FYl2x
  | .fscale => scale
  | .fxch => fxch i
  | .fcom | .fucom => fcom i 0 false
  | .fcomp | .fucomp => fcom i 1 false
  | .fcompp | .fucompp => fcom i 2 true
  | .ficom => ficom i false
  | .ficomp => ficom i true
  | .fcomi | .fucomi => fcomi i false
  | .fcomip | .fucomip => fcomi i true
  | .fcmovb => fcmov i 3
  | .fcmovbe => fcmov i 9
  | .fcmove => fcmov i 0
  | .fcmovnb => fcmov i 2
  | .fcmovnbe => fcmov i 8
  | .fcmovne => fcmov i 1
  | .fcmovu => fcmov i kFcmovCondPF
  | .fcmovnu => fcmov i kFcmovCondNPF
  | .ftst => ftst
  | .fstsw => fstsw i
  | .fldcw => controlWord i .StoreCW
  | .fnstcw => controlWord i .LoadCW
  | .fnop => pure ()
  | _ => otherwise mode i

/-- Attribute the nodes instruction `k` appended to it. -/
def attributeTo (k : Nat) (before after : Context) : Context :=
  { after with nodeSrc := after.nodeSrc ++
      List.replicate (after.numNodes - before.numNodes) k }

/-- One turn of the loop: the Context after instruction `k`, and whether
it was consumed. -/
def turn (mode : BridgeMode) (k : Nat) (i : IRInstr) (c : Context) :
    Bool × Context :=
  if i.hasSegmentOverride then
    (false, { c with failOpcode := some i.opcode })
  else
    match instr mode i c with
    | (some (), c') => (true, { attributeTo k c c' with consumed := k + 1 })
    | (none, c') => (false, attributeTo k c c')

/-- The loop from instruction `k` on. -/
def loop (mode : BridgeMode) (k : Nat) : List IRInstr → Context → Context
  | [], c => c
  | i :: rest, c =>
      match turn mode k i c with
      | (true, c') => loop mode (k + 1) rest c'
      | (false, c') => c'

end Build

/-- `X87IR::build` over the instructions of one run: the Context, whose
`consumed` is how many of them it took. -/
def build (mode : Build.BridgeMode) (run : List IRInstr) : Context :=
  Build.loop mode 0 run Context.init

/-- What `X87IR::build` returns. -/
def buildOk (c : Context) : Bool := 2 ≤ c.consumed

end X87Sidecar
