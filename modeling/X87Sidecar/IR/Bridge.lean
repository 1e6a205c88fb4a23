/-
Which integer instructions may be carried inside an x87 run
(`X87Bridge.h`). Shapes only: the lookahead that strings them together is
elsewhere.
-/
import X87Sidecar.IR.Instr

namespace X87Sidecar

namespace Bridge

/-- `gpr_32_or_64`. -/
def gpr32Or64 (op : IROperand) : Bool :=
  op.kind = .register && (op.size = .s32 || op.size = .s64) && regIsGpr op.reg

/-- `mem_32_or_64`. -/
def mem32Or64 (op : IROperand) : Bool :=
  op.kind = .memRef && op.segOverride = 0 && (op.size = .s32 || op.size = .s64)

/-- `plain_immediate`: Rosetta encodes plain immediates as branch offsets;
the immediate kind carries fixup targets. -/
def plainImmediate (op : IROperand) : Bool := op.kind = .branchOffset

/-- The two-operand shape shared by `mov` and the v2 ALU instructions. -/
def movShape (ins : IRInstr) : Bool :=
  ins.numOperands = 2 &&
    if gpr32Or64 ins.op0 then
      gpr32Or64 ins.op1 || plainImmediate ins.op1 || mem32Or64 ins.op1
    else
      mem32Or64 ins.op0 && gpr32Or64 ins.op1

/-- The source register of a `movzx`, `movsx` or `movsxd`. -/
def extShape (ins : IRInstr) : Bool :=
  ins.numOperands = 2 && gpr32Or64 ins.op0 &&
    ins.op1.kind = .register && regIsGpr ins.op1.reg &&
    match ins.op1.size with
    | .s8 => (ins.op1.reg &&& 0xF0).toNat ≤ 0x10
    | .s16 => true
    | .s32 => ins.opcode = .movsxd
    | _ => false

/-- `is_bridge_v1`. -/
def isBridgeV1 (ins : IRInstr) : Bool :=
  ins.repPrefix = 0 &&
    match ins.opcode with
    | .mov => movShape ins
    | .lea =>
        ins.numOperands = 2 && gpr32Or64 ins.op0 &&
          ins.op1.kind = .memRef && ins.op1.segOverride = 0
    | .movzx | .movsx | .movsxd => extShape ins
    | .wait => true
    | _ => false

/-- `is_bridge_v2`. -/
def isBridgeV2 (ins : IRInstr) : Bool :=
  isBridgeV1 ins ||
    (ins.repPrefix = 0 &&
      match ins.opcode with
      | .add | .sub | .and | .or | .xor => movShape ins
      | .inc | .dec => ins.numOperands = 1 && gpr32Or64 ins.op0
      | _ => false)

/-- `flags_dead`: no flag the instruction writes is live out of it. -/
def flagsDead (ins : IRInstr) : Bool := ins.flagLiveness = 0

/-- `is_bridge_v2_proven`. -/
def isBridgeV2Proven (ins : IRInstr) : Bool :=
  isBridgeV1 ins || (isBridgeV2 ins && flagsDead ins)

end Bridge

end X87Sidecar
