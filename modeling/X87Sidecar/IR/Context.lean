/-
The IR of one x87 run (`X87IR.h`): nodes, the symbolic register stack and
the primitives the builder is written in.

A node's inputs are plain integers, as in the source: a node id, `-1` for
an unused slot, a negatively encoded guest register of a bridge node, or
one of `FStsw`'s payloads. A symbolic slot is one of the three things its
`int16_t` encodes: a node id, the marker of an initial slot, or the
sentinel left by a pop. The builder's primitives return a node id or
fail; what a failing primitive had already done stays (`Lib.Keep`).
-/
import X87Sidecar.IR.Bridge
import X87Sidecar.Machine.Guest
import X87Sidecar.Lib.Keep

namespace X87Sidecar

open Lib

/-- `kMaxNodes`. -/
def kMaxNodes : Nat := 128

/-- `kFcmovCondPF`: the condition "PF set", which no AArch64 condition
code expresses. -/
def kFcmovCondPF : Nat := 16

/-- `kFcmovCondNPF`. -/
def kFcmovCondNPF : Nat := 17

/-- `X87IR::Op`. -/
inductive Op
  | ReadSt | LoadF64 | LoadF32 | LoadI16 | LoadI32 | LoadI64
  | ConstZero | ConstOne | ConstF64
  | FAdd | FSub | FMul | FDiv
  | FMAdd | FMSub | FNMSub
  | FNeg | FAbs | FSqrt | FRndInt
  | FSin | FCos | FPatan | FPtan | FYl2x | FScale
  | FCSel
  | StoreF64 | StoreF32 | StoreI16 | StoreI32 | StoreI64
  | FCmp | FTst
  | FComI
  | FStsw
  | StoreCW | LoadCW
  | BridgeMovRR | BridgeMovRI | BridgeLea | BridgeLoadG | BridgeStoreG
  | BridgeExt
  | BridgeAluRR | BridgeAluRI | BridgeAluRM | BridgeAluMR
  deriving DecidableEq, Repr

/-- `BridgeAluKind`: the selector's value. -/
def AluKind.toNat : AluKind → Nat
  | .add => 0 | .sub => 1 | .and => 2 | .or => 3 | .xor => 4

/-- The selector of a value, if it is one. -/
def AluKind.ofNat? : Nat → Option AluKind
  | 0 => some .add | 1 => some .sub | 2 => some .and | 3 => some .or
  | 4 => some .xor | _ => none

/-- `NodeFlags`. -/
structure NodeFlags where
  /-- `kDead` -/
  dead : Bool := false
  /-- `kFcomFused` -/
  fcomFused : Bool := false
  /-- `kTruncate` -/
  truncate : Bool := false
  /-- `kFcomIPopping` -/
  fcomIPopping : Bool := false
  /-- `kFmaReduceHead` -/
  fmaReduceHead : Bool := false
  /-- `kFmaReduceMember` -/
  fmaReduceMember : Bool := false
  /-- `kBridge64` -/
  bridge64 : Bool := false
  deriving DecidableEq, Repr

/-- `bridge_encode_reg`: below -1, so no walk over inputs takes it for a
node. -/
def bridgeEncodeReg (r : Nat) : Int := -((r : Int) + 2)

/-- `bridge_decode_reg`. -/
def bridgeDecodeReg (e : Int) : Nat := (-(e + 2)).toNat

@[simp] theorem bridgeDecodeReg_encode (r : Nat) :
    bridgeDecodeReg (bridgeEncodeReg r) = r := by
  unfold bridgeDecodeReg bridgeEncodeReg
  omega

theorem bridgeEncodeReg_neg (r : Nat) : bridgeEncodeReg r < 0 := by
  unfold bridgeEncodeReg
  omega

/-- `X87IR::Node`. The last three fields are the payload union. -/
structure Node where
  op : Op
  flags : NodeFlags := {}
  in0 : Int := -1
  in1 : Int := -1
  in2 : Int := -1
  immBits : BitVec 64 := 0
  memOperand : Option IROperand := none
  initialDepth : Nat := 0
  deriving DecidableEq, Repr

/-- `for (short input : n.inputs)`. -/
def Node.inputs (n : Node) : List Int := [n.in0, n.in1, n.in2]

/-- The inputs that `node_ref_input_count` says are node references. -/
def Node.nodeRefs (n : Node) : List Int :=
  if n.op = .FStsw then [n.in0] else n.inputs

/-- A symbolic stack slot: what `slot_val[d]` encodes as `id`,
`-(depth + 1)` and `-100`. -/
inductive SlotVal
  | node (id : Nat)
  | initial (depth : Nat)
  | popped
  deriving DecidableEq, Repr

/-- `X87IR::Context`. Its counters are `int16_t`; a run is at most
`run_remaining` (also `int16_t`) instructions long and adds at most
`kMaxNodes` nodes, so none of them wraps. -/
structure Context where
  nodes : List Node := []
  /-- ordinal within the run of the instruction that made each node -/
  nodeSrc : List Nat := []
  slotVal : Fin 8 → SlotVal := fun d => .initial d
  topDelta : Int := 0
  /-- `initial_read`: the node that reads an initial slot, once made -/
  initialRead : Fin 8 → Option Nat := fun _ => none
  lastFcmp : Int := -1
  lastFcomi : Int := -1
  consumed : Nat := 0
  failOpcode : Option Opcode := none
  /-- `native_depths`: initial depths still holding an 80-bit value -/
  nativeDepths : Fin 8 → Bool := fun _ => false

/-- `Context::init`. -/
def Context.init : Context := {}

/-- `ctx.num_nodes`. -/
def Context.numNodes (c : Context) : Nat := c.nodes.length

/-- A step of the builder. -/
abbrev BuildM := Keep Context

namespace Context

/-- `Context::add_node`, with the payload the caller writes into the
fresh node right after. -/
def addNode (n : Node) : BuildM Nat := fun c =>
  if kMaxNodes ≤ c.numNodes then (none, c)
  else (some c.numNodes, { c with nodes := c.nodes ++ [n] })

theorem numNodes_concat (c : Context) (n : Node) :
    ({ c with nodes := c.nodes ++ [n] } : Context).numNodes
      = c.numNodes + 1 := List.length_append

/-- `slot_val[d] = v`. A decoded stack operand is `ST(0)` to `ST(7)`, so
the index is always inside. -/
def setSlot (d : Nat) (v : SlotVal) (c : Context) : Context :=
  if h : d < 8 then
    { c with slotVal := Function.update c.slotVal ⟨d, h⟩ v }
  else c

theorem setSlot_of_lt {d : Nat} (hd : d < 8) (v : SlotVal)
    (c : Context) : c.setSlot d v
      = { c with slotVal := Function.update c.slotVal ⟨d, hd⟩ v } :=
  dif_pos hd

/-- `Context::resolve`: the node holding the value at depth `d`, made by
a `ReadSt` if the slot still holds an initial value. -/
def resolve (d : Nat) : BuildM Nat := fun c =>
  if hd : d < 8 then
    match c.slotVal ⟨d, hd⟩ with
    | .node id => (some id, c)
    | .popped => (none, c)
    | .initial i =>
        if hi : i < 8 then
          match c.initialRead ⟨i, hi⟩ with
          | some id => (some id, c.setSlot d (.node id))
          | none =>
              match addNode { op := .ReadSt, initialDepth := i } c with
              | (none, c') => (none, c')
              | (some id, c') =>
                  (some id,
                    { c' with
                      initialRead :=
                        Function.update c'.initialRead ⟨i, hi⟩ (some id),
                      slotVal :=
                        Function.update c'.slotVal ⟨d, hd⟩ (.node id) })
        else (none, c)
  else (none, c)

/-- `Context::push`. -/
def push (id : Nat) (c : Context) : Context :=
  { c with
    slotVal := fun d =>
      if d.val = 0 then .node id else c.slotVal ⟨d.val - 1, by omega⟩,
    topDelta := c.topDelta - 1 }

/-- `Context::pop`. -/
def pop (c : Context) : Context :=
  { c with
    slotVal := fun d =>
      if h : d.val + 1 < 8 then c.slotVal ⟨d.val + 1, h⟩ else .popped,
    topDelta := c.topDelta + 1 }

end Context

end X87Sidecar
