/-
What a Context means: the effect of running the code `lower` makes of it,
one node at a time, with register allocation abstracted away.

A node's value is in `env` at its id, where `lower` would keep an FPR for
it. Slots of the x87 stack are read as they were on entry (the body writes
none) and written once at the end, by the epilogue. The three things a
pass may ask of `lower` through flags are here as well: dead nodes are
skipped; the members of a multiply-add reduction are skipped and its head
issues every load of the chain; a fused comparison leaves its packed
condition codes in a register of its own and the fused `FStsw` reads and
releases it.

# What is abstracted

Register allocation, and the one instruction with which `lower` may do
adjacent single-precision stores of one value. The cached rounding mode
does not appear.
-/
import X87Sidecar.IR.Context
import X87Sidecar.Machine.Reference

namespace X87Sidecar

open Lib

variable {V : Type}

/-- The state between two nodes: the guest, the value of each node, and
the registers that hold packed condition codes. -/
structure Exec (V : Type) where
  guest : Guest
  env : Nat → V
  packed : Nat → Option (BitVec 16)

namespace Exec

/-- `fprs.get(input)`. -/
def val (x : Exec V) (input : Int) : V := x.env input.toNat

/-- `node_fpr[id] = Dd`, with the value put in `Dd`. -/
def assign (x : Exec V) (id : Nat) (v : V) : Exec V :=
  { x with env := Function.update x.env id v }

end Exec

/-- The memory operand of a node that has one. -/
def Node.mem (n : Node) : IROperand :=
  n.memOperand.getD ⟨.memRef, .s8, 0, 0, 0, 0, 0, 0, 0⟩

namespace Denote

-- ======================================================= single nodes

/-- An `FCSel` condition (`emit_fcmov_select`): an AArch64 condition
code, where the carry flag holds the inverse of CF, or one of the two PF
conditions. -/
def condHolds (f : Flags) : Nat → Bool
  | 0 => f.zf
  | 1 => !f.zf
  | 2 => !f.cf
  | 3 => f.cf
  | 8 => !f.cf && !f.zf
  | 9 => f.cf || f.zf
  | 16 => f.pf
  | 17 => !f.pf
  | _ => false

/-- The rounding control an integer store obeys. -/
def storeRc (n : Node) (g : Guest) : BitVec 2 :=
  if n.flags.truncate then rcTruncate else g.rc

/-- A comparison's condition codes: into a register when the comparison
is fused with its reader, else into the status word. -/
def compareNode (id : Nat) (n : Node) (cc : BitVec 16) (x : Exec V) :
    Exec V :=
  if n.flags.fcomFused then
    { x with packed := Function.update x.packed id (some cc) }
  else { x with guest := x.guest.setCC cc }

/-- A fused `FStsw` first writes the packed codes back and frees their
register. A comparison whose register is gone reads as `WZR`. -/
def unpack (n : Node) (x : Exec V) : Exec V :=
  if n.flags.fcomFused then
    { x with
      guest := x.guest.setCC ((x.packed n.in0.toNat).getD 0),
      packed := Function.update x.packed n.in0.toNat none }
  else x

/-- The status word an `FStsw` hands out: TOP is patched when the run has
moved it. -/
def statusWord (top : BitVec 3) (td : Int) (sw : BitVec 16) :
    BitVec 16 :=
  if td = 0 then sw else withTop sw (top + BitVec.ofInt 3 td)

/-- `FStsw`. -/
def stsw (top : BitVec 3) (n : Node) (x : Exec V) : Exec V :=
  let x := unpack n x
  { x with
    guest := x.guest.setReg16 n.in1.toNat
      (statusWord top n.in2 x.guest.sw) }

/-- The source of a `BridgeExt`: `imm_bits` 1:0 select the class, bit 2
the sign extension. -/
def extSource (g : Guest) (imm : BitVec 64) (r : Nat) : BitVec 64 :=
  let cls := (imm &&& 3).toNat
  let lsb := if cls = 1 then 8 else 0
  let width := if cls = 3 then 32 else if cls = 2 then 16 else 8
  bitField (imm &&& 4 ≠ 0) lsb width (g.regs r)

/-- The selector a `BridgeAlu*` node carries. -/
def aluOf (n : Node) : AluKind :=
  (AluKind.ofNat? (bridgeDecodeReg n.in2)).getD .add

/-- One node of `lower`'s switch, reductions apart. -/
def execOp (fp : Fp V) (init : X87 V) (id : Nat) (n : Node)
    (x : Exec V) : Exec V :=
  let g := x.guest
  let a := x.val n.in0
  let b := x.val n.in1
  let c := x.val n.in2
  let wide := n.flags.bridge64
  let r0 := bridgeDecodeReg n.in0
  let r1 := bridgeDecodeReg n.in1
  match n.op with
  | .ReadSt => x.assign id (init.get n.initialDepth)
  | .LoadF64 => x.assign id (fp.ofF64 (g.read n.mem 8))
  | .LoadF32 => x.assign id (fp.ofF32 (g.read n.mem 4))
  | .LoadI16 => x.assign id (fp.ofI16 (g.read n.mem 2))
  | .LoadI32 => x.assign id (fp.ofI32 (g.read n.mem 4))
  | .LoadI64 => x.assign id (fp.ofI64 (g.read n.mem 8))
  | .ConstZero => x.assign id fp.zero
  | .ConstOne => x.assign id fp.one
  | .ConstF64 => x.assign id (fp.ofF64 n.immBits)
  | .FAdd => x.assign id (fp.add a b)
  | .FSub => x.assign id (fp.sub a b)
  | .FMul => x.assign id (fp.mul a b)
  | .FDiv => x.assign id (fp.div a b)
  | .FMAdd => x.assign id (fp.fma a b c)
  | .FMSub => x.assign id (fp.fms a b c)
  | .FNMSub => x.assign id (fp.fnms a b c)
  | .FNeg => x.assign id (fp.neg a)
  | .FAbs => x.assign id (fp.abs a)
  | .FSqrt => x.assign id (fp.sqrt a)
  | .FRndInt => x.assign id (fp.rndint g.rc a)
  | .FSin => { x.assign id (fp.sin a) with guest := g.setCC 0 }
  | .FCos => { x.assign id (fp.cos a) with guest := g.setCC 0 }
  | .FPtan => { x.assign id (fp.tan a) with guest := g.setCC 0 }
  | .FPatan => x.assign id (fp.patan a b)
  | .FYl2x => x.assign id (fp.yl2x a b)
  | .FScale => x.assign id (fp.scale a b)
  | .FCSel =>
      x.assign id (if condHolds g.flags n.immBits.toNat then b else a)
  | .StoreF64 => { x with guest := g.write n.mem 8 (fp.toF64 a) }
  | .StoreF32 => { x with guest := g.write n.mem 4 (fp.toF32 a) }
  | .StoreI16 =>
      { x with guest := g.write n.mem 2 (fp.toI16 (storeRc n g) a) }
  | .StoreI32 =>
      { x with guest := g.write n.mem 4 (fp.toI32 (storeRc n g) a) }
  | .StoreI64 =>
      { x with guest := g.write n.mem 8 (fp.toI64 (storeRc n g) a) }
  | .FCmp => compareNode id n (fp.cmp a b).cc x
  | .FTst => compareNode id n (fp.cmp a fp.zero).cc x
  | .FComI => { x with guest := { g with flags := (fp.cmp a b).flags } }
  | .FStsw => stsw init.top n x
  | .StoreCW =>
      { x with guest := g.setControlWord (g.read n.mem 2) }
  | .LoadCW => { x with guest := g.write n.mem 2 g.cw }
  | .BridgeMovRR =>
      { x with guest := g.setReg r0 (truncReg wide (g.regs r1)) }
  | .BridgeMovRI =>
      { x with guest := g.setReg r0 (truncReg wide n.immBits) }
  | .BridgeLea =>
      { x with guest := g.setReg r0 (truncReg wide (g.address n.mem)) }
  | .BridgeLoadG =>
      { x with guest := g.setReg r0 (truncReg wide (g.readInt n.mem wide)) }
  | .BridgeStoreG =>
      { x with guest := g.writeInt n.mem wide (g.regs r0) }
  | .BridgeExt =>
      let v := extSource g n.immBits r1
      { x with guest := g.setReg r0 (truncReg wide v) }
  | .BridgeAluRR =>
      let v := (aluOf n).eval (g.regs r0) (g.regs r1)
      { x with guest := g.setReg r0 (truncReg wide v) }
  | .BridgeAluRI =>
      let v := (aluOf n).eval (g.regs r0) n.immBits
      { x with guest := g.setReg r0 (truncReg wide v) }
  | .BridgeAluRM =>
      let v := (aluOf n).eval (g.regs r0) (g.readInt n.mem wide)
      { x with guest := g.setReg r0 (truncReg wide v) }
  | .BridgeAluMR =>
      let v := (aluOf n).eval (g.readInt n.mem wide) (g.regs r0)
      { x with guest := g.writeInt n.mem wide v }

/-- How many of its inputs a node takes a value from. -/
def arity : Op → Nat
  | .FMAdd | .FMSub | .FNMSub => 3
  | .FAdd | .FSub | .FMul | .FDiv | .FPatan | .FYl2x | .FScale
  | .FCSel | .FCmp | .FComI => 2
  | .FNeg | .FAbs | .FSqrt | .FRndInt | .FSin | .FCos | .FPtan
  | .StoreF64 | .StoreF32 | .StoreI16 | .StoreI32 | .StoreI64
  | .FTst => 1
  | _ => 0

/-- The values a node computes with are those of nodes. -/
def Operands (n : Node) : Prop :=
  ∀ a ∈ n.inputs.take (arity n.op), 0 ≤ a

-- ========================================================= reductions

/-- The next member of a reduction chain after `tail`: the first live
tagged multiply-add past it that accumulates onto it. -/
def nextMember (nodes : List Node) (tail : Nat) : Option Nat :=
  (List.range nodes.length).find? fun j =>
    tail < j && match nodes[j]? with
      | some m => !m.flags.dead && m.op = .FMAdd
          && m.flags.fmaReduceMember && m.in2 = tail
      | none => false

/-- The re-walk of `lower_fma_reduce` from `tail` on; `fuel` bounds the
chain by `kMaxNodes`. -/
def rewalk (nodes : List Node) : (fuel : Nat) → (tail : Nat) → List Nat
  | 0, _ => []
  | fuel + 1, tail =>
      match nextMember nodes tail with
      | some next => next :: rewalk nodes fuel next
      | none => []

/-- The chain of a head. -/
def chainOf (nodes : List Node) (head : Nat) : List Nat :=
  head :: rewalk nodes (kMaxNodes - 1) head

/-- The operand of a load. -/
def loadMem (nodes : List Node) (l : Int) : IROperand :=
  ((nodes[l.toNat]?).map Node.mem).getD
    ⟨.memRef, .s8, 0, 0, 0, 0, 0, 0, 0⟩

/-- The loads of one stream of a reduction: those on one side of the
products of its chain. -/
def streamLoads (nodes : List Node) (side : Node → Int)
    (chain : List Nat) : List Int :=
  chain.filterMap fun k => nodes[k]?.map side

/-- Their operands. -/
def streamMems (nodes : List Node) (side : Node → Int)
    (chain : List Nat) : List IROperand :=
  (streamLoads nodes side chain).map (loadMem nodes)

/-- `elem_size`. -/
def elemSize (elem : Op) : BitVec 64 := if elem = .LoadF64 then 8 else 4

/-- One element read at an address, at the width of the chain
(`elem_op`). -/
def elemAt (fp : Fp V) (elem : Op) (g : Guest) (a : BitVec 64) : V :=
  if elem = .LoadF64 then fp.ofF64 (g.mem.load a 8)
  else fp.ofF32 (g.mem.load a 4)

/-- `contig_l` and `contig_w`: the second displacement of the stream is
one element past the first. -/
def contiguous (elem : Op) : List IROperand → Bool
  | a :: b :: _ => b.value - a.value = elemSize elem
  | _ => false

/-- `load_fma_pair_v2d`: where the two lanes of a pair are read. A
contiguous pair is one load, at the address of its first operand. -/
def loadFmaPair (g : Guest) (elem : Op) (contig : Bool)
    (a b : IROperand) : BitVec 64 × BitVec 64 :=
  (g.address a,
    if contig then g.address a + elemSize elem else g.address b)

/-- Where the elements of one stream are read: pair by pair, and a last
one without a partner by itself. -/
def streamAddrs (g : Guest) (elem : Op) (contig : Bool) :
    List IROperand → List (BitVec 64)
  | a :: b :: rest =>
      (loadFmaPair g elem contig a b).1
        :: (loadFmaPair g elem contig a b).2
        :: streamAddrs g elem contig rest
  | [a] => [g.address a]
  | [] => []

/-- What a reduction reads for one of its streams. -/
def streamVals (fp : Fp V) (nodes : List Node) (elem : Op) (g : Guest)
    (side : Node → Int) (chain : List Nat) : List V :=
  let ops := streamMems nodes side chain
  (streamAddrs g elem (contiguous elem ops) ops).map (elemAt fp elem g)

/-- The two lanes of the accumulator: even terms go to the first, odd
terms to the second, and a last term without a partner to their sum. -/
def lanes (fp : Fp V) : V → V → List (V × V) → V
  | a, b, t :: t' :: rest =>
      lanes fp (fp.fma t.1 t.2 a) (fp.fma t'.1 t'.2 b) rest
  | a, b, [t] => fp.fma t.1 t.2 (fp.add a b)
  | a, b, [] => fp.add a b

/-- `lower_fma_reduce`: the whole chain at its head, the result in the
tail's register. -/
def execReduce (fp : Fp V) (nodes : List Node) (head : Nat) (n : Node)
    (x : Exec V) : Exec V :=
  let chain := chainOf nodes head
  let elem := ((nodes[n.in0.toNat]?).map Node.op).getD .LoadF32
  let data := streamVals fp nodes elem x.guest Node.in0 chain
  let weights := streamVals fp nodes elem x.guest Node.in1 chain
  x.assign (chain.getLastD head)
    (lanes fp (x.val n.in2) fp.zero (data.zip weights))

-- =========================================================== the body

/-- A node of the body of `lower`. -/
def execNode (fp : Fp V) (init : X87 V) (nodes : List Node) (id : Nat)
    (n : Node) (x : Exec V) : Exec V :=
  if n.flags.dead then x
  else if n.flags.fmaReduceMember && !n.flags.fmaReduceHead then x
  else if n.op = .FMAdd && n.flags.fmaReduceHead then
    execReduce fp nodes id n x
  else execOp fp init id n x

/-- The first `k` nodes. -/
def execTo (fp : Fp V) (init : X87 V) (nodes : List Node)
    (x : Exec V) : Nat → Exec V
  | 0 => x
  | k + 1 =>
      match nodes[k]? with
      | some n =>
          execNode fp init nodes k n (execTo fp init nodes x k)
      | none => execTo fp init nodes x k

theorem execTo_succ {fp : Fp V} {init : X87 V} {nodes : List Node}
    {x : Exec V} {k : Nat} {n : Node} (h : nodes[k]? = some n) :
    execTo fp init nodes x (k + 1)
      = execNode fp init nodes k n (execTo fp init nodes x k) := by
  rw [execTo, h]

theorem execTo_none {fp : Fp V} {init : X87 V} {nodes : List Node}
    {x : Exec V} {k : Nat} (h : nodes[k]? = none) :
    execTo fp init nodes x (k + 1) = execTo fp init nodes x k := by
  rw [execTo, h]

/-- The state on entry to the body; `junk` is what the registers held. -/
def start (init : X87 V) (junk : Nat → V) : Exec V :=
  { guest := init.guest, env := junk, packed := fun _ => none }

/-- The body of `lower`. -/
def body (fp : Fp V) (init : X87 V) (junk : Nat → V) (c : Context) :
    Exec V :=
  execTo fp init c.nodes (start init junk) c.nodes.length

/-- The stack slot at depth `d` after the epilogue: a node's value is
stored, an initial slot is left as it is, a popped slot is empty. -/
def slot (init : X87 V) (c : Context) (x : Exec V) (d : Fin 8) :
    Option V :=
  match c.slotVal d with
  | .node id => some (x.env id)
  | .initial _ =>
      some (init.st (init.top + BitVec.ofInt 3 c.topDelta
        + BitVec.ofNat 3 d))
  | .popped => none

/-- The guest after the epilogue, which stores TOP if it has moved. -/
def epilogue (init : X87 V) (c : Context) (x : Exec V) : Guest :=
  { x.guest with sw := statusWord init.top c.topDelta x.guest.sw }

-- ================================================== untouched nodes

/-- A node as the builder leaves it: no pass has marked it. -/
def Fresh (n : Node) : Prop :=
  n.flags.dead = false ∧ n.flags.fcomFused = false
    ∧ n.flags.fmaReduceHead = false ∧ n.flags.fmaReduceMember = false

theorem execNode_fresh {fp : Fp V} {init : X87 V} {nodes : List Node}
    {id : Nat} {n : Node} {x : Exec V} (h : Fresh n) :
    execNode fp init nodes id n x = execOp fp init id n x := by
  obtain ⟨hd, -, hh, hm⟩ := h
  simp [execNode, hd, hh, hm]

/-- What comes later does not change the run so far. -/
theorem execTo_append {fp : Fp V} {init : X87 V} {nodes : List Node}
    {n : Node} {x : Exec V} (h : ∀ m ∈ nodes, Fresh m) {k : Nat}
    (hk : k ≤ nodes.length) :
    execTo fp init (nodes ++ [n]) x k = execTo fp init nodes x k := by
  induction k with
  | zero => rfl
  | succ k ih =>
      have hlt : k < nodes.length := hk
      have hm : Fresh nodes[k] := h _ (List.getElem_mem hlt)
      simp only [execTo, List.getElem?_append_left hlt,
        List.getElem?_eq_getElem hlt, execNode_fresh hm, ih (by omega)]

/-- The body of a Context with one more node. -/
theorem body_append {fp : Fp V} {init : X87 V} {junk : Nat → V}
    {c : Context} {n : Node} (h : ∀ m ∈ c.nodes, Fresh m)
    (hn : Fresh n) :
    body fp init junk { c with nodes := c.nodes ++ [n] }
      = execOp fp init c.numNodes n (body fp init junk c) := by
  show execTo fp init (c.nodes ++ [n]) _ (c.nodes ++ [n]).length = _
  rw [List.length_append]
  show execTo fp init (c.nodes ++ [n]) _ (c.nodes.length + 1) = _
  simp only [execTo, List.getElem?_concat_length, execNode_fresh hn,
    execTo_append h (Nat.le_refl _)]
  rfl

/-- Patching TOP only when it has moved is patching it always. -/
theorem statusWord_eq {top : BitVec 3} {td : Int} {sw : BitVec 16}
    (h : topOf sw = top) :
    statusWord top td sw = withTop sw (top + BitVec.ofInt 3 td) := by
  unfold statusWord
  split
  · next htd =>
    subst htd
    rw [show BitVec.ofInt 3 0 = 0#3 from rfl, BitVec.add_zero, ← h,
      withTop_topOf]
  · rfl

end Denote

/-- What a Context denotes: the guest and the stack after the code that
`lower` emits for it. -/
structure Denotation (V : Type) where
  guest : Guest
  slot : Fin 8 → Option V

/-- The meaning of a Context, from a machine state. -/
def denote (fp : Fp V) (init : X87 V) (junk : Nat → V) (c : Context) :
    Denotation V :=
  let x := Denote.body fp init junk c
  { guest := Denote.epilogue init c x, slot := Denote.slot init c x }

end X87Sidecar
