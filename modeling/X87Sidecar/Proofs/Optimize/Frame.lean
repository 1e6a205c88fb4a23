/-
What a node of the body reads and what it changes.

A node computes from the guest and from as many of its inputs as its
operation has operands (`execOp_congr`). It gives a value to its own id
only, stores `storeBytes` bytes at its operand at most, and writes one
guest register at most, `destReg`.
-/
import X87Sidecar.IR.Denote

namespace X87Sidecar

open Lib Denote

/-- The bytes a node stores at its memory operand. -/
def Node.storeBytes (n : Node) : Nat :=
  match n.op with
  | .StoreF64 | .StoreI64 => 8
  | .StoreF32 | .StoreI32 => 4
  | .StoreI16 | .LoadCW => 2
  | .BridgeStoreG | .BridgeAluMR => accessBytes n.flags.bridge64
  | _ => 0

/-- The guest register a node writes. -/
def Node.destReg (n : Node) : Option Nat :=
  match n.op with
  | .FStsw => some n.in1.toNat
  | .BridgeMovRR | .BridgeMovRI | .BridgeLea | .BridgeLoadG | .BridgeExt
  | .BridgeAluRR | .BridgeAluRI | .BridgeAluRM =>
      some (bridgeDecodeReg n.in0)
  | _ => none

variable {V : Type} {fp : Fp V} {init : X87 V} {nodes : List Node}
  {id : Nat} {n : Node} {x y : Exec V}

/-- Two states a node cannot tell apart. -/
structure Agree (n : Node) (x y : Exec V) : Prop where
  guest : x.guest = y.guest
  packed : x.packed = y.packed
  env : ∀ a ∈ n.inputs.take (arity n.op), x.env a.toNat = y.env a.toNat

/-- A node gives a value to itself only. -/
theorem execOp_env_of_ne {j : Nat} (h : j ≠ id) :
    (execOp fp init id n x).env j = x.env j := by
  unfold execOp
  cases n.op <;>
    simp [Exec.assign, compareNode, stsw, unpack, Function.update_of_ne h]
  all_goals cases n.flags.fcomFused <;> simp

/-- A node does the same in two states it cannot tell apart, and leaves
the values that agree agreeing. -/
theorem execOp_congr (h : Agree n x y) :
    (execOp fp init id n x).guest = (execOp fp init id n y).guest
      ∧ (execOp fp init id n x).packed = (execOp fp init id n y).packed
      ∧ ∀ j, x.env j = y.env j →
        (execOp fp init id n x).env j = (execOp fp init id n y).env j := by
  obtain ⟨hg, hp, he⟩ := h
  have hown : (execOp fp init id n x).guest = (execOp fp init id n y).guest
      ∧ (execOp fp init id n x).packed = (execOp fp init id n y).packed
      ∧ (x.env id = y.env id →
        (execOp fp init id n x).env id
          = (execOp fp init id n y).env id) := by
    unfold execOp
    cases hop : n.op <;>
      simp [hop, arity, Node.inputs] at he <;>
      simp [Exec.assign, Exec.val, compareNode, stsw, unpack, hg, hp, he]
    -- a comparison or a status read has a fused form
    all_goals cases n.flags.fcomFused <;> simp [hg, hp]
  refine ⟨hown.1, hown.2.1, fun j hj => ?_⟩
  by_cases hid : j = id
  · subst hid
    exact hown.2.2 hj
  · rw [execOp_env_of_ne hid, execOp_env_of_ne hid, hj]

variable (fp init nodes id) in
/-- So does a node of the body. -/
theorem execNode_congr (hg : x.guest = y.guest) (hp : x.packed = y.packed)
    (he : n.flags.dead = false →
      ∀ a ∈ n.inputs.take (arity n.op), x.env a.toNat = y.env a.toNat) :
    (execNode fp init nodes id n x).guest
        = (execNode fp init nodes id n y).guest
      ∧ (execNode fp init nodes id n x).packed
        = (execNode fp init nodes id n y).packed
      ∧ ∀ j, x.env j = y.env j →
        (execNode fp init nodes id n x).env j
          = (execNode fp init nodes id n y).env j := by
  unfold execNode
  split
  · exact ⟨hg, hp, fun _ h => h⟩
  next hd =>
  have he := he (by simpa using hd)
  split
  · exact ⟨hg, hp, fun _ h => h⟩
  split
  · next hhead =>
    have hop : n.op = .FMAdd := by
      simp only [Bool.and_eq_true, decide_eq_true_eq] at hhead
      exact hhead.1
    have hin2 : x.val n.in2 = y.val n.in2 :=
      he n.in2 (by rw [hop]; simp [Node.inputs, arity])
    refine ⟨hg, hp, fun j hj => ?_⟩
    unfold execReduce Exec.assign
    simp only [hg, hin2, Function.update_apply, hj]
  · exact execOp_congr ⟨hg, hp, he⟩

theorem execNode_env_of_ne {j : Nat} (h : j ≠ id)
    (hhead : n.flags.fmaReduceHead = false) :
    (execNode fp init nodes id n x).env j = x.env j := by
  unfold execNode
  split
  · rfl
  split
  · rfl
  rw [hhead, Bool.and_false, if_neg (by simp)]
  exact execOp_env_of_ne h

/-- What a node that is alive may change in the guest. -/
theorem execOp_regs {r : Nat} (h : ∀ d, n.destReg = some d → r ≠ d) :
    (execOp fp init id n x).guest.regs r = x.guest.regs r := by
  unfold Node.destReg at h
  unfold execOp
  cases hop : n.op <;> simp [hop] at h <;>
    simp [Exec.assign, compareNode, stsw, unpack, Guest.setReg16,
      Guest.setReg, Guest.setCC, Guest.write, Guest.writeInt,
      Guest.setControlWord, h]
  all_goals cases n.flags.fcomFused <;> simp

theorem execOp_load {b : BitVec 64} {k : Nat}
    (h : Mem.Disjoint (x.guest.address n.mem) n.storeBytes b k) :
    (execOp fp init id n x).guest.mem.load b k = x.guest.mem.load b k := by
  unfold Node.storeBytes at h
  unfold execOp
  cases hop : n.op <;> simp only [hop] at h <;>
    simp [Exec.assign, compareNode, stsw, unpack, Guest.setReg16,
      Guest.setReg, Guest.setCC, Guest.write, Guest.writeInt,
      Guest.setControlWord, Mem.load_store_of_disjoint h]
  all_goals cases n.flags.fcomFused <;> simp

end X87Sidecar
