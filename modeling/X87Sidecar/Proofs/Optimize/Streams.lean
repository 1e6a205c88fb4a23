/-
Where a reduction reads its two streams.

`lower` fetches a contiguous pair of elements with one load at the first
of them. A stream the pass accepts steps by a fixed displacement from one
base register (`findChain_stepped`), so the second element is where its
own operand says, unless an address is cut to 32 bits between the two:
`aimed_iff` says that this is the only way to miss it. When no element is
missed, the reduction sums the terms of its chain (`zip_streams`).
-/
import X87Sidecar.Proofs.Optimize.Chain
import X87Sidecar.IR.Denote

namespace X87Sidecar

open Lib Denote
open Optimize hiding elemLoad

variable {V : Type}

-- ==================================================== one step of a stream

/-- A base register and a displacement. -/
structure IROperand.Simple (op : IROperand) : Prop where
  kind : op.kind = .memRef
  hasBase : op.hasBase = true
  hasIndex : op.hasIndex = false

/-- The next operand of a stream. -/
structure Stepped (stride : BitVec 64) (a b : IROperand) : Prop where
  left : a.Simple
  right : b.Simple
  base : b.baseReg = a.baseReg
  disp : b.value = a.value + stride

/-- What `extract_simple_mem` accepts, and what it returns. -/
theorem extractSimpleMem_eq {ld : Node} {addr : BitVec 8 × BitVec 64}
    (h : extractSimpleMem ld = some addr) :
    ld.mem.Simple ∧ addr = (ld.mem.baseReg, ld.mem.value) := by
  unfold extractSimpleMem at h
  unfold Node.mem
  cases hop : ld.memOperand with
  | none =>
      rw [hop] at h
      cases h
  | some op =>
      rw [hop] at h
      dsimp only at h
      by_cases hc : (op.kind = .memRef && op.hasBase && !op.hasIndex
          && op.segOverride = 0) = true
      · rw [if_pos hc] at h
        simp only [Bool.and_eq_true, decide_eq_true_eq,
          Bool.not_eq_true'] at hc
        exact ⟨⟨hc.1.1.1, hc.1.1.2, hc.1.2⟩, (Option.some.inj h).symm⟩
      · rw [if_neg hc] at h
        cases h

/-- A simple operand is a base register and a displacement. -/
theorem extractSimpleMem_spec {ld : Node}
    (h : (extractSimpleMem ld).isSome = true) : ld.mem.Simple := by
  obtain ⟨addr, haddr⟩ := Option.isSome_iff_exists.mp h
  exact (extractSimpleMem_eq haddr).1

/-- The address of a simple operand. -/
theorem IROperand.Simple.address {op : IROperand} (h : op.Simple)
    (g : Guest) :
    g.address op
      = if op.reg = 3 then g.regs (regIndex op.baseReg) + op.value
        else ((g.regs (regIndex op.baseReg) + op.value).setWidth
          32).setWidth 64 := by
  unfold Guest.address
  simp only [h.kind, h.hasBase, h.hasIndex, if_true, Bool.false_eq_true,
    if_false, BitVec.ofNat_eq_ofNat, BitVec.add_zero]

/-- Every register but none holds `v`. -/
def allRegs (v : BitVec 64) : Guest :=
  { Guest.blank with regs := fun _ => v }

/-- One element further on is the next element in every state exactly when
neither address is cut to 32 bits. A base register one element below
2^33 tells the cases apart. -/
theorem Stepped.address_iff {elem : Op} {a b : IROperand}
    (h : Stepped (elemSize elem) a b) :
    (∀ g : Guest, g.address a + elemSize elem = g.address b)
      ↔ a.reg = 3 ∧ b.reg = 3 := by
  constructor
  · intro hall
    have hg := hall (allRegs (0x200000000 - elemSize elem - a.value))
    rw [h.left.address, h.right.address, h.disp] at hg
    simp only [allRegs] at hg
    rw [BitVec.sub_add_cancel, ← BitVec.add_assoc,
      BitVec.sub_add_cancel, BitVec.sub_add_cancel] at hg
    revert hg
    unfold elemSize
    by_cases ha : a.reg = 3 <;> by_cases hb : b.reg = 3 <;>
      by_cases he : elem = .LoadF64 <;>
      simp only [ha, hb, he, if_true, if_false] <;> decide
  · rintro ⟨ha, hb⟩ g
    rw [h.left.address, h.right.address, if_pos ha, if_pos hb, h.base,
      h.disp, BitVec.add_assoc]

-- ======================================================= whole streams

/-- The pairs a stream is read in. -/
def pairs {α : Type} : List α → List (α × α)
  | a :: b :: rest => (a, b) :: pairs rest
  | _ => []

/-- Every element is read at the address its own operand names, whatever
the state. -/
def Aimed (l : List Node) (elem : Op) (chain : List Nat) : Prop :=
  ∀ side ∈ [Node.in0, Node.in1], ∀ g : Guest,
    let ops := streamMems l side chain
    streamAddrs g elem (contiguous elem ops) ops = ops.map g.address

/-- No address of a contiguous pair is cut to 32 bits. -/
def WidePairs (l : List Node) (elem : Op) (chain : List Nat) : Prop :=
  ∀ side ∈ [Node.in0, Node.in1],
    contiguous elem (streamMems l side chain) = true →
    ∀ p ∈ pairs (streamMems l side chain), p.1.reg = 3 ∧ p.2.reg = 3

/-- When one stream is read where its operands say, in one state. -/
theorem streamAddrs_eq_iff {g : Guest} {elem : Op} {contig : Bool}
    (ops : List IROperand) :
    streamAddrs g elem contig ops = ops.map g.address
      ↔ (contig = true → ∀ p ∈ pairs ops,
          g.address p.1 + elemSize elem = g.address p.2) := by
  induction ops using List.twoStepInduction with
  | nil => simp [streamAddrs, pairs]
  | singleton a => simp [streamAddrs, pairs]
  | cons_cons a b rest ih _ =>
      cases contig with
      | false => simpa [streamAddrs, pairs, loadFmaPair] using ih
      | true =>
          have ih : _ ↔ _ := ih
          simp only [forall_true_left] at ih ⊢
          rw [pairs, List.forall_mem_cons, ← ih]
          simp [streamAddrs, loadFmaPair]

/-- The pairs of a stepped stream are steps of it. -/
theorem pairs_stepped {stride : BitVec 64} {ops : List IROperand}
    (h : ops.IsChain (Stepped stride)) :
    ∀ p ∈ pairs ops, Stepped stride p.1 p.2 := by
  induction ops using List.twoStepInduction with
  | nil => simp [pairs]
  | singleton a => simp [pairs]
  | cons_cons a b rest ih _ =>
      obtain ⟨hab, hrest⟩ := List.isChain_cons_cons.mp h
      exact List.forall_mem_cons.mpr ⟨hab, ih hrest.of_cons⟩

/-- The stride of a contiguous stream is the element size. -/
theorem stride_of_contiguous {stride : BitVec 64} {elem : Op}
    {ops : List IROperand} (h : ops.IsChain (Stepped stride))
    (hc : contiguous elem ops = true) : stride = elemSize elem := by
  match ops, h, hc with
  | a :: b :: _, h, hc =>
      have hab := (List.isChain_cons_cons.mp h).1.disp
      have hsub : b.value - a.value = elemSize elem :=
        of_decide_eq_true hc
      rw [← hsub, hab, BitVec.add_comm, BitVec.add_sub_cancel]

/-- The streams of a chain step by a fixed displacement each. -/
def SteppedStreams (l : List Node) (chain : List Nat) : Prop :=
  ∀ side ∈ [Node.in0, Node.in1], ∃ stride,
    (streamMems l side chain).IsChain (Stepped stride)

/-- Every element is read where its operand says exactly when no
contiguous pair may be cut to 32 bits. -/
theorem aimed_iff {l : List Node} {elem : Op} {chain : List Nat}
    (h : SteppedStreams l chain) :
    Aimed l elem chain ↔ WidePairs l elem chain := by
  unfold Aimed WidePairs
  refine forall₂_congr fun side hside => ?_
  obtain ⟨stride, hsteps⟩ := h side hside
  dsimp only
  simp only [streamAddrs_eq_iff]
  constructor
  · intro hall hc p hp
    have hp' := pairs_stepped hsteps p hp
    rw [stride_of_contiguous hsteps hc] at hp'
    exact hp'.address_iff.mp fun g => hall g hc p hp
  · intro hwide g hc p hp
    have hp' := pairs_stepped hsteps p hp
    rw [stride_of_contiguous hsteps hc] at hp'
    exact hp'.address_iff.mpr (hwide hc p hp) g

-- ============================================ the streams of a chain

/-- What the pass has read of a stream: its operands, one by one. -/
theorem stream_mems {nodes : List Node} {uses : Nat → Int} {elem : Op}
    {side : Node → Int} {chain : List Nat}
    {addrs : List (BitVec 8 × BitVec 64)}
    (h : stream nodes uses elem side chain = some addrs) :
    addrs = (streamMems nodes side chain).map
        (fun op => (op.baseReg, op.value))
      ∧ ∀ op ∈ streamMems nodes side chain, op.Simple := by
  unfold stream at h
  induction chain generalizing addrs with
  | nil =>
      cases h
      exact ⟨rfl, by simp [streamMems, streamLoads]⟩
  | cons k chain ih =>
      simp only [List.mapM_cons, Option.pure_def, Option.bind_eq_bind,
        Option.bind_eq_some_iff] at h
      obtain ⟨addr, haddr, rest, hrest, heq⟩ := h
      obtain ⟨hmap, hsimple⟩ := ih hrest
      obtain ⟨m, hm, hload⟩ := haddr
      obtain ⟨ld, hld, -, -, -, hmem⟩ := (elemLoad_spec hload).node
      have hextract : extractSimpleMem ld = some addr := by
        unfold Optimize.elemLoad at hload
        split at hload
        · cases hload
        · rw [hld] at hload
          dsimp only at hload
          split at hload
          · exact hload
          · cases hload
      obtain ⟨hs, rfl⟩ := extractSimpleMem_eq hextract
      have hcons : streamMems nodes side (k :: chain)
          = ld.mem :: streamMems nodes side chain := by
        simp [streamMems, streamLoads, hm, loadMem, hld]
      rw [hcons]
      refine ⟨?_, List.forall_mem_cons.mpr ⟨hs, hsimple⟩⟩
      rw [List.map_cons, ← hmap]
      exact (Option.some.inj heq).symm

/-- The stride check, read: neighbours are a step apart. -/
theorem strided_steps {ops : List IROperand}
    (h : strided (ops.map fun op => (op.baseReg, op.value)) = true)
    (hsimple : ∀ op ∈ ops, op.Simple) :
    ∃ stride, ops.IsChain (Stepped stride) := by
  match ops, h, hsimple with
  | a :: b :: rest, h, hsimple =>
      simp only [List.map_cons, strided, Bool.and_eq_true,
        List.all_eq_true, decide_eq_true_eq] at h
      refine ⟨b.value - a.value, List.isChain_iff_getElem.mpr
        fun k hk => ?_⟩
      have hat : ∀ j (hj : j < (a :: b :: rest).length),
          (a :: b :: rest)[j].baseReg = a.baseReg
            ∧ (a :: b :: rest)[j].value
              = a.value + (b.value - a.value) * BitVec.ofNat 64 j := by
        intro j hj
        have hmem : (((a :: b :: rest)[j].baseReg,
            (a :: b :: rest)[j].value), j)
            ∈ ((a.baseReg, a.value) :: (b.baseReg, b.value) ::
              rest.map fun op => (op.baseReg, op.value)).zipIdx := by
          rw [List.mem_zipIdx_iff_getElem?, ← List.map_cons (f := fun
            op : IROperand => (op.baseReg, op.value)),
            ← List.map_cons (f := fun
              op : IROperand => (op.baseReg, op.value)),
            List.getElem?_map, List.getElem?_eq_getElem hj]
          rfl
        exact h.2 _ hmem
      obtain ⟨hb₀, hv₀⟩ := hat k (by omega)
      obtain ⟨hb₁, hv₁⟩ := hat (k + 1) hk
      refine ⟨hsimple _ (List.getElem_mem _), hsimple _
        (List.getElem_mem _), hb₁.trans hb₀.symm, ?_⟩
      rw [hv₁, hv₀, BitVec.add_assoc]
      congr 1
      rw [BitVec.ofNat_add, BitVec.mul_add, BitVec.mul_one]
  | [], h, _ => cases h
  | [_], h, _ => cases h

/-- The streams of a chain the pass accepts. -/
theorem findChain_stepped {nodes : List Node} {uses : Nat → Int}
    {i : Nat} {chain : List Nat}
    (h : findChain uses nodes i = some chain) :
    SteppedStreams nodes chain := by
  unfold findChain at h
  dsimp only at h
  split at h
  case isFalse => cases h
  next hc =>
  cases h
  have hvalid := (Bool.and_eq_true .. |>.mp hc).2
  unfold valid at hvalid
  have hmatch := (Bool.and_eq_true .. |>.mp hvalid).2
  split at hmatch
  case h_2 => cases hmatch
  split at hmatch
  case h_2 => cases hmatch
  next l w hl hw =>
  obtain ⟨hls, hws⟩ := Bool.and_eq_true .. |>.mp hmatch
  obtain ⟨rfl, hlm⟩ := stream_mems hl
  obtain ⟨rfl, hwm⟩ := stream_mems hw
  intro side hside
  simp only [List.mem_cons, List.not_mem_nil, or_false] at hside
  rcases hside with rfl | rfl
  · exact strided_steps hls hlm
  · exact strided_steps hws hwm

-- ============================================================ the terms

namespace Denote

/-- The element a load names with its own operand, at the width of the
chain. -/
def elemLoad (fp : Fp V) (nodes : List Node) (elem : Op) (g : Guest)
    (l : Int) : V :=
  elemAt fp elem g (g.address (loadMem nodes l))

/-- One term of the sum that a chain is. -/
def term (fp : Fp V) (nodes : List Node) (elem : Op) (g : Guest)
    (acc : V) (k : Nat) : V :=
  match nodes[k]? with
  | some m =>
      fp.fma (elemLoad fp nodes elem g m.in0)
        (elemLoad fp nodes elem g m.in1) acc
  | none => acc

end Denote

variable {fp : Fp V} {l : List Node} {elem : Op} {chain : List Nat}
  {g : Guest}

/-- A stream read where its operands say is that of its loads. -/
theorem Aimed.streamVals (h : Aimed l elem chain) {side : Node → Int}
    (hside : side ∈ [Node.in0, Node.in1]) :
    Denote.streamVals fp l elem g side chain
      = (streamLoads l side chain).map (Denote.elemLoad fp l elem g) := by
  unfold Denote.streamVals
  dsimp only
  rw [h side hside g]
  unfold streamMems Denote.elemLoad
  rw [List.map_map, List.map_map]
  rfl

/-- The products of two streams, added one after the other, are the terms
of their chain. -/
theorem zip_streams (chain : List Nat) (acc : V) :
    (((streamLoads l Node.in0 chain).map
        (Denote.elemLoad fp l elem g)).zip
      ((streamLoads l Node.in1 chain).map
        (Denote.elemLoad fp l elem g))).foldl
        (fun acc t => fp.fma t.1 t.2 acc) acc
      = chain.foldl (term fp l elem g) acc := by
  unfold streamLoads
  induction chain generalizing acc with
  | nil => rfl
  | cons k chain ih =>
      rw [List.foldl_cons, ← ih]
      unfold term
      cases hm : l[k]? with
      | none => simp [hm]
      | some m => simp [hm]

-- ============================================================= the tags

section Tags

variable {l' : List Node}
  (hl : Pointwise (fun _ n m => ∃ h t, m = tagged h t n) l l')
include hl

/-- Tags do not change the operand of a load. -/
theorem loadMem_tagged (a : Int) : loadMem l' a = loadMem l a := by
  unfold loadMem
  rw [hl.map_eq fun _ n m ⟨_, _, hm⟩ => by rw [hm]; rfl]

/-- Nor which loads a stream has. -/
theorem streamLoads_tagged {side : Node → Int}
    (hside : side ∈ [Node.in0, Node.in1]) (chain : List Nat) :
    streamLoads l' side chain = streamLoads l side chain := by
  have heach : ∀ k : Nat, l'[k]?.map side = l[k]?.map side := by
    refine hl.map_eq ?_
    rintro _ n _ ⟨h, t, rfl⟩
    simp only [List.mem_cons, List.not_mem_nil, or_false] at hside
    rcases hside with rfl | rfl <;> rfl
  unfold streamLoads
  simp only [heach]

theorem streamMems_tagged {side : Node → Int}
    (hside : side ∈ [Node.in0, Node.in1]) (chain : List Nat) :
    streamMems l' side chain = streamMems l side chain := by
  unfold streamMems
  rw [streamLoads_tagged hl hside, funext (loadMem_tagged hl)]

theorem streamVals_tagged {side : Node → Int}
    (hside : side ∈ [Node.in0, Node.in1]) (elem : Op) (g : Guest)
    (chain : List Nat) :
    Denote.streamVals fp l' elem g side chain
      = Denote.streamVals fp l elem g side chain := by
  unfold Denote.streamVals
  rw [streamMems_tagged hl hside]

theorem aimed_tagged : Aimed l' elem chain ↔ Aimed l elem chain := by
  unfold Aimed
  refine forall₂_congr fun side hside => ?_
  rw [streamMems_tagged hl hside]

end Tags

end X87Sidecar
