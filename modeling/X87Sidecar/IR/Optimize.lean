/-
The optimisation passes (`X87IROptimize.cpp`).

A pass is a loop over node indices that rewrites nodes in place; each is
written here as a fold of its loop body over the indices. The use counts
are a function from node ids, as the `use_count` array is. Counting treats
every non-negative input as a node, `FStsw`'s payloads included, which can
only make a count too high.

The survey counters of `pass_fma_reduce` and its verbose output are left
out: nothing reads them back.
-/
import X87Sidecar.IR.Context

namespace X87Sidecar

/-- The fields of the configuration that the passes read. -/
structure OptConfig where
  enableFmaContract : Bool := false
  enableFmaReduce : Bool := false
  /-- `fusion_is_disabled(FusionId::fild_fistp)` -/
  fildFistpDisabled : Bool := false

namespace Optimize

/-- `for (i = 0; i < n; i++)`. -/
def forNodes {σ : Type} (n : Nat) (f : Nat → σ → σ) (s : σ) : σ :=
  (List.range n).foldl (fun s i => f i s) s

/-- `for (i = n - 1; i >= 0; i--)`. -/
def forNodesDown {σ : Type} (f : Nat → σ → σ) : Nat → σ → σ
  | 0, s => s
  | i + 1, s => forNodesDown f i (f i s)

/-- `n.flags |= kDead`. -/
def kill (n : Node) : Node := { n with flags.dead := true }

/-- The nodes and the `use_count` array of a pass. -/
structure Pass where
  nodes : List Node
  uses : Nat → Int

/-- `count_uses`: uses by the final stack and by nodes that are alive. -/
def countUses (c : Context) (a : Nat) : Int :=
  ((List.finRange 8).countP fun d => c.slotVal d = .node a)
    + ((c.nodes.filter fun n => !n.flags.dead).map
        fun n => n.inputs.count (a : Int)).sum

/-- `use_count[input] += by` for each node among the inputs. -/
def adjust (by_ : Int) (inputs : List Int) (uses : Nat → Int) :
    Nat → Int :=
  fun a => uses a + by_ * inputs.count (a : Int)

-- ============================================ dead store elimination

/-- The nodes `pass_dse` never eliminates. -/
def sideEffect : Op → Bool
  | .StoreF64 | .StoreF32 | .StoreI16 | .StoreI32 | .StoreI64
  | .FCmp | .FTst | .FStsw | .FComI | .StoreCW | .LoadCW
  | .BridgeMovRR | .BridgeMovRI | .BridgeLea | .BridgeLoadG
  | .BridgeStoreG | .BridgeExt | .BridgeAluRR | .BridgeAluRI
  | .BridgeAluRM | .BridgeAluMR => true
  | _ => false

/-- One node of a backward sweep. -/
def dseNode (i : Nat) (p : Pass) : Pass :=
  match p.nodes[i]? with
  | some n =>
      if n.flags.dead || sideEffect n.op || p.uses i ≠ 0 then p
      else { nodes := p.nodes.modify i kill,
             uses := adjust (-1) n.inputs p.uses }
  | none => p

/-- `pass_dse`: two backward sweeps. -/
def passDse (c : Context) : Context :=
  let sweep := forNodesDown dseNode c.nodes.length
  { c with nodes := (sweep (sweep ⟨c.nodes, countUses c⟩)).nodes }

-- ====================================================== FMA detection

/-- `fma_op`: which fused operation a sum or difference becomes, by the
side its product is on. -/
def fmaOp (op : Op) (mulFirst : Bool) : Op :=
  if op = .FAdd then .FMAdd else if mulFirst then .FNMSub else .FMSub

/-- `try_fuse`, with the product on one side and the addend on the
other. -/
def tryFuse (i : Nat) (n : Node) (mulFirst : Bool) (p : Pass) :
    Option Pass :=
  let mulId := if mulFirst then n.in0 else n.in1
  let otherId := if mulFirst then n.in1 else n.in0
  if mulId < 0 then none
  else
    match p.nodes[mulId.toNat]? with
    | none => none
    | some mul =>
        if mul.op ≠ .FMul || mul.flags.dead || p.uses mulId.toNat ≠ 1
        then none
        else
          let fused := { n with
            op := fmaOp n.op mulFirst,
            in0 := mul.in0, in1 := mul.in1, in2 := otherId }
          some {
            nodes := (p.nodes.set i fused).modify mulId.toNat kill,
            uses := adjust 1 [mul.in0, mul.in1]
              (Function.update p.uses mulId.toNat 0) }

/-- One node of `pass_fma`. -/
def fmaNode (i : Nat) (p : Pass) : Pass :=
  match p.nodes[i]? with
  | some n =>
      if n.flags.dead || (n.op ≠ .FAdd && n.op ≠ .FSub) then p
      else ((tryFuse i n true p).or (tryFuse i n false p)).getD p
  | none => p

/-- What a fusion has found: a live product used once on one side, and
the addend on the other. -/
theorem tryFuse_spec {i : Nat} {n : Node} {first : Bool} {p q : Pass}
    (h : tryFuse i n first p = some q) :
    ∃ (m : Nat) (mul : Node) (other : Int),
      (n.in0 = m ∧ n.in1 = other ∨ n.in1 = m ∧ n.in0 = other)
      ∧ p.nodes[m]? = some mul ∧ mul.op = .FMul
      ∧ q.nodes = (p.nodes.set i
          { n with
            op := fmaOp n.op first,
            in0 := mul.in0, in1 := mul.in1, in2 := other }).modify m
          kill := by
  unfold tryFuse at h
  have hsides : ∃ a b : Int,
      (if first = true then n.in0 else n.in1) = a
      ∧ (if first = true then n.in1 else n.in0) = b
      ∧ (n.in0 = a ∧ n.in1 = b ∨ n.in1 = a ∧ n.in0 = b) := by
    cases first
    · exact ⟨_, _, rfl, rfl, .inr ⟨rfl, rfl⟩⟩
    · exact ⟨_, _, rfl, rfl, .inl ⟨rfl, rfl⟩⟩
  obtain ⟨a, b, ha, hb, hab⟩ := hsides
  simp only [ha, hb] at h
  split at h
  · cases h
  next hneg =>
  split at h
  · cases h
  next mul hm =>
  split at h
  · cases h
  next hc =>
  cases h
  simp only [ne_eq, Bool.or_eq_true, decide_eq_true_eq, not_or,
    Decidable.not_not] at hc
  refine ⟨a.toNat, mul, b, ?_, hm, hc.1.1, rfl⟩
  rwa [Int.toNat_of_nonneg (Int.not_lt.mp hneg)]

/-- A node of `pass_fma` is fused, or nothing happens. -/
theorem fmaNode_cases (i : Nat) (p : Pass) :
    fmaNode i p = p ∨ ∃ n first q, p.nodes[i]? = some n
      ∧ (n.op = .FAdd ∨ n.op = .FSub)
      ∧ tryFuse i n first p = some q ∧ fmaNode i p = q := by
  unfold fmaNode
  split
  · next n hn =>
    split
    · exact .inl rfl
    · next hc =>
      have hop : n.op = .FAdd ∨ n.op = .FSub := by
        simp only [Bool.or_eq_true, not_or, Bool.not_eq_true,
          decide_eq_true_eq, Bool.and_eq_true] at hc
        by_cases h : n.op = .FAdd
        · exact .inl h
        · exact .inr (by simpa [h] using hc.2)
      rcases ht : tryFuse i n true p with _ | q
      · rcases hf : tryFuse i n false p with _ | q
        · exact .inl rfl
        · exact .inr ⟨n, false, q, hn, hop, hf, rfl⟩
      · exact .inr ⟨n, true, q, hn, hop, ht, rfl⟩
  · exact .inl rfl

/-- `pass_fma`. -/
def passFma (c : Context) : Context :=
  { c with
    nodes := (forNodes c.nodes.length fmaNode
      ⟨c.nodes, countUses c⟩).nodes }

-- ================================================== FCOM+FSTSW fusion

/-- A comparison that is alive. -/
def liveCmp (n : Node) : Bool :=
  !n.flags.dead && (n.op = .FCmp || n.op = .FTst)

/-- No live comparison strictly between two nodes. -/
def cleanBetween (nodes : List Node) (lo hi : Nat) : Bool :=
  (List.range hi).all fun j => !(lo < j) || !(nodes[j]?.any liveCmp)

/-- `n.flags |= kFcomFused`. -/
def fuse (n : Node) : Node := { n with flags.fcomFused := true }

/-- One node of `pass_fcom_fstsw_fusion`. -/
def fuseNode (i : Nat) (nodes : List Node) : List Node :=
  match nodes[i]? with
  | some n =>
      if n.flags.dead || n.op ≠ .FStsw || n.in0 < 0 then nodes
      else
        match nodes[n.in0.toNat]? with
        | some cmp =>
            if (cmp.op = .FCmp || cmp.op = .FTst)
              && cleanBetween nodes n.in0.toNat i
            then (nodes.modify n.in0.toNat fuse).modify i fuse
            else nodes
        | none => nodes
  | none => nodes

/-- `pass_fcom_fstsw_fusion`. -/
def passFcomFstswFusion (c : Context) : Context :=
  { c with nodes := forNodes c.nodes.length fuseNode c.nodes }

-- ====================================================== FMA reduction

/-- `extract_simple_mem`: base register and displacement. -/
def extractSimpleMem (n : Node) : Option (BitVec 8 × BitVec 64) :=
  match n.memOperand with
  | some op =>
      if op.kind = .memRef && op.hasBase && !op.hasIndex
        && op.segOverride = 0
      then some (op.baseReg, op.value) else none
  | none => none

/-- The bridge nodes, any of which fences the pass off. -/
def isBridge : Op → Bool
  | .BridgeMovRR | .BridgeMovRI | .BridgeLea | .BridgeLoadG
  | .BridgeStoreG | .BridgeExt | .BridgeAluRR | .BridgeAluRI
  | .BridgeAluRM | .BridgeAluMR => true
  | _ => false

/-- The first live multiply-add past `tail` that accumulates onto it. -/
def nextFma (nodes : List Node) (tail : Nat) : Option Nat :=
  (List.range nodes.length).find? fun j =>
    tail < j && nodes[j]?.any fun m =>
      !m.flags.dead && m.op = .FMAdd && m.in2 = (tail : Int)

/-- The forward walk from `tail`: a tail with another use ends it. -/
def extend (nodes : List Node) (uses : Nat → Int) :
    (fuel : Nat) → (tail : Nat) → List Nat
  | 0, _ => []
  | fuel + 1, tail =>
      match nextFma nodes tail with
      | some next =>
          if uses tail = 1 then next :: extend nodes uses fuel next
          else []
      | none => []

/-- The load a multiply-add takes on one side, if the chain may absorb
it: at the chain's width, alive, used once and not absorbed already. -/
def elemLoad (nodes : List Node) (uses : Nat → Int) (elem : Op)
    (input : Int) : Option (BitVec 8 × BitVec 64) :=
  if input < 0 then none
  else
    match nodes[input.toNat]? with
    | some ld =>
        if ld.op = elem && !ld.flags.dead && uses input.toNat = 1
          && !ld.flags.fmaReduceMember
        then extractSimpleMem ld else none
    | none => none

/-- The addresses of one stream advance by a fixed, non-zero stride from
one base register. -/
def strided (s : List (BitVec 8 × BitVec 64)) : Bool :=
  match s with
  | (base, disp) :: (_, disp₁) :: _ =>
      let stride := disp₁ - disp
      stride ≠ 0 && s.zipIdx.all fun (a, k) =>
        a.1 = base && a.2 = disp + stride * BitVec.ofNat 64 k
  | _ => false

/-- The element width of a chain, which its first load decides. -/
def elemOp (nodes : List Node) (chain : List Nat) : Option Op :=
  match chain.head?.bind fun k => nodes[k]? with
  | some m =>
      if m.in0 < 0 then none
      else
        match nodes[m.in0.toNat]? with
        | some ld =>
            if ld.op = .LoadF32 || ld.op = .LoadF64 then some ld.op
            else none
        | none => none
  | none => none

/-- One stream of a chain: the addresses on one side of its products. -/
def stream (nodes : List Node) (uses : Nat → Int) (elem : Op)
    (side : Node → Int) (chain : List Nat) :
    Option (List (BitVec 8 × BitVec 64)) :=
  chain.mapM fun k =>
    nodes[k]?.bind fun m => elemLoad nodes uses elem (side m)

/-- The validation of a chain. -/
def valid (nodes : List Node) (uses : Nat → Int) (chain : List Nat) :
    Bool :=
  2 ≤ chain.length &&
    match elemOp nodes chain with
    | some elem =>
        match stream nodes uses elem Node.in0 chain,
            stream nodes uses elem Node.in1 chain with
        | some l, some w => strided l && strided w
        | _, _ => false
    | none => false

/-- May a chain start at this node? -/
def mayHead (nodes : List Node) (i : Nat) : Bool :=
  nodes[i]?.any fun n =>
    !n.flags.dead && !n.flags.fmaReduceMember && n.op = .FMAdd &&
      !(0 ≤ n.in2 && nodes[n.in2.toNat]?.any fun a =>
        a.op = .FMAdd && a.flags.fmaReduceMember)

/-- The chain the pass finds at a node. -/
def findChain (uses : Nat → Int) (nodes : List Node) (i : Nat) :
    Option (List Nat) :=
  let chain := i :: extend nodes uses (kMaxNodes - 1) i
  if mayHead nodes i && valid nodes uses chain then some chain else none

/-- `n.flags |= kFmaReduceMember`. -/
def absorb (n : Node) : Node := { n with flags.fmaReduceMember := true }

/-- `n.flags |= kFmaReduceHead`. -/
def lead (n : Node) : Node := { n with flags.fmaReduceHead := true }

/-- Tag one multiply-add and its two loads. -/
def tagMember (nodes : List Node) (k : Nat) : List Node :=
  match nodes[k]? with
  | some m =>
      ((nodes.modify k absorb).modify m.in0.toNat absorb).modify
        m.in1.toNat absorb
  | none => nodes

/-- Tag a chain. -/
def tagChain (nodes : List Node) (chain : List Nat) : List Node :=
  chain.foldl tagMember (nodes.modify (chain.headD 0) lead)

/-- One node of `pass_fma_reduce`. -/
def reduceNode (uses : Nat → Int) (i : Nat) (nodes : List Node) :
    List Node :=
  match findChain uses nodes i with
  | some chain => tagChain nodes chain
  | none => nodes

/-- `pass_fma_reduce`. -/
def passFmaReduce (cfg : OptConfig) (c : Context) : Context :=
  if !cfg.enableFmaReduce || c.nodes.any fun n => isBridge n.op then c
  else
    { c with
      nodes := forNodes c.nodes.length (reduceNode (countUses c))
        c.nodes }

-- ==================================================== exact int64 copy

/-- `has_seg_override`. -/
def hasSegOverride (n : Node) : Bool :=
  n.memOperand.any fun op => op.segOverride ≠ 0

/-- A live `StoreI64` of a node, under no segment. -/
def storesI64 (n : Node) : Bool :=
  n.op = .StoreI64 && !hasSegOverride n

/-- `other_use[a]`: the final stack, or a live node that is not an
integer store of it, refers to `a`. -/
def otherUse (c : Context) (a : Nat) : Bool :=
  (List.finRange 8).any (fun d => c.slotVal d = .node a) ||
    c.nodes.any fun n => !n.flags.dead &&
      if storesI64 n then (n.nodeRefs.drop 1).contains (a : Int)
      else n.nodeRefs.contains (a : Int)

/-- `store_uses[a] != 0`. -/
def storeUse (c : Context) (a : Nat) : Bool :=
  c.nodes.any fun n =>
    !n.flags.dead && storesI64 n && n.in0 = a

/-- A store of the retagged load becomes a plain copy. -/
def retagStore (n : Node) : Node :=
  { n with op := .StoreF64, flags.truncate := false }

/-- One node of `pass_exact_i64_copy`. -/
def copyNode (c : Context) (i : Nat) (nodes : List Node) : List Node :=
  match nodes[i]? with
  | some n =>
      if n.op ≠ .LoadI64 || n.flags.dead || otherUse c i
        || !storeUse c i || hasSegOverride n
      then nodes
      else
        (nodes.set i { n with op := .LoadF64 }).mapIdx fun j s =>
          if i < j && s.op = .StoreI64 && !s.flags.dead && s.in0 = (i : Int)
          then retagStore s else s
  | none => nodes

/-- `pass_exact_i64_copy`. -/
def passExactI64Copy (cfg : OptConfig) (c : Context) : Context :=
  if cfg.fildFistpDisabled then c
  else { c with nodes := forNodes c.nodes.length (copyNode c) c.nodes }

end Optimize

open Optimize in
/-- What the reduction pass is given. -/
def beforeReduce (cfg : OptConfig) (c : Context) : Context :=
  let c := passDse c
  if cfg.enableFmaContract then passFma c else c

open Optimize in
/-- What the fusion pass is given: the passes `optimize` runs before
it. -/
def optimizeValues (cfg : OptConfig) (c : Context) : Context :=
  passFmaReduce cfg (beforeReduce cfg c)

open Optimize in
/-- `optimize`. -/
def optimize (cfg : OptConfig) (c : Context) : Context :=
  passExactI64Copy cfg (passFcomFstswFusion (optimizeValues cfg c))

end X87Sidecar
