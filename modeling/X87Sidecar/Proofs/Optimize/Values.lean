/-
The value nodes of a Context before multiply-add chains are looked for.

Dead store elimination and the detection of multiply-adds keep what the
builder established: a node refers to older nodes, the values it computes
with are those of nodes, and nothing is tagged. A node used once has one
user (`single_user`).
-/
import X87Sidecar.Proofs.Build.Wf
import X87Sidecar.Proofs.Optimize.Chain

namespace X87Sidecar

open Lib Optimize Denote

-- ========================================================== well-formed

/-- A node at index `i` before any chain is tagged. -/
structure NodeOk (i : Nat) (n : Node) : Prop where
  refs : n.RefsBelow i
  operands : Operands n
  head : n.flags.fmaReduceHead = false
  member : n.flags.fmaReduceMember = false

/-- Every node of a list is well formed. -/
def NodesOk (l : List Node) : Prop :=
  ∀ (i : Nat) (n : Node), l[i]? = some n → NodeOk i n

/-- What is built is well formed. -/
theorem BuildWf.Wf.nodesOk {c : Context} (h : BuildWf.Wf c) :
    NodesOk c.nodes := fun i n hn =>
  have hf := h.fresh n (List.mem_of_getElem? hn)
  ⟨h.refs i n hn, h.operands n (List.mem_of_getElem? hn), hf.2.2.1,
    hf.2.2.2⟩

/-- A killed node stays well formed. -/
theorem NodeOk.kill {i : Nat} {n : Node} (h : NodeOk i n) :
    NodeOk i (Optimize.kill n) := ⟨h.refs, h.operands, h.head, h.member⟩

/-- Killing one node of a list. -/
theorem NodesOk.modify_kill {l : List Node} (h : NodesOk l) (a : Nat) :
    NodesOk (l.modify a Optimize.kill) := by
  intro i n hn
  rw [List.getElem?_modify] at hn
  obtain ⟨m, hm, hmn⟩ := Option.map_eq_some_iff.mp hn
  have hok := h i m hm
  by_cases hai : a = i
  · rw [if_pos hai] at hmn
    rw [← hmn]
    exact hok.kill
  · rw [if_neg hai] at hmn
    rw [← hmn]
    exact hok

/-- Replacing one by a well formed one. -/
theorem NodesOk.set {l : List Node} (h : NodesOk l) {a : Nat} {n : Node}
    (hn : NodeOk a n) : NodesOk (l.set a n) := by
  intro i m hm
  rw [List.getElem?_set] at hm
  split at hm
  · next hai =>
    subst hai
    split at hm
    · cases hm
      exact hn
    · cases hm
  · exact h i m hm

/-- One node of `pass_dse`. -/
theorem dseNode_ok {i : Nat} {p : Pass} (h : NodesOk p.nodes) :
    NodesOk (dseNode i p).nodes := by
  unfold dseNode
  split
  · split
    · exact h
    · exact h.modify_kill i
  · exact h

/-- One sweep of it. -/
theorem dseSweep_ok (n : Nat) {p : Pass} (h : NodesOk p.nodes) :
    NodesOk (forNodesDown dseNode n p).nodes := by
  induction n generalizing p with
  | zero => exact h
  | succ n ih => exact ih (dseNode_ok h)

/-- Both sweeps. -/
theorem passDse_ok {c : Context} (h : NodesOk c.nodes) :
    NodesOk (passDse c).nodes :=
  dseSweep_ok c.nodes.length
    (dseSweep_ok c.nodes.length (p := ⟨c.nodes, countUses c⟩) h)

/-- A fused multiply-add reads no status word. -/
theorem fmaOp_ne_stsw (op : Op) (first : Bool) :
    fmaOp op first ≠ .FStsw := by
  unfold fmaOp
  split
  · simp
  · split <;> simp

/-- All inputs of a node but a status read refer to nodes. -/
theorem mem_nodeRefs {n : Node} (h : n.op ≠ .FStsw) {a : Int} :
    a ∈ n.nodeRefs ↔ a ∈ n.inputs := by
  unfold Node.nodeRefs
  rw [if_neg h]

/-- Fusing a product into a sum keeps the nodes well formed. -/
theorem tryFuse_ok {i : Nat} {n : Node} {first : Bool} {p q : Pass}
    (h : NodesOk p.nodes) (hn : p.nodes[i]? = some n)
    (hop : n.op = .FAdd ∨ n.op = .FSub)
    (hq : tryFuse i n first p = some q) : NodesOk q.nodes := by
  have hnok := h i n hn
  have hin : ∀ a, a = n.in0 ∨ a = n.in1 → 0 ≤ a ∧ a < i := by
    intro a ha
    refine ⟨hnok.operands a ?_, hnok.refs a ((mem_nodeRefs ?_).mpr ?_)⟩
    · rcases hop with hop | hop <;> rcases ha with rfl | rfl <;>
        simp [hop, Node.inputs, arity]
    · rcases hop with hop | hop <;> rw [hop] <;> simp
    · rcases ha with rfl | rfl <;> simp [Node.inputs]
  obtain ⟨m, mul, other, hsides, hm, hmop, hnodes⟩ := tryFuse_spec hq
  rw [hnodes]
  have hm' : (0 : Int) ≤ m ∧ (m : Int) < i := by
    rcases hsides with ⟨h0, -⟩ | ⟨h1, -⟩
    · exact hin m (.inl h0.symm)
    · exact hin m (.inr h1.symm)
  have hother : 0 ≤ other ∧ other < i := by
    rcases hsides with ⟨-, h1⟩ | ⟨-, h0⟩
    · exact hin other (.inr h1.symm)
    · exact hin other (.inl h0.symm)
  have hmok := h m mul hm
  have hmin : ∀ a, a = mul.in0 ∨ a = mul.in1 → 0 ≤ a ∧ a < i := by
    intro a ha
    have hlt : a < m := by
      refine hmok.refs a ((mem_nodeRefs (by rw [hmop]; simp)).mpr ?_)
      rcases ha with rfl | rfl <;> simp [Node.inputs]
    refine ⟨hmok.operands a ?_, by omega⟩
    rw [hmop]
    rcases ha with rfl | rfl <;> simp [Node.inputs, arity]
  have hfused : ∀ a ∈ [mul.in0, mul.in1, other], 0 ≤ a ∧ a < i := by
    intro a ha
    simp only [List.mem_cons, List.not_mem_nil, or_false] at ha
    rcases ha with rfl | rfl | rfl
    · exact hmin _ (.inl rfl)
    · exact hmin _ (.inr rfl)
    · exact hother
  refine NodesOk.modify_kill (NodesOk.set h (?_ : NodeOk i _)) _
  refine ⟨fun a ha => ?_, fun a ha => ?_, hnok.head, hnok.member⟩
  · exact (hfused a ((mem_nodeRefs (fmaOp_ne_stsw _ _)).mp ha)).2
  · exact (hfused a (List.mem_of_mem_take ha)).1

/-- One node of `pass_fma`. -/
theorem fmaNode_ok {i : Nat} {p : Pass} (h : NodesOk p.nodes) :
    NodesOk (fmaNode i p).nodes := by
  rcases fmaNode_cases i p with hp | ⟨n, first, q, hn, hop, hq, hp⟩
  · rw [hp]
    exact h
  · rw [hp]
    exact tryFuse_ok h hn hop hq

/-- The whole pass. -/
theorem passFma_ok {c : Context} (h : NodesOk c.nodes) :
    NodesOk (passFma c).nodes :=
  foldl_range_induct (fun _ (p : Pass) => NodesOk p.nodes) h
    fun _ _ _ h => fmaNode_ok h

-- =========================================================== use counts

/-- A live node that refers to `a`. -/
def UserOf (l : List Node) (a k : Nat) : Prop :=
  ∃ m, l[k]? = some m ∧ m.flags.dead = false ∧ (a : Int) ∈ m.inputs

/-- What a node adds to the count of `a`. -/
def usesIn (a : Nat) (n : Node) : Nat :=
  if n.flags.dead then 0 else n.inputs.count (a : Int)

/-- A user counts. -/
theorem UserOf.usesIn_pos {l : List Node} {a k : Nat}
    (h : UserOf l a k) : ∃ m, l[k]? = some m ∧ 1 ≤ usesIn a m := by
  obtain ⟨m, hm, hd, ha⟩ := h
  refine ⟨m, hm, ?_⟩
  unfold usesIn
  rw [hd]
  exact List.count_pos_iff.mpr ha

/-- The use count: the slots that name the node, and its users. -/
theorem countUses_eq (c : Context) (a : Nat) :
    countUses c a
      = (List.finRange 8).countP (fun d => c.slotVal d = .node a)
        + (c.nodes.map (usesIn a)).sum := by
  have hfilter : ∀ l : List Node,
      ((l.filter fun n => !n.flags.dead).map
        fun n => n.inputs.count (a : Int)).sum
        = (l.map (usesIn a)).sum := by
    intro l
    induction l with
    | nil => rfl
    | cons n l ih =>
        cases hd : n.flags.dead with
        | true => simp [hd, usesIn, ih]
        | false => simp [hd, usesIn, ih]
  unfold countUses
  rw [hfilter]

/-- One element of a sum. -/
theorem getElem?_le_sum {f : Node → Nat} {l : List Node} {k : Nat}
    {n : Node} (hk : l[k]? = some n) : f n ≤ (l.map f).sum := by
  induction l generalizing k with
  | nil => cases hk
  | cons m l ih =>
      rw [List.map_cons, List.sum_cons]
      cases k with
      | zero =>
          cases hk
          exact Nat.le_add_right _ _
      | succ k =>
          have := ih hk
          omega

/-- Two elements of a sum. -/
theorem pair_le_sum {f : Node → Nat} {l : List Node} {k k' : Nat}
    {n n' : Node} (hlt : k < k') (hk : l[k]? = some n)
    (hk' : l[k']? = some n') : f n + f n' ≤ (l.map f).sum := by
  induction l generalizing k k' with
  | nil => cases hk
  | cons m l ih =>
      rw [List.map_cons, List.sum_cons]
      cases k' with
      | zero => omega
      | succ k' =>
          cases k with
          | zero =>
              cases hk
              have := getElem?_le_sum (f := f) (l := l) hk'
              omega
          | succ k =>
              have := ih (Nat.lt_of_succ_lt_succ hlt) hk hk'
              omega

/-- A node used once has one user. -/
theorem single_user {c : Context} {a k k' : Nat}
    (h1 : countUses c a = 1) (hk : UserOf c.nodes a k)
    (hk' : UserOf c.nodes a k') : k = k' := by
  obtain ⟨m, hm, hpos⟩ := hk.usesIn_pos
  obtain ⟨m', hm', hpos'⟩ := hk'.usesIn_pos
  rw [countUses_eq] at h1
  rcases Nat.lt_trichotomy k k' with hlt | heq | hgt
  · have := pair_le_sum (f := usesIn a) hlt hm hm'
    omega
  · exact heq
  · have := pair_le_sum (f := usesIn a) hgt hm' hm
    omega

/-- Which refers to it once. -/
theorem single_count {c : Context} {a k : Nat} {n : Node}
    (h1 : countUses c a = 1) (hn : c.nodes[k]? = some n)
    (hlive : n.flags.dead = false) : n.inputs.count (a : Int) ≤ 1 := by
  rw [countUses_eq] at h1
  have hsum := getElem?_le_sum (f := usesIn a) hn
  have hself : usesIn a n = n.inputs.count (a : Int) := by
    simp [usesIn, hlive]
  omega

/-- And the final stack is none of them. -/
theorem single_user_slot {c : Context} {a k : Nat} {d : Fin 8}
    (h1 : countUses c a = 1) (hk : UserOf c.nodes a k) :
    c.slotVal d ≠ .node a := by
  intro hd
  obtain ⟨m, hm, hpos⟩ := hk.usesIn_pos
  rw [countUses_eq] at h1
  have hsum := getElem?_le_sum (f := usesIn a) hm
  have hslot : 0 < (List.finRange 8).countP
      fun d => c.slotVal d = .node a :=
    List.countP_pos_iff.mpr ⟨d, List.mem_finRange d, by simpa using hd⟩
  omega

end X87Sidecar
