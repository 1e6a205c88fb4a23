/-
The chains of the multiply-add reduction pass.

`findChain_spec` collects what the pass has checked of a chain before it
tags it, and `tagChain_getElem?` says what tagging does, node by node:
flags change, and nothing else.
-/
import X87Sidecar.IR.Optimize
import X87Sidecar.Lib.Pointwise

namespace X87Sidecar

namespace Optimize

variable {nodes : List Node} {uses : Nat → Int} {i a b fuel : Nat}
  {chain : List Nat}

-- ======================================================== the walk

/-- What the walk requires of the node after `a`. -/
structure Accumulates (nodes : List Node) (a b : Nat) : Prop where
  later : a < b
  node : ∃ m, nodes[b]? = some m ∧ m.flags.dead = false ∧ m.op = .FMAdd
    ∧ m.in2 = (a : Int)

/-- The condition `nextFma` searches with. -/
theorem accumulates_iff : Accumulates nodes a b ↔
    (a < b && nodes[b]?.any fun m =>
      !m.flags.dead && m.op = .FMAdd && m.in2 = (a : Int)) = true := by
  simp only [Bool.and_eq_true, decide_eq_true_eq, Option.any_eq_true,
    Bool.not_eq_true']
  constructor
  · rintro ⟨hlt, m, hm, hd, hop, hin⟩
    exact ⟨hlt, m, hm, ⟨hd, hop⟩, hin⟩
  · rintro ⟨hlt, m, hm, ⟨hd, hop⟩, hin⟩
    exact ⟨hlt, m, hm, hd, hop, hin⟩

theorem nextFma_eq_some (h : nextFma nodes a = some b) :
    Accumulates nodes a b ∧ ∀ j, j < b → ¬Accumulates nodes a j := by
  unfold nextFma at h
  rw [List.find?_range_eq_some] at h
  obtain ⟨hb, -, hmin⟩ := h
  refine ⟨accumulates_iff.mpr hb, fun j hj hacc => ?_⟩
  have := hmin j hj
  rw [accumulates_iff.mp hacc] at this
  cases this

theorem nextFma_spec (h : nextFma nodes a = some b) :
    Accumulates nodes a b := (nextFma_eq_some h).1

theorem nextFma_eq_none (h : nextFma nodes a = none) :
    ∀ j, ¬Accumulates nodes a j := by
  unfold nextFma at h
  rw [List.find?_range_eq_none] at h
  intro j hacc
  obtain ⟨-, m, hm, -⟩ := id hacc
  obtain ⟨hj, -⟩ := List.getElem?_eq_some_iff.mp hm
  have := h j hj
  rw [accumulates_iff.mp hacc] at this
  cases this

/-- Two neighbours of a chain. -/
structure Link (nodes : List Node) (uses : Nat → Int) (a b : Nat) :
    Prop where
  next : nextFma nodes a = some b
  single : uses a = 1

theorem extend_isChain (nodes : List Node) (uses : Nat → Int)
    (fuel tail : Nat) :
    (tail :: extend nodes uses fuel tail).IsChain (Link nodes uses) := by
  induction fuel generalizing tail with
  | zero => exact .singleton _
  | succ fuel ih =>
      unfold extend
      split
      · next b hb =>
        split
        · next h1 => exact .cons_cons ⟨hb, h1⟩ (ih b)
        · exact .singleton _
      · exact .singleton _

/-- Every node of a chain but the first follows one of its nodes. -/
theorem linked_mem_tail {l : List Nat}
    (h : (i :: l).IsChain (Link nodes uses)) :
    ∀ b ∈ l, ∃ a ∈ i :: l, Link nodes uses a b := by
  induction l generalizing i with
  | nil => simp
  | cons c l ih =>
      obtain ⟨hic, hcl⟩ := List.isChain_cons_cons.mp h
      refine List.forall_mem_cons.mpr ⟨⟨i, List.mem_cons_self .., hic⟩,
        fun b hb => ?_⟩
      obtain ⟨a, ha, hab⟩ := ih hcl b hb
      exact ⟨a, List.mem_cons_of_mem _ ha, hab⟩

/-- Every node of a chain but the last is followed by one of its nodes. -/
theorem linked_mem_init {l : List Nat}
    (h : (i :: l).IsChain (Link nodes uses)) :
    ∀ a ∈ i :: l, a ≠ l.getLastD i →
      ∃ b ∈ i :: l, Link nodes uses a b := by
  induction l generalizing i with
  | nil =>
      intro a ha hne
      rw [List.mem_singleton.mp ha] at hne
      exact absurd rfl hne
  | cons c l ih =>
      obtain ⟨hic, hcl⟩ := List.isChain_cons_cons.mp h
      intro a ha hne
      rw [List.getLastD_cons] at hne
      rcases List.mem_cons.mp ha with rfl | ha
      · exact ⟨c, by simp, hic⟩
      · obtain ⟨b, hb, hab⟩ := ih hcl a ha hne
        exact ⟨b, List.mem_cons_of_mem _ hb, hab⟩

-- ==================================================== what is validated

/-- An input that a chain of width `elem` may absorb. -/
structure Absorbable (nodes : List Node) (uses : Nat → Int) (elem : Op)
    (input : Int) : Prop where
  nonneg : 0 ≤ input
  single : uses input.toNat = 1
  node : ∃ ld, nodes[input.toNat]? = some ld ∧ ld.op = elem
    ∧ ld.flags.dead = false ∧ ld.flags.fmaReduceMember = false
    ∧ (extractSimpleMem ld).isSome

theorem elemLoad_spec {elem : Op} {input : Int} {addr}
    (h : elemLoad nodes uses elem input = some addr) :
    Absorbable nodes uses elem input := by
  unfold elemLoad at h
  split at h
  · cases h
  · next hneg =>
    split at h
    · next ld hld =>
      split at h
      · next hc =>
        simp only [Bool.and_eq_true, Bool.not_eq_true',
          decide_eq_true_eq] at hc
        exact ⟨Int.not_lt.mp hneg, hc.1.2, ld, hld, hc.1.1.1, hc.1.1.2,
          hc.2, by rw [h]; rfl⟩
      · cases h
    · cases h

/-- A traversal that succeeds has succeeded at each element. -/
theorem mapM_isSome {α β : Type} {f : α → Option β} {l : List α}
    {r : List β} (h : l.mapM f = some r) : ∀ a ∈ l, ∃ b, f a = some b := by
  induction l generalizing r with
  | nil => simp
  | cons x l ih =>
      simp only [List.mapM_cons, Option.pure_def, Option.bind_eq_bind,
        Option.bind_eq_some_iff] at h
      obtain ⟨b, hb, r', hr', -⟩ := h
      exact List.forall_mem_cons.mpr ⟨⟨b, hb⟩, ih hr'⟩

theorem stream_spec {elem : Op} {side : Node → Int} {addrs}
    (h : stream nodes uses elem side chain = some addrs) :
    ∀ k ∈ chain, ∃ m, nodes[k]? = some m
      ∧ Absorbable nodes uses elem (side m) := by
  intro k hk
  obtain ⟨addr, haddr⟩ := mapM_isSome h k hk
  obtain ⟨m, hm, hload⟩ := Option.bind_eq_some_iff.mp haddr
  exact ⟨m, hm, elemLoad_spec hload⟩

/-- A member of a chain of width `elem`. -/
structure Member (nodes : List Node) (uses : Nat → Int) (elem : Op)
    (k : Nat) (m : Node) : Prop where
  at_ : nodes[k]? = some m
  op : m.op = .FMAdd
  live : m.flags.dead = false
  left : Absorbable nodes uses elem m.in0
  right : Absorbable nodes uses elem m.in1

/-- What the pass has checked of a chain. -/
structure Chain (nodes : List Node) (uses : Nat → Int) (i : Nat)
    (elem : Op) (chain : List Nat) : Prop where
  start : ∃ rest, chain = i :: rest ∧ rest ≠ []
  walk : chain = i :: extend nodes uses (kMaxNodes - 1) i
  linked : chain.IsChain (Link nodes uses)
  width : elemOp nodes chain = some elem
  member : ∀ k ∈ chain, ∃ m, Member nodes uses elem k m
  free : ∀ m, nodes[i]? = some m → m.flags.fmaReduceMember = false
  root : ∀ m, nodes[i]? = some m → ∀ (p : Nat) (a : Node), m.in2 = p →
    nodes[p]? = some a → a.op = .FMAdd → a.flags.fmaReduceMember = false

theorem elemOp_load {elem : Op} (h : elemOp nodes chain = some elem) :
    elem = .LoadF32 ∨ elem = .LoadF64 := by
  unfold elemOp at h
  split at h
  · split at h
    · cases h
    · split at h
      · split at h
        · next hop =>
          cases h
          simpa using hop
        · cases h
      · cases h
  · cases h

/-- `mayHead`, read. -/
theorem mayHead_spec (h : mayHead nodes i = true) :
    ∃ m, nodes[i]? = some m ∧ m.flags.dead = false
      ∧ m.flags.fmaReduceMember = false ∧ m.op = .FMAdd
      ∧ ∀ (p : Nat) (a : Node), m.in2 = p → nodes[p]? = some a →
        a.op = .FMAdd → a.flags.fmaReduceMember = false := by
  unfold mayHead at h
  obtain ⟨m, hm, hc⟩ := Option.any_eq_true .. |>.mp h
  simp only [Bool.and_eq_true, Bool.not_eq_true', decide_eq_true_eq] at hc
  refine ⟨m, hm, hc.1.1.1, hc.1.1.2, hc.1.2, fun p a hp ha hop => ?_⟩
  have hroot := hc.2
  rw [hp, Int.toNat_natCast, ha] at hroot
  simpa [hop] using hroot

theorem findChain_spec (h : findChain uses nodes i = some chain) :
    ∃ elem, Chain nodes uses i elem chain := by
  unfold findChain at h
  dsimp only at h
  split at h
  case isFalse => cases h
  next hc =>
  cases h
  obtain ⟨hhead, hvalid⟩ := Bool.and_eq_true .. |>.mp hc
  obtain ⟨n, hn, hlive, hfree, hop, hroot⟩ := mayHead_spec hhead
  unfold valid at hvalid
  obtain ⟨htwo, hmatch⟩ := Bool.and_eq_true .. |>.mp hvalid
  split at hmatch
  case h_2 => cases hmatch
  next elem helem =>
  split at hmatch
  case h_2 => cases hmatch
  next l w hl hw =>
  have hlinked := extend_isChain nodes uses (kMaxNodes - 1) i
  refine ⟨elem, ⟨_, rfl, ?_⟩, rfl, hlinked, helem, ?_, ?_, ?_⟩
  · intro hnil
    rw [hnil] at htwo
    simp at htwo
  · intro k hk
    obtain ⟨m, hm, hleft⟩ := stream_spec hl k hk
    obtain ⟨m', hm', hright⟩ := stream_spec hw k hk
    rw [hm] at hm'
    cases hm'
    have hm' : m.op = .FMAdd ∧ m.flags.dead = false := by
      rcases List.mem_cons.mp hk with rfl | hk
      · rw [hn] at hm
        cases hm
        exact ⟨hop, hlive⟩
      · obtain ⟨a, -, hlink⟩ := linked_mem_tail hlinked k hk
        obtain ⟨-, m', hm', hlive', hop', -⟩ := nextFma_spec hlink.next
        rw [hm] at hm'
        cases hm'
        exact ⟨hop', hlive'⟩
    exact ⟨m, hm, hm'.1, hm'.2, hleft, hright⟩
  · intro m hm
    rw [hn] at hm
    cases hm
    exact hfree
  · intro m hm
    rw [hn] at hm
    cases hm
    exact hroot

-- ============================================================= tagging

/-- Does the chain tag `a` when it tags the multiply-add `k`? -/
def touches (nodes : List Node) (k a : Nat) : Bool :=
  a = k || nodes[k]?.any fun m => a = m.in0.toNat || a = m.in1.toNat

/-- The nodes a chain absorbs: its multiply-adds and their loads. -/
def absorbed (nodes : List Node) (chain : List Nat) (a : Nat) : Bool :=
  chain.any fun k => touches nodes k a

/-- A tagged node. -/
def tagged (head member : Bool) (n : Node) : Node :=
  { n with flags :=
      { n.flags with
        fmaReduceHead := n.flags.fmaReduceHead || head
        fmaReduceMember := n.flags.fmaReduceMember || member } }

@[simp] theorem tagged_false (n : Node) : tagged false false n = n := by
  simp [tagged]

theorem tagged_tagged (h h' t t' : Bool) (n : Node) :
    tagged h t (tagged h' t' n) = tagged (h' || h) (t' || t) n := by
  simp [tagged, Bool.or_assoc]

/-- One node absorbed. -/
theorem modify_absorb (nodes : List Node) (k a : Nat) :
    (nodes.modify k absorb)[a]?
      = nodes[a]?.map (tagged false (decide (a = k))) := by
  rw [List.getElem?_modify]
  cases nodes[a]? with
  | none => rfl
  | some n =>
      by_cases h : k = a
      · simp [h, absorb, tagged]
      · simp [h, Ne.symm h]

theorem tagMember_getElem? (nodes : List Node) (k a : Nat) :
    (tagMember nodes k)[a]?
      = nodes[a]?.map (tagged false (touches nodes k a)) := by
  unfold tagMember touches
  split
  · next m hm =>
    simp only [modify_absorb, hm, Option.map_map, Option.any_some,
      Function.comp_def, tagged_tagged, Bool.or_false, Bool.or_assoc]
  · next hm =>
    rw [hm]
    by_cases h : a = k
    · rw [h, hm]
      rfl
    · cases nodes[a]? <;> simp [h]

/-- Tagging one multiply-add does not change what another one tags. -/
theorem touches_tagMember (nodes : List Node) (k k' a : Nat) :
    touches (tagMember nodes k) k' a = touches nodes k' a := by
  unfold touches
  rw [tagMember_getElem?]
  cases nodes[k']? <;> rfl

theorem absorbed_tagMember (nodes : List Node) (k a : Nat)
    (chain : List Nat) :
    absorbed (tagMember nodes k) chain a = absorbed nodes chain a := by
  unfold absorbed
  simp only [touches_tagMember]

theorem foldl_tagMember_getElem? (nodes : List Node) (chain : List Nat)
    (a : Nat) :
    (chain.foldl tagMember nodes)[a]?
      = nodes[a]?.map (tagged false (absorbed nodes chain a)) := by
  induction chain generalizing nodes with
  | nil =>
      cases h : nodes[a]? <;> simp [absorbed, h]
  | cons k chain ih =>
      rw [List.foldl_cons, ih, tagMember_getElem?, absorbed_tagMember,
        Option.map_map]
      simp only [Function.comp_def, tagged_tagged, Bool.or_false]
      rfl

/-- One node made a head. -/
theorem modify_lead (nodes : List Node) (k a : Nat) :
    (nodes.modify k lead)[a]?
      = nodes[a]?.map (tagged (decide (a = k)) false) := by
  rw [List.getElem?_modify]
  cases nodes[a]? with
  | none => rfl
  | some n =>
      by_cases h : k = a
      · simp [h, lead, tagged]
      · simp [h, Ne.symm h]

/-- What tagging a chain does to each node. -/
theorem tagChain_getElem? (nodes : List Node) (chain : List Nat)
    (a : Nat) :
    (tagChain nodes chain)[a]?
      = nodes[a]?.map (tagged (decide (a = chain.headD 0))
          (absorbed nodes chain a)) := by
  have hsame : ∀ k, touches (nodes.modify (chain.headD 0) lead) k a
      = touches nodes k a := by
    intro k
    unfold touches
    rw [modify_lead]
    cases nodes[k]? <;> rfl
  unfold tagChain
  rw [foldl_tagMember_getElem?, modify_lead, Option.map_map]
  simp only [Function.comp_def, tagged_tagged, Bool.or_false,
    Bool.false_or, absorbed, hsame]

theorem Chain.absorbed_head {elem : Op}
    (h : Chain nodes uses i elem chain) :
    absorbed nodes chain (chain.headD 0) = true := by
  obtain ⟨rest, rfl, -⟩ := h.start
  simp [absorbed, touches]

/-- A chain only absorbs multiply-adds and loads of its width. -/
theorem Chain.absorbed_op {elem : Op} (h : Chain nodes uses i elem chain)
    (ha : absorbed nodes chain a = true) :
    ∃ n, nodes[a]? = some n ∧ (n.op = .FMAdd ∨ n.op = elem) := by
  unfold absorbed at ha
  obtain ⟨k, hk, hka⟩ := List.any_eq_true.mp ha
  obtain ⟨m, hm⟩ := h.member k hk
  unfold touches at hka
  rw [hm.at_] at hka
  simp only [Option.any_some, Bool.or_eq_true, decide_eq_true_eq] at hka
  rcases hka with rfl | rfl | rfl
  · exact ⟨m, hm.at_, .inl hm.op⟩
  · obtain ⟨ld, hld, hop, -⟩ := hm.left.node
    exact ⟨ld, hld, .inr hop⟩
  · obtain ⟨ld, hld, hop, -⟩ := hm.right.node
    exact ⟨ld, hld, .inr hop⟩

end Optimize

end X87Sidecar
