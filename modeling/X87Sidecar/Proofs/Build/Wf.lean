/-
The shape of every Context the builder makes, whatever the values.

`Wf` says that a node refers to older nodes only, that the tables of the
Context name nodes that exist, that `last_fcmp` is the last comparison,
and that each `FStsw` remembers the last comparison before it. `Has` adds
what one instruction keeps track of while it is being built. The triples
below are one for each routine of the builder, as in `Proofs.Build.Steps`,
but they hold for every instruction without a condition.
-/
import X87Sidecar.IR.Build
import X87Sidecar.IR.Denote

namespace X87Sidecar

open Lib Lib.Keep Context Denote

/-- A comparison that writes the condition codes. -/
def Node.isCmp (n : Node) : Bool := n.op = .FCmp || n.op = .FTst

/-- A node of a list of `count` older nodes. -/
def Node.RefsBelow (count : Nat) (n : Node) : Prop :=
  ∀ a ∈ n.nodeRefs, a < count

namespace BuildWf

/-- `j` is the last comparison of the list, or -1. -/
def LastCmp (nodes : List Node) (j : Int) : Prop :=
  (j = -1 ∧ ∀ n ∈ nodes, n.isCmp = false) ∨
    ∃ (i : Nat) (n : Node), j = i ∧ nodes[i]? = some n ∧ n.isCmp = true ∧
      ∀ (i' : Nat) (n' : Node), i < i' → nodes[i']? = some n' →
        n'.isCmp = false

/-- The shape of a Context under construction. -/
structure Wf (c : Context) : Prop where
  fresh : ∀ n ∈ c.nodes, Fresh n
  refs : ∀ (i : Nat) (n : Node), c.nodes[i]? = some n → n.RefsBelow i
  operands : ∀ n ∈ c.nodes, Operands n
  slots : ∀ d id, c.slotVal d = .node id → id < c.numNodes
  reads : ∀ i id, c.initialRead i = some id → id < c.numNodes
  cmp : LastCmp c.nodes c.lastFcmp
  stsw : ∀ (s : Nat) (n : Node), c.nodes[s]? = some n →
    n.op = .FStsw → LastCmp (c.nodes.take s) n.in0

variable {c : Context} {td : Int} {k : Nat} {ids : List Nat}

/-- A node that compares nothing leaves the last comparison. -/
theorem LastCmp.concat_of_not {nodes : List Node} {j : Int} {n : Node}
    (h : LastCmp nodes j) (hn : n.isCmp = false) :
    LastCmp (nodes ++ [n]) j := by
  rcases h with ⟨rfl, h⟩ | ⟨i, m, rfl, hi, hm, hlast⟩
  · refine .inl ⟨rfl, fun m hm => ?_⟩
    rcases List.mem_append.mp hm with hm | hm
    · exact h m hm
    · rw [List.mem_singleton.mp hm]
      exact hn
  · obtain ⟨hlt, -⟩ := List.getElem?_eq_some_iff.mp hi
    refine .inr ⟨i, m, rfl, ?_, hm, fun i' n' hi' hn' => ?_⟩
    · rw [List.getElem?_append_left hlt]
      exact hi
    · by_cases hlt' : i' < nodes.length
      · rw [List.getElem?_append_left hlt'] at hn'
        exact hlast i' n' hi' hn'
      · rw [List.getElem?_append_right (Nat.le_of_not_lt hlt')] at hn'
        have hmem := List.mem_of_getElem? hn'
        rw [List.mem_singleton.mp hmem]
        exact hn

/-- One that compares is the last. -/
theorem LastCmp.concat {nodes : List Node} {n : Node}
    (hn : n.isCmp = true) : LastCmp (nodes ++ [n]) nodes.length := by
  refine .inr ⟨nodes.length, n, rfl, List.getElem?_concat_length, hn,
    fun i' n' hi' hn' => ?_⟩
  obtain ⟨hlt, -⟩ := List.getElem?_eq_some_iff.mp hn'
  rw [List.length_append] at hlt
  exact absurd hlt (by simp; omega)

/-- While an instruction met in the Context `base` is built: the Context is
well formed and extends `base`, the stack is `td` deep, the nodes `ids`
exist, and the instruction's own `FStsw` holds the depth of `base`. -/
structure Has (base : Context) (td : Int) (ids : List Nat) (c : Context) :
    Prop where
  wf : Wf c
  depth : c.topDelta = td
  consumed : c.consumed = base.consumed
  source : c.nodeSrc = base.nodeSrc
  older : base.nodes <+: c.nodes
  ids : ∀ a ∈ ids, a < c.numNodes
  own : ∀ (s : Nat) (n : Node), base.numNodes ≤ s → c.nodes[s]? = some n →
    n.op = .FStsw → n.in2 = base.topDelta

variable {base : Context}

-- ========================================================= primitives

/-- What holds of each node holds of the nodes and one more. -/
theorem forall_concat {P : Nat → Node → Prop} {n : Node}
    (h : ∀ (i : Nat) (m : Node), c.nodes[i]? = some m → P i m)
    (hn : P c.numNodes n) :
    ∀ (i : Nat) (m : Node), (c.nodes ++ [n])[i]? = some m → P i m := by
  intro i m hi
  rcases Nat.lt_trichotomy i c.nodes.length with hlt | heq | hgt
  · rw [List.getElem?_append_left hlt] at hi
    exact h i m hi
  · subst heq
    rw [List.getElem?_concat_length] at hi
    cases hi
    exact hn
  · obtain ⟨hlt, -⟩ := List.getElem?_eq_some_iff.mp hi
    rw [List.length_append] at hlt
    exact absurd hlt (by simp; omega)

/-- Appending a node, whose comparison `last_fcmp` is then to name. -/
theorem Wf.concat {n : Node} {j : Int} (h : Wf c) (hfresh : Fresh n)
    (hrefs : n.RefsBelow c.numNodes) (hargs : Operands n)
    (hcmp : LastCmp (c.nodes ++ [n]) j)
    (hstsw : n.op = .FStsw → n.in0 = c.lastFcmp) :
    Wf { c with nodes := c.nodes ++ [n], lastFcmp := j } where
  fresh := by
    intro m hm
    rcases List.mem_append.mp hm with hm | hm
    · exact h.fresh m hm
    · rw [List.mem_singleton.mp hm]
      exact hfresh
  refs := forall_concat (P := fun i m => m.RefsBelow i) h.refs hrefs
  operands := by
    intro m hm
    rcases List.mem_append.mp hm with hm | hm
    · exact h.operands m hm
    · rw [List.mem_singleton.mp hm]
      exact hargs
  slots := fun d id hd => by
    have := h.slots d id hd
    show id < (c.nodes ++ [n]).length
    rw [List.length_append]
    exact Nat.lt_succ_of_lt this
  reads := fun i id hi => by
    have := h.reads i id hi
    show id < (c.nodes ++ [n]).length
    rw [List.length_append]
    exact Nat.lt_succ_of_lt this
  cmp := hcmp
  stsw := by
    refine forall_concat (P := fun s m => m.op = .FStsw →
      LastCmp ((c.nodes ++ [n]).take s) m.in0) (fun s m hm hop => ?_)
      fun hop => ?_
    · obtain ⟨hlt, -⟩ := List.getElem?_eq_some_iff.mp hm
      rw [List.take_append_of_le_length (Nat.le_of_lt hlt)]
      exact h.stsw s m hm hop
    · rw [hstsw hop, show c.numNodes = c.nodes.length from rfl,
        List.take_left]
      exact h.cmp

/-- A new node is remembered, and older than the next. -/
theorem Has.concat {n : Node} {j : Int}
    (h : Has base td ids c) (hfresh : Fresh n)
    (hrefs : n.RefsBelow c.numNodes) (hargs : Operands n)
    (hcmp : LastCmp (c.nodes ++ [n]) j)
    (hstsw : n.op = .FStsw → n.in0 = c.lastFcmp ∧ n.in2 = base.topDelta) :
    Has base td (c.numNodes :: ids)
      { c with nodes := c.nodes ++ [n], lastFcmp := j } where
  wf := h.wf.concat hfresh hrefs hargs hcmp fun hop => (hstsw hop).1
  depth := h.depth
  consumed := h.consumed
  source := h.source
  older := h.older.trans (List.prefix_append _ _)
  ids := by
    have hcount : ({ c with nodes := c.nodes ++ [n], lastFcmp := j }
      : Context).numNodes = c.numNodes + 1 := List.length_append
    rw [hcount]
    refine List.forall_mem_cons.mpr ⟨Nat.lt_succ_self _, fun a ha => ?_⟩
    exact Nat.lt_succ_of_lt (h.ids a ha)
  own := fun s m hs hm => forall_concat (P := fun s m => base.numNodes ≤ s →
    m.op = .FStsw → m.in2 = base.topDelta) (fun s m hm hs => h.own s m hs hm)
    (fun _ hop => (hstsw hop).2) s m hm hs

/-- What a node refers to is among its inputs. -/
theorem nodeRefs_subset {n : Node} {a : Int} (h : a ∈ n.nodeRefs) :
    a ∈ n.inputs := by
  unfold Node.nodeRefs at h
  split at h
  · exact List.mem_of_mem_head? (by
      rw [List.mem_singleton.mp h]
      rfl)
  · exact h

/-- The inputs of a node are remembered nodes, or not nodes at all, and
those it computes with are nodes. -/
structure InputsIn (ids : List Nat) (n : Node) : Prop where
  each : ∀ a ∈ n.inputs, a < 0 ∨ ∃ b ∈ ids, a = (b : Nat)
  operands : Operands n

/-- Built from remembered nodes, a node refers to older ones. -/
theorem Has.refsBelow {n : Node} (h : Has base td ids c)
    (hin : InputsIn ids n) : n.RefsBelow c.numNodes := by
  intro a ha
  rcases hin.each a (nodeRefs_subset ha) with hneg | ⟨b, hb, rfl⟩
  · omega
  · have := h.ids b hb
    omega

/-- Append a node that is neither a comparison nor an `FStsw`. -/
theorem node_triple {n : Node} (hfresh : Fresh n)
    (hin : InputsIn ids n) (hcmp : n.isCmp = false)
    (hop : n.op ≠ .FStsw) :
    Triple (Has base td ids) (addNode n)
      (fun id => Has base td (id :: ids))
      (Has base td ids) := by
  intro c hc
  unfold addNode
  by_cases hcap : kMaxNodes ≤ c.numNodes
  · simp only [if_pos hcap]
    exact hc
  · simp only [if_neg hcap]
    exact hc.concat hfresh (hc.refsBelow hin) hin.operands
      (hc.wf.cmp.concat_of_not hcmp) fun h => absurd h hop

/-- Bookkeeping that leaves the nodes and the depth alone. -/
theorem Has.slots {slotVal : Fin 8 → SlotVal}
    (h : Has base td ids c)
    (hs : ∀ d id, slotVal d = .node id → id < c.numNodes) :
    Has base td ids { c with slotVal } :=
  ⟨⟨h.wf.fresh, h.wf.refs, h.wf.operands, hs, h.wf.reads, h.wf.cmp,
      h.wf.stsw⟩,
    h.depth, h.consumed, h.source, h.older, h.ids, h.own⟩

/-- A remembered node may stand in any slot. -/
theorem Has.setSlot (h : Has base td ids c) (d : Nat) {id : Nat}
    (hid : id ∈ ids) :
    Has base td ids (c.setSlot d (.node id)) := by
  unfold Context.setSlot
  split
  · refine h.slots fun e id' he => ?_
    by_cases hed : e = ⟨d, by assumption⟩
    · subst hed
      rw [Function.update_self] at he
      cases he
      exact h.ids _ hid
    · rw [Function.update_of_ne hed] at he
      exact h.wf.slots e id' he
  · exact h

/-- Nothing need be remembered. -/
theorem Has.forget (h : Has base td ids c) :
    Has base td [] c :=
  ⟨h.wf, h.depth, h.consumed, h.source, h.older, by simp, h.own⟩

/-- Any node that is there can be. -/
theorem Has.cons (h : Has base td ids c) {id : Nat}
    (hid : id < c.numNodes) : Has base td (id :: ids) c :=
  ⟨h.wf, h.depth, h.consumed, h.source, h.older,
    List.forall_mem_cons.mpr ⟨hid, h.ids⟩, h.own⟩

/-- A push of a remembered node. -/
theorem Has.push (h : Has base td ids c) {id : Nat}
    (hid : id ∈ ids) : Has base (td - 1) [] (c.push id) := by
  refine ⟨⟨h.wf.fresh, h.wf.refs, h.wf.operands, fun d id' hd => ?_,
    h.wf.reads, h.wf.cmp, h.wf.stsw⟩, ?_, h.consumed, h.source,
    h.older, by simp, h.own⟩
  · change (if d.val = 0 then SlotVal.node id
      else c.slotVal ⟨d.val - 1, by omega⟩) = .node id' at hd
    split at hd
    · cases hd
      exact h.ids _ hid
    · exact h.wf.slots _ _ hd
  · show c.topDelta - 1 = td - 1
    rw [h.depth]

/-- A pop. -/
theorem Has.pop (h : Has base td ids c) :
    Has base (td + 1) [] c.pop := by
  refine ⟨⟨h.wf.fresh, h.wf.refs, h.wf.operands, fun d id hd => ?_,
    h.wf.reads, h.wf.cmp, h.wf.stsw⟩, ?_, h.consumed, h.source,
    h.older, by simp, h.own⟩
  · change (if h : d.val + 1 < 8 then c.slotVal ⟨d.val + 1, h⟩
      else .popped) = .node id at hd
    split at hd
    · exact h.wf.slots _ _ hd
    · cases hd
  · show c.topDelta + 1 = td + 1
    rw [h.depth]

/-- So many pops. -/
theorem Has.pops (h : Has base td ids c) (n : Nat) :
    Has base (td + n) [] (Build.pops n c) := by
  unfold Build.pops
  induction n generalizing c td ids with
  | zero =>
      have := h.forget
      rwa [Nat.cast_zero, Int.add_zero]
  | succ n ih =>
      have := ih h.pop
      rw [Function.iterate_succ_apply]
      rwa [show td + 1 + (n : Int) = td + ((n + 1 : Nat) : Int) by
        omega] at this

/-- A slot resolved is a node, read for this if it has not been. -/
theorem resolve_triple (d : Nat) :
    Triple (Has base td ids) (resolve d)
      (fun id => Has base td (id :: ids))
      (Has base td ids) := by
  intro c hc
  unfold resolve
  by_cases hd : d < 8
  case neg =>
    simp only [dif_neg hd]
    exact hc
  simp only [dif_pos hd]
  cases hs : c.slotVal ⟨d, hd⟩ with
  | node id => exact hc.cons (hc.wf.slots _ _ hs)
  | popped => exact hc
  | initial i =>
      by_cases hi : i < 8
      case neg =>
        simp only [dif_neg hi]
        exact hc
      simp only [dif_pos hi]
      cases hr : c.initialRead ⟨i, hi⟩ with
      | some id =>
          exact (hc.cons (hc.wf.reads _ _ hr)).setSlot d
            (List.mem_cons_self ..)
      | none =>
          have hadd := node_triple
            (n := { op := .ReadSt, initialDepth := i }) ⟨rfl, rfl, rfl, rfl⟩
            ⟨fun a ha => .inl (by
              simp [Node.inputs] at ha
              omega), by simp [Operands, arity]⟩ rfl (by simp) c hc
          rcases ha :
            addNode { op := .ReadSt, initialDepth := i } c with ⟨o, c'⟩
          rw [ha] at hadd
          cases o with
          | none => exact hadd
          | some id =>
              have hset := hadd.setSlot d (List.mem_cons_self ..)
              rw [setSlot_of_lt hd] at hset
              refine ⟨⟨hset.wf.fresh, hset.wf.refs, hset.wf.operands,
                hset.wf.slots, fun j id' hj => ?_, hset.wf.cmp, hset.wf.stsw⟩,
                hset.depth, hset.consumed, hset.source, hset.older,
                hset.ids, hset.own⟩
              change Function.update c'.initialRead ⟨i, hi⟩ (some id) j
                = some id' at hj
              by_cases hji : j = ⟨i, hi⟩
              · subst hji
                rw [Function.update_self] at hj
                cases hj
                exact hadd.ids _ (List.mem_cons_self ..)
              · rw [Function.update_of_ne hji] at hj
                exact hadd.wf.reads j id' hj

-- ========================================================== routines

/-- The postcondition of an instruction that moves the stack by `δ`. -/
def Ends (base : Context) (δ : Int) (_ : Unit) (c : Context) : Prop :=
  Has base (base.topDelta + δ) [] c

/-- Where a failing instruction leaves the Context. -/
def Stops (base c : Context) : Prop := Has base base.topDelta [] c

/-- The same at the depth the instruction began at. -/
theorem resolve_stops (d : Nat) :
    Triple (Has base base.topDelta ids) (resolve d)
      (fun id => Has base base.topDelta (id :: ids)) (Stops base) :=
  (resolve_triple d).failTo fun _ h => h.forget

/-- Two operands resolved together, whether or not both are there. -/
theorem resolveBoth_stops (d e : Nat) :
    Triple (Has base base.topDelta ids) (Build.resolveBoth d e)
      (fun ab => Has base base.topDelta (ab.2 :: ab.1 :: ids))
      (Stops base) :=
  Triple.both (resolve_triple d) (fun _ => resolve_stops e)
    ((resolve_stops e).conseq (fun _ h => h) (fun _ _ h => h.forget)
      fun _ h => h)

/-- A node built there. -/
theorem node_stops {n : Node} (hfresh : Fresh n)
    (hin : InputsIn ids n) (hcmp : n.isCmp = false)
    (hop : n.op ≠ .FStsw) :
    Triple (Has base base.topDelta ids) (addNode n)
      (fun id => Has base base.topDelta (id :: ids)) (Stops base) :=
  (node_triple hfresh hin hcmp hop).failTo fun _ h => h.forget

/-- An instruction that leaves the stack as deep as it was. -/
theorem Has.ends (h : Has base base.topDelta ids c) :
    Ends base 0 () c := by
  unfold Ends
  rw [Int.add_zero]
  exact h.forget

/-- A node with no node for an input. -/
theorem inputsIn_of_neg {n : Node} (h : ∀ a ∈ n.inputs, a < 0)
    (har : arity n.op = 0) : InputsIn ids n where
  each := fun a ha => .inl (h a ha)
  operands := by simp [Operands, har]

/-- A node with one input. -/
theorem inputsIn_one {n : Node} {a : Nat} (ha : a ∈ ids)
    (h : n.inputs = [(a : Int), -1, -1]) (har : arity n.op ≤ 1) :
    InputsIn ids n := by
  refine ⟨fun x hx => ?_, fun x hx => ?_⟩
  case refine_2 =>
    have := (List.take_sublist_take_left har).mem hx
    rw [h] at this
    simp at this
    omega
  rw [h] at hx
  rcases List.mem_cons.mp hx with rfl | hx
  · exact .inr ⟨a, ha, rfl⟩
  · exact .inl (by simp at hx; omega)

/-- A node with two inputs. -/
theorem inputsIn_two {n : Node} {a b : Nat} (ha : a ∈ ids)
    (hb : b ∈ ids) (h : n.inputs = [(a : Int), (b : Int), -1])
    (har : arity n.op ≤ 2) : InputsIn ids n := by
  refine ⟨fun x hx => ?_, fun x hx => ?_⟩
  case refine_2 =>
    have := (List.take_sublist_take_left har).mem hx
    rw [h] at this
    simp at this
    omega
  rw [h] at hx
  rcases List.mem_cons.mp hx with rfl | hx
  · exact .inr ⟨a, ha, rfl⟩
  rcases List.mem_cons.mp hx with rfl | hx
  · exact .inr ⟨b, hb, rfl⟩
  · exact .inl (by simp at hx; omega)

/-- One that pushes ends one deeper. -/
theorem push_ends {id : Nat} (hid : id ∈ ids) {F : Context → Prop} :
    Triple (Has base base.topDelta ids) (Keep.modify (push id))
      (Ends base (-1)) F :=
  Triple.modify fun _ h => h.push hid

/-- One that replaces a slot. -/
theorem setSlot_ends (d : Nat) {id : Nat} (hid : id ∈ ids)
    {F : Context → Prop} :
    Triple (Has base base.topDelta ids)
      (Keep.modify (setSlot d (.node id))) (Ends base 0) F :=
  Triple.modify fun _ h => (h.setSlot d hid).ends

/-- One that pops when all is done. -/
theorem pop_ends {F : Context → Prop} :
    Triple (Ends base 0 ()) (Keep.modify Context.pop)
      (Ends base 1) F := by
  refine Triple.modify fun c h => ?_
  have := h.pop
  rwa [Int.add_zero] at this

/-- One that pops or not. -/
theorem popIf_ends (pops : Bool) {F : Context → Prop} :
    Triple (Ends base 0 ()) (Build.popIf pops)
      (Ends base (if pops then 1 else 0)) F := by
  unfold Build.popIf
  cases pops with
  | true => exact pop_ends
  | false => exact Triple.modify fun _ h => h

/-- A memory operand loaded: `fpLoad`. -/
theorem fpLoad_triple (op : IROperand) :
    Triple (Has base base.topDelta ids) (Build.fpLoad op)
      (fun id => Has base base.topDelta (id :: ids))
      (Stops base) := by
  unfold Build.fpLoad
  cases op.size with
  | s32 | s64 =>
      exact node_stops ⟨rfl, rfl, rfl, rfl⟩
        (inputsIn_of_neg (by simp [Node.inputs]) rfl) rfl (by simp)
  | _ => exact Triple.fail fun _ h => h.forget

/-- An integer operand loaded. -/
theorem intLoad_triple (op : IROperand) :
    Triple (Has base base.topDelta ids) (Build.intLoad op)
      (fun id => Has base base.topDelta (id :: ids))
      (Stops base) := by
  unfold Build.intLoad
  cases op.size with
  | s16 | s32 | s64 =>
      exact node_stops ⟨rfl, rfl, rfl, rfl⟩
        (inputsIn_of_neg (by simp [Node.inputs]) rfl) rfl (by simp)
  | _ => exact Triple.fail fun _ h => h.forget

/-- A value stored to memory. -/
theorem fpStore_triple (op : IROperand) {a : Nat} (ha : a ∈ ids) :
    Triple (Has base base.topDelta ids) (Build.fpStore op a)
      (fun id => Has base base.topDelta (id :: ids))
      (Stops base) := by
  unfold Build.fpStore
  cases op.size with
  | s32 | s64 =>
      exact node_stops ⟨rfl, rfl, rfl, rfl⟩
        (inputsIn_one ha rfl (Nat.le_refl _)) rfl (by simp)
  | _ => exact Triple.fail fun _ h => h.forget

/-- A value stored as an integer. -/
theorem intStore_triple (op : IROperand) {a : Nat} (ha : a ∈ ids)
    (truncate : Bool) :
    Triple (Has base base.topDelta ids) (Build.intStore op a truncate)
      (fun id => Has base base.topDelta (id :: ids))
      (Stops base) := by
  unfold Build.intStore
  cases op.size with
  | s16 | s32 | s64 =>
      exact node_stops ⟨rfl, rfl, rfl, rfl⟩
        (inputsIn_one ha rfl (Nat.le_refl _)) rfl (by simp)
  | _ => exact Triple.fail fun _ h => h.forget

/-- A node without inputs, pushed. -/
theorem pushNode_triple {n : Node} (hfresh : Fresh n)
    (hin : ∀ a ∈ n.inputs, a < 0) (har : arity n.op = 0)
    (hcmp : n.isCmp = false) (hop : n.op ≠ .FStsw) :
    Triple (Stops base) (Build.pushNode n)
      (Ends base (-1)) (Stops base) :=
  Triple.bind (node_stops hfresh (inputsIn_of_neg hin har) hcmp hop)
    fun _ => push_ends (List.mem_cons_self ..)

/-- `fld`, from memory or from a register. -/
theorem fld_triple (i : IRInstr) :
    Triple (Stops base) (Build.fld i) (Ends base (-1))
      (Stops base) := by
  unfold Build.fld
  split
  · exact Triple.bind (resolve_stops _) fun _ =>
      push_ends (List.mem_cons_self ..)
  · exact Triple.bind (fpLoad_triple _) fun _ =>
      push_ends (List.mem_cons_self ..)

/-- `fild`. -/
theorem fild_triple (i : IRInstr) :
    Triple (Stops base) (Build.fild i) (Ends base (-1))
      (Stops base) :=
  Triple.bind (intLoad_triple _) fun _ =>
    push_ends (List.mem_cons_self ..)

/-- The opcode of a node that only computes, with `k` values at most. -/
structure PureOp (k : Nat) (op : Op) : Prop where
  fcmp : op ≠ .FCmp
  ftst : op ≠ .FTst
  fstsw : op ≠ .FStsw
  arity : arity op ≤ k

/-- An operation that only has a value compares nothing. -/
theorem PureOp.isCmp {n : Node} {k : Nat} (h : PureOp k n.op) :
    n.isCmp = false := by
  unfold Node.isCmp
  simp [h.fcmp, h.ftst]

/-- Such an operation of two operands. -/
theorem node2_stops {op : Op} (hop : PureOp 2 op) {a b : Nat}
    (ha : a ∈ ids) (hb : b ∈ ids) :
    Triple (Has base base.topDelta ids)
      (addNode { op, in0 := a, in1 := b })
      (fun id => Has base base.topDelta (id :: ids)) (Stops base) :=
  node_stops ⟨rfl, rfl, rfl, rfl⟩ (inputsIn_two ha hb rfl hop.arity)
    (PureOp.isCmp hop) hop.fstsw

/-- And of one. -/
theorem node1_stops {op : Op} (hop : PureOp 1 op) {a : Nat}
    (ha : a ∈ ids) :
    Triple (Has base base.topDelta ids) (addNode { op, in0 := a })
      (fun id => Has base base.topDelta (id :: ids)) (Stops base) :=
  node_stops ⟨rfl, rfl, rfl, rfl⟩ (inputsIn_one ha rfl hop.arity)
    (PureOp.isCmp hop) hop.fstsw

/-- The result of two operands put into a slot, in either order. -/
theorem binary_triple {op : Op} (hop : PureOp 2 op) (reversed : Bool)
    {a b : Nat} (d : Nat) (ha : a ∈ ids) (hb : b ∈ ids) :
    Triple (Has base base.topDelta ids) (Build.binary op reversed a b d)
      (Ends base 0) (Stops base) := by
  unfold Build.binary
  cases reversed with
  | false =>
      exact Triple.bind (node2_stops hop ha hb) fun _ =>
        setSlot_ends d (List.mem_cons_self ..)
  | true =>
      exact Triple.bind (node2_stops hop hb ha) fun _ =>
        setSlot_ends d (List.mem_cons_self ..)

/-- `build_arith`. -/
theorem arith_triple {op : Op} (hop : PureOp 2 op) (reversed : Bool)
    (i : IRInstr) :
    Triple (Stops base) (Build.arith i op reversed)
      (Ends base 0) (Stops base) := by
  unfold Build.arith
  split
  · refine Triple.bind (resolveBoth_stops _ _) fun ab => ?_
    exact binary_triple hop reversed _
      (List.mem_cons_of_mem _ (List.mem_cons_self ..))
      (List.mem_cons_self ..)
  · refine Triple.bind (resolve_stops _) fun a => ?_
    refine Triple.bind (fpLoad_triple _) fun b => ?_
    exact binary_triple hop reversed _
      (List.mem_cons_of_mem _ (List.mem_cons_self ..))
      (List.mem_cons_self ..)

/-- `build_arithp`: the result goes into its slot, then one pop. -/
theorem arithp_triple {op : Op} (hop : PureOp 2 op) (reversed : Bool)
    (i : IRInstr) :
    Triple (Stops base) (Build.arithp i op reversed)
      (Ends base 1) (Stops base) := by
  unfold Build.arithp
  refine Triple.bind (resolveBoth_stops _ _) fun ab => ?_
  refine Triple.bind (binary_triple hop reversed _
    (List.mem_cons_of_mem _ (List.mem_cons_self ..))
    (List.mem_cons_self ..)) fun _ => ?_
  exact pop_ends

/-- `fiadd` and its family. -/
theorem iarith_triple {op : Op} (hop : PureOp 2 op) (reversed : Bool)
    (i : IRInstr) :
    Triple (Stops base) (Build.iarith i op reversed)
      (Ends base 0) (Stops base) := by
  unfold Build.iarith
  refine Triple.bind (resolve_stops _) fun a => ?_
  refine Triple.bind (intLoad_triple _) fun b => ?_
  exact binary_triple hop reversed _
    (List.mem_cons_of_mem _ (List.mem_cons_self ..))
    (List.mem_cons_self ..)

/-- An operation on the top of the stack. -/
theorem unary_triple {op : Op} (hop : PureOp 1 op) :
    Triple (Stops base) (Build.unary op) (Ends base 0)
      (Stops base) := by
  unfold Build.unary
  refine Triple.bind (resolve_stops _) fun a => ?_
  refine Triple.bind (node1_stops hop (List.mem_cons_self ..))
    fun _ => ?_
  exact setSlot_ends 0 (List.mem_cons_self ..)

/-- `fpatan` and `fyl2x`, whose result is the new top. -/
theorem binaryPop_triple {op : Op} (hop : PureOp 2 op) :
    Triple (Stops base) (Build.binaryPop op)
      (Ends base 1) (Stops base) := by
  unfold Build.binaryPop
  refine Triple.bind (resolveBoth_stops _ _) fun ab => ?_
  refine Triple.bind (node2_stops hop (List.mem_cons_self ..)
    (List.mem_cons_of_mem _ (List.mem_cons_self ..))) fun _ => ?_
  refine Triple.bind (setSlot_ends 1 (List.mem_cons_self ..))
    fun _ => ?_
  exact pop_ends

/-- `fscale`, which pops nothing. -/
theorem scale_triple :
    Triple (Stops base) Build.scale (Ends base 0)
      (Stops base) := by
  unfold Build.scale
  refine Triple.bind (resolveBoth_stops _ _) fun ab => ?_
  refine Triple.bind (node2_stops ⟨by simp, by simp, by simp, by decide⟩
    (List.mem_cons_of_mem _ (List.mem_cons_self ..))
    (List.mem_cons_self ..)) fun _ => ?_
  exact setSlot_ends 0 (List.mem_cons_self ..)

/-- The second half of `fsincos` and `fptan`: one result in place, one
pushed. -/
theorem pair_ends {a b : Nat} (ha : a ∈ ids) (hb : b ∈ ids)
    {F : Context → Prop} :
    Triple (Has base base.topDelta ids)
      (Keep.modify (setSlot 0 (.node a)) >>= fun _ =>
        Keep.modify (push b)) (Ends base (-1)) F :=
  Triple.bind (Triple.modify fun _ h => h.setSlot 0 ha)
    fun _ => push_ends hb

/-- `fsincos`, which leaves two results. -/
theorem sincos_triple :
    Triple (Stops base) Build.sincos (Ends base (-1))
      (Stops base) := by
  unfold Build.sincos
  refine Triple.bind (resolve_stops _) fun a => ?_
  refine Triple.bind (node1_stops ⟨by simp, by simp, by simp, by decide⟩
    (List.mem_cons_self ..)) fun _ => ?_
  refine Triple.bind (node1_stops ⟨by simp, by simp, by simp, by decide⟩
    (List.mem_cons_of_mem _ (List.mem_cons_self ..))) fun _ => ?_
  exact pair_ends (List.mem_cons_of_mem _ (List.mem_cons_self ..))
    (List.mem_cons_self ..)

/-- `fptan`, which pushes a one. -/
theorem ptan_triple :
    Triple (Stops base) Build.ptan (Ends base (-1))
      (Stops base) := by
  unfold Build.ptan
  refine Triple.bind (resolve_stops _) fun a => ?_
  refine Triple.bind (node1_stops ⟨by simp, by simp, by simp, by decide⟩
    (List.mem_cons_self ..)) fun _ => ?_
  refine Triple.bind (node_stops ⟨rfl, rfl, rfl, rfl⟩
    (inputsIn_of_neg (by simp [Node.inputs]) rfl) rfl (by simp)) fun _ => ?_
  exact pair_ends (List.mem_cons_of_mem _ (List.mem_cons_self ..))
    (List.mem_cons_self ..)

/-- `fst`, to memory or to a register. -/
theorem fst_triple (i : IRInstr) (pops : Bool) :
    Triple (Stops base) (Build.fst i pops)
      (Ends base (if pops then 1 else 0))
      (Stops base) := by
  unfold Build.fst Build.fstTo
  refine Triple.bind (resolve_stops _) fun a => ?_
  refine Triple.bind (Q := Ends base 0) ?_
    fun _ => popIf_ends pops
  split
  · dsimp only
    split
    · exact setSlot_ends _ (List.mem_cons_self ..)
    · exact Triple.pure fun _ h => h.ends
  · exact Triple.bind (fpStore_triple _ (List.mem_cons_self ..))
      fun _ => Triple.pure fun _ h => h.ends

/-- `fist`, `fistp` and `fisttp`. -/
theorem fist_triple (i : IRInstr) (pops truncate : Bool) :
    Triple (Stops base) (Build.fist i pops truncate)
      (Ends base (if pops then 1 else 0))
      (Stops base) := by
  unfold Build.fist
  refine Triple.bind (resolve_stops _) fun a => ?_
  refine Triple.bind ((intStore_triple _ (List.mem_cons_self ..)
    truncate).conseq (fun _ h => h) (fun _ _ h => h.ends)
    (fun _ h => h)) fun _ => popIf_ends pops

-- ======================================================== comparisons

/-- A comparison appended and remembered. -/
theorem Has.compare {n : Node} (h : Has base td ids c)
    (hfresh : Fresh n) (hin : InputsIn ids n) (hcmp : n.isCmp = true) :
    Has base td (c.numNodes :: ids)
      { c with nodes := c.nodes ++ [n], lastFcmp := c.numNodes } :=
  h.concat hfresh (h.refsBelow hin) hin.operands (LastCmp.concat hcmp)
    fun hop => by
    unfold Node.isCmp at hcmp
    rw [hop] at hcmp
    cases hcmp

/-- Append a comparison, remember it, and pop. -/
theorem cmp_triple {n : Node} (hfresh : Fresh n) (hin : InputsIn ids n)
    (hcmp : n.isCmp = true) (p : Nat) :
    Triple (Has base base.topDelta ids)
      (addNode n >>= fun id => Keep.modify fun c =>
        Build.pops p { c with lastFcmp := id })
      (Ends base p) (Stops base) := by
  intro c hc
  rw [bind_apply]
  unfold addNode
  by_cases hcap : kMaxNodes ≤ c.numNodes
  · simp only [if_pos hcap]
    exact hc.forget
  · simp only [if_neg hcap, modify_apply]
    exact (hc.compare hfresh hin hcmp).pops p

/-- Two remembered nodes compared. -/
theorem compare_triple {a b : Nat} (ha : a ∈ ids) (hb : b ∈ ids)
    (p : Nat) :
    Triple (Has base base.topDelta ids) (Build.compare a b p)
      (Ends base p) (Stops base) :=
  cmp_triple ⟨rfl, rfl, rfl, rfl⟩
    (inputsIn_two ha hb rfl (Nat.le_refl _)) rfl p

/-- `build_fcom`, with none, one or two pops. -/
theorem fcom_triple (i : IRInstr) (p : Nat) (isFcompp : Bool) :
    Triple (Stops base) (Build.fcom i p isFcompp)
      (Ends base p) (Stops base) := by
  unfold Build.fcom
  refine Triple.bind (resolve_stops _) fun a => ?_
  have hcmp : ∀ b : Nat,
      Triple (Has base base.topDelta [b, a]) (Build.compare a b p)
        (Ends base p) (Stops base) := fun b =>
    compare_triple (List.mem_cons_of_mem _ (List.mem_cons_self ..))
      (List.mem_cons_self ..) p
  cases isFcompp with
  | true => exact Triple.bind (resolve_stops _) hcmp
  | false =>
      simp only [Bool.false_eq_true, if_false]
      split
      · exact Triple.bind (resolve_stops _) hcmp
      · exact Triple.bind (fpLoad_triple _) hcmp

/-- `build_ficom`. -/
theorem ficom_triple (i : IRInstr) (pops : Bool) :
    Triple (Stops base) (Build.ficom i pops)
      (Ends base (if pops then 1 else 0 : Nat))
      (Stops base) := by
  unfold Build.ficom
  refine Triple.bind (resolve_stops _) fun a => ?_
  refine Triple.bind (intLoad_triple _) fun b => ?_
  exact compare_triple (List.mem_cons_of_mem _ (List.mem_cons_self ..))
    (List.mem_cons_self ..) _

/-- `ftst`. -/
theorem ftst_triple :
    Triple (Stops base) Build.ftst (Ends base 0)
      (Stops base) := by
  unfold Build.ftst
  refine Triple.bind (resolve_stops _) fun a => ?_
  exact cmp_triple ⟨rfl, rfl, rfl, rfl⟩
    (inputsIn_one (List.mem_cons_self ..) rfl (Nat.le_refl _)) rfl 0

/-- `build_fcomi`, whose flags a conditional move may read. -/
theorem fcomi_triple (i : IRInstr) (pops : Bool) :
    Triple (Stops base) (Build.fcomi i pops)
      (Ends base (if pops then 1 else 0 : Nat))
      (Stops base) := by
  unfold Build.fcomi
  refine Triple.bind (resolve_stops _) fun a => ?_
  refine Triple.bind (resolve_stops _) fun b => ?_
  refine Triple.bind (node_stops ⟨rfl, rfl, rfl, rfl⟩
    (inputsIn_two (List.mem_cons_of_mem _ (List.mem_cons_self ..))
      (List.mem_cons_self ..) rfl (Nat.le_refl _)) rfl (by simp)) fun id => ?_
  refine Triple.modify fun c hc => ?_
  have hi : Has base base.topDelta [] { c with lastFcomi := id } :=
    ⟨⟨hc.wf.fresh, hc.wf.refs, hc.wf.operands, hc.wf.slots, hc.wf.reads,
      hc.wf.cmp, hc.wf.stsw⟩, hc.depth, hc.consumed, hc.source, hc.older,
      by simp, hc.own⟩
  exact hi.pops _

/-- `build_fcmov`, refused or a choice of two values. -/
theorem fcmov_triple (i : IRInstr) (cond : Nat) :
    Triple (Stops base) (Build.fcmov i cond) (Ends base 0)
      (Stops base) := by
  unfold Build.fcmov
  refine Triple.bind (Q := fun _ => Stops base)
    (Triple.get fun _ h => h) fun s => ?_
  split
  · exact Triple.fail fun _ h => h
  refine Triple.bind (resolve_stops _) fun a => ?_
  refine Triple.bind (resolve_stops _) fun b => ?_
  refine Triple.bind (node_stops ⟨rfl, rfl, rfl, rfl⟩
    (inputsIn_two (List.mem_cons_of_mem _ (List.mem_cons_self ..))
      (List.mem_cons_self ..) rfl (Nat.le_refl _)) rfl (by simp)) fun id => ?_
  exact setSlot_ends 0 (List.mem_cons_self ..)

-- =============================================== exchange and the rest

/-- `fxch`: both slots are resolved, and exchanged whether or not
they are nodes then. -/
theorem fxch_triple (i : IRInstr) :
    Triple (Stops base) (Build.fxch i) (Ends base 0)
      (Stops base) := by
  unfold Build.fxch
  dsimp only
  split
  · have hres : ∀ d, Triple (Stops base) (Keep.ignore (resolve d))
        (fun _ => Stops base) (Stops base) := fun d =>
      Triple.ignore (resolve_stops d) (fun _ _ h => h.forget)
        fun _ h => h
    refine Triple.bind (hres 0) fun _ => ?_
    refine Triple.bind (hres _) fun _ => ?_
    refine Triple.modify fun c hc => ?_
    refine (hc.slots fun e id he => ?_).ends
    simp only [Function.update_apply] at he
    split at he
    · exact hc.wf.slots _ _ he
    · split at he <;> exact hc.wf.slots _ _ he
  · exact Triple.fail fun _ h => h

/-- `fnstsw` records the last comparison and the depth. -/
theorem fstsw_triple (i : IRInstr) :
    Triple (Stops base) (Build.fstsw i) (Ends base 0)
      (Stops base) := by
  unfold Build.fstsw
  split
  · exact Triple.fail fun _ h => h
  intro c hc
  simp only [bind_apply, get_apply]
  unfold addNode
  by_cases hcap : kMaxNodes ≤ c.numNodes
  · simp only [if_pos hcap]
    exact hc
  · simp only [if_neg hcap, pure_apply]
    refine Has.ends (Has.concat hc ⟨rfl, rfl, rfl, rfl⟩ ?_
      (by simp [Operands, arity]) (LastCmp.concat_of_not hc.wf.cmp rfl)
      fun _ => ⟨rfl, hc.depth⟩)
    -- the one reference is the last comparison, an older node
    intro a ha
    rw [show a = c.lastFcmp by simpa [Node.nodeRefs] using ha]
    rcases hc.wf.cmp with ⟨h1, -⟩ | ⟨j, n, h1, hj, -⟩
    · rw [h1]
      omega
    · obtain ⟨hlt, -⟩ := List.getElem?_eq_some_iff.mp hj
      rw [h1]
      exact_mod_cast hlt

/-- An instruction that is one node without node inputs. -/
theorem bridgeNode_triple {n : Node} (hfresh : Fresh n)
    (hin : ∀ a ∈ n.inputs, a < 0) (har : arity n.op = 0)
    (hcmp : n.isCmp = false) (hop : n.op ≠ .FStsw) :
    Triple (Stops base) (Build.bridgeNode n)
      (Ends base 0) (Stops base) :=
  Triple.bind (node_stops hfresh (inputsIn_of_neg hin har) hcmp hop)
    fun _ => Triple.pure fun _ h => h.ends

/-- A move between general registers, or of memory. -/
theorem bridgeMov_triple (dst src : IROperand) :
    Triple (Stops base) (Build.bridgeMov dst src)
      (Ends base 0) (Stops base) := by
  have hneg := bridgeEncodeReg_neg
  unfold Build.bridgeMov
  split
  · dsimp only
    split
    · exact bridgeNode_triple ⟨rfl, rfl, rfl, rfl⟩
        (by simp [Node.inputs, hneg]) rfl rfl (by simp)
    · exact bridgeNode_triple ⟨rfl, rfl, rfl, rfl⟩
        (by simp [Node.inputs, hneg]) rfl rfl (by simp)
    · exact bridgeNode_triple ⟨rfl, rfl, rfl, rfl⟩
        (by simp [Node.inputs, hneg]) rfl rfl (by simp)
    · exact Triple.fail fun _ h => h
  · split
    · exact bridgeNode_triple ⟨rfl, rfl, rfl, rfl⟩
        (by simp [Node.inputs, hneg]) rfl rfl (by simp)
    · exact Triple.fail fun _ h => h

/-- Arithmetic on them. -/
theorem bridgeAlu_triple (kind : AluKind) (dst src : IROperand) :
    Triple (Stops base) (Build.bridgeAlu kind dst src)
      (Ends base 0) (Stops base) := by
  have hneg := bridgeEncodeReg_neg
  unfold Build.bridgeAlu
  dsimp only
  split
  · split
    · exact bridgeNode_triple ⟨rfl, rfl, rfl, rfl⟩
        (by simp [Node.inputs, hneg]) rfl rfl (by simp)
    · exact bridgeNode_triple ⟨rfl, rfl, rfl, rfl⟩
        (by simp [Node.inputs, hneg]) rfl rfl (by simp)
    · exact bridgeNode_triple ⟨rfl, rfl, rfl, rfl⟩
        (by simp [Node.inputs, hneg]) rfl rfl (by simp)
    · exact Triple.fail fun _ h => h
  · split
    · exact bridgeNode_triple ⟨rfl, rfl, rfl, rfl⟩
        (by simp [Node.inputs, hneg]) rfl rfl (by simp)
    · exact Triple.fail fun _ h => h

/-- An extension. -/
theorem bridgeExt_triple (dst src : IROperand) (signed : Bool) :
    Triple (Stops base) (Build.bridgeExt dst src signed)
      (Ends base 0) (Stops base) := by
  have hneg := bridgeEncodeReg_neg
  exact bridgeNode_triple ⟨rfl, rfl, rfl, rfl⟩
    (by simp [Node.inputs, hneg]) rfl rfl (by simp)

/-- Any instruction the run bridges. -/
theorem bridge_triple (i : IRInstr) :
    Triple (Stops base) (Build.bridge i) (Ends base 0)
      (Stops base) := by
  have hneg := bridgeEncodeReg_neg
  unfold Build.bridge
  dsimp only
  split
  case h_1 => exact Triple.pure fun _ h => Has.ends h
  case h_2 => exact bridgeMov_triple _ _
  case h_9 =>
    split
    · exact bridgeAlu_triple _ _ _
    · exact Triple.fail fun _ h => h
  case h_3 =>
    exact bridgeNode_triple ⟨rfl, rfl, rfl, rfl⟩
      (by simp [Node.inputs, hneg]) rfl rfl (by simp)
  case h_4 => exact bridgeExt_triple _ _ _
  case h_5 => exact bridgeExt_triple _ _ _
  case h_6 => exact bridgeExt_triple _ _ _
  case h_7 =>
    exact bridgeNode_triple ⟨rfl, rfl, rfl, rfl⟩
      (by simp [Node.inputs, hneg]) rfl rfl (by simp)
  case h_8 =>
    exact bridgeNode_triple ⟨rfl, rfl, rfl, rfl⟩
      (by simp [Node.inputs, hneg]) rfl rfl (by simp)

/-- No bridge instruction moves the stack. -/
theorem delta_of_accepts {mode : Build.BridgeMode} {i : IRInstr}
    (h : mode.accepts i = true) : Reference.delta i = 0 := by
  unfold Build.BridgeMode.accepts Bridge.isBridgeV2Proven
    Bridge.isBridgeV2 Bridge.isBridgeV1 at h
  unfold Reference.delta
  cases hop : i.opcode <;> simp_all

/-- What the default arm makes of an instruction. -/
theorem otherwise_triple (mode : Build.BridgeMode) (i : IRInstr) :
    Triple (Stops base) (Build.otherwise mode i)
      (Ends base (Reference.delta i)) (Stops base) := by
  unfold Build.otherwise
  split
  · next h =>
    rw [delta_of_accepts h]
    exact bridge_triple i
  · refine Triple.bind (Q := fun _ => Stops base)
      (Triple.modify fun c h => ?_) fun _ => Triple.fail fun _ h => h
    exact ⟨⟨h.wf.fresh, h.wf.refs, h.wf.operands, h.wf.slots, h.wf.reads,
      h.wf.cmp, h.wf.stsw⟩, h.depth, h.consumed, h.source, h.older,
      h.ids, h.own⟩

/-- The switch of `build`. -/
theorem instr_triple (mode : Build.BridgeMode) (i : IRInstr) :
    Triple (Stops base) (Build.instr mode i)
      (Ends base (Reference.delta i)) (Stops base) := by
  have hother : Triple (Stops base) (Build.otherwise mode i)
      (Ends base (Reference.delta i)) (Stops base) :=
    otherwise_triple mode i
  have hconst : ∀ (op : Op) (bits : BitVec 64), PureOp 0 op →
      Triple (Stops base)
        (Build.pushNode { op, immBits := bits })
        (Ends base (-1)) (Stops base) := fun op bits h =>
    pushNode_triple ⟨rfl, rfl, rfl, rfl⟩ (by simp [Node.inputs])
      (Nat.le_zero.mp h.arity) (PureOp.isCmp h) h.fstsw
  unfold Build.instr
  unfold Reference.delta at hother ⊢
  generalize hop : i.opcode = op at hother ⊢
  cases op with
  | fldz | fld1 | fldl2e | fldl2t | fldlg2 | fldln2 | fldpi =>
      exact hconst _ _ ⟨by simp, by simp, by simp, by decide⟩
  | fld => exact fld_triple i
  | fild => exact fild_triple i
  | fst | fst_stack => exact fst_triple i false
  | fstp | fstp_stack => exact fst_triple i true
  | fist => exact fist_triple i false false
  | fistp => exact fist_triple i true false
  | fisttp => exact fist_triple i true true
  | fadd | fsub | fsubr | fmul | fdiv | fdivr =>
      exact arith_triple ⟨by simp, by simp, by simp, by decide⟩ _ i
  | fiadd | fisub | fisubr | fimul | fidiv | fidivr =>
      exact iarith_triple ⟨by simp, by simp, by simp, by decide⟩ _ i
  | faddp | fsubp | fsubrp | fmulp | fdivp | fdivrp =>
      exact arithp_triple ⟨by simp, by simp, by simp, by decide⟩ _ i
  | fchs | fabs | fsqrt | frndint | fsin | fcos =>
      exact unary_triple ⟨by simp, by simp, by simp, by decide⟩
  | fsincos => exact sincos_triple
  | fptan => exact ptan_triple
  | fpatan | fyl2x =>
      exact binaryPop_triple ⟨by simp, by simp, by simp, by decide⟩
  | fscale => exact scale_triple
  | fxch => exact fxch_triple i
  | fcom | fucom => exact fcom_triple i 0 false
  | fcomp | fucomp => exact fcom_triple i 1 false
  | fcompp | fucompp => exact fcom_triple i 2 true
  | ficom => exact ficom_triple i false
  | ficomp => exact ficom_triple i true
  | ftst => exact ftst_triple
  | fcomi | fucomi => exact fcomi_triple i false
  | fcomip | fucomip => exact fcomi_triple i true
  | fcmovb | fcmovbe | fcmove | fcmovnb | fcmovnbe | fcmovne | fcmovu
  | fcmovnu => exact fcmov_triple i _
  | fstsw => exact fstsw_triple i
  | fldcw | fnstcw =>
      exact bridgeNode_triple ⟨rfl, rfl, rfl, rfl⟩
        (by simp [Node.inputs]) rfl rfl (by simp)
  | fnop => exact Triple.pure fun _ h => Has.ends h
  | _ => exact hother

-- ============================================================ whole runs

/-- The shape of the Context of a run after `k` of its instructions: each
`FStsw` holds how deep the stack was before its own instruction. -/
structure OfRun (run : List IRInstr) (k : Nat) (c : Context) : Prop where
  wf : Wf c
  depth : c.topDelta = Reference.depth (run.take k)
  consumed : c.consumed = k
  source : c.nodeSrc.length = c.numNodes
  stsw : ∀ (s : Nat) (n : Node), c.nodes[s]? = some n → n.op = .FStsw →
    ∃ j, c.nodeSrc[s]? = some j ∧ n.in2 = Reference.depth (run.take j)

variable {run : List IRInstr}

/-- The empty Context has nothing in it. -/
theorem OfRun.init (run : List IRInstr) :
    OfRun run 0 Context.init where
  wf :=
    { fresh := by simp [Context.init]
      refs := by simp [Context.init]
      operands := by simp [Context.init]
      slots := by simp [Context.init]
      reads := by simp [Context.init]
      cmp := .inl ⟨rfl, by simp [Context.init]⟩
      stsw := by simp [Context.init] }
  depth := rfl
  consumed := rfl
  source := rfl
  stsw := by simp [Context.init]

/-- What an instruction is handed. -/
theorem OfRun.stops (h : OfRun run k c) : Stops c c where
  wf := h.wf
  depth := rfl
  consumed := rfl
  source := rfl
  older := List.prefix_refl _
  ids := by simp
  own := fun s n hs hn => by
    obtain ⟨hlt, -⟩ := List.getElem?_eq_some_iff.mp hn
    exact absurd hlt (Nat.not_lt.mpr hs)

/-- The nodes an instruction appended are attributed to it. -/
theorem OfRun.attribute {after : Context} {td : Int} {k' : Nat}
    (h : OfRun run k base) (ha : Has base td [] after)
    (hdepth : td = Reference.depth (run.take k')) :
    OfRun run k'
      { Build.attributeTo k base after with consumed := k' } := by
  have hlen : base.numNodes ≤ after.numNodes := ha.older.length_le
  have hsrc : (Build.attributeTo k base after).nodeSrc
      = base.nodeSrc ++ List.replicate (after.numNodes - base.numNodes) k := by
    unfold Build.attributeTo
    rw [ha.source]
  refine ⟨⟨ha.wf.fresh, ha.wf.refs, ha.wf.operands, ha.wf.slots,
    ha.wf.reads, ha.wf.cmp, ha.wf.stsw⟩, ha.depth.trans hdepth, rfl, ?_,
    fun s n hn hop => ?_⟩
  · show (Build.attributeTo k base after).nodeSrc.length = after.numNodes
    rw [hsrc, List.length_append, List.length_replicate, h.source]
    omega
  · show ∃ j, (Build.attributeTo k base after).nodeSrc[s]? = some j ∧ _
    rw [hsrc]
    change after.nodes[s]? = some n at hn
    by_cases hs : s < base.numNodes
    · rw [List.getElem?_append_left (by rw [h.source]; exact hs)]
      refine h.stsw s n ?_ hop
      obtain ⟨t, ht⟩ := ha.older
      rw [← ht, List.getElem?_append_left hs] at hn
      exact hn
    · refine ⟨k, ?_, ?_⟩
      · obtain ⟨hlt, -⟩ := List.getElem?_eq_some_iff.mp hn
        rw [List.getElem?_append_right
          (by rw [h.source]; exact Nat.le_of_not_lt hs),
          List.getElem?_replicate, h.source, if_pos]
        have : after.numNodes = after.nodes.length := rfl
        omega
      · rw [ha.own s n (Nat.le_of_not_lt hs) hn hop, h.depth]

/-- One turn of the loop on instruction `k`. -/
theorem OfRun.turn (mode : Build.BridgeMode) {i : IRInstr}
    (h : OfRun run k c) (hi : run[k]? = some i) :
    match Build.turn mode k i c with
    | (true, c') => OfRun run (k + 1) c'
    | (false, c') => OfRun run k c' := by
  unfold Build.turn
  split
  · next heq =>
    split at heq
    · cases heq
    · rcases hr : Build.instr mode i c with ⟨o, c₁⟩
      rw [hr] at heq
      cases o with
      | none => cases heq
      | some u =>
          have hb := Triple.of_some (instr_triple mode i) h.stops hr
          cases heq
          refine h.attribute hb ?_
          rw [h.depth, List.take_add_one, hi]
          simp [Reference.depth]
  · next heq =>
    split at heq
    · cases heq
      exact ⟨⟨h.wf.fresh, h.wf.refs, h.wf.operands, h.wf.slots,
        h.wf.reads, h.wf.cmp, h.wf.stsw⟩, h.depth, h.consumed, h.source,
        h.stsw⟩
    · rcases hr : Build.instr mode i c with ⟨o, c₁⟩
      rw [hr] at heq
      cases o with
      | some u => cases heq
      | none =>
          have hb := Triple.of_none (instr_triple mode i) h.stops hr
          cases heq
          have hres := h.attribute hb h.depth
          rwa [show Build.attributeTo k c c₁
            = { Build.attributeTo k c c₁ with consumed := k } by
              have : c₁.consumed = k := hb.consumed.trans h.consumed
              unfold Build.attributeTo
              rw [this]]

/-- The rest of the loop. -/
theorem OfRun.loop (mode : Build.BridgeMode) {rest : List IRInstr}
    (h : OfRun run k c) (hrest : run.drop k = rest) :
    ∃ k', k' ≤ k + rest.length
      ∧ OfRun run k' (Build.loop mode k rest c) := by
  induction rest generalizing k c with
  | nil => exact ⟨k, Nat.le_refl k, h⟩
  | cons i rest ih =>
      have hi : run[k]? = some i := by
        rw [← List.head?_drop, hrest]
        rfl
      have hdrop : run.drop (k + 1) = rest := by
        rw [← List.drop_drop, hrest]
        rfl
      have hturn := h.turn mode hi
      unfold Build.loop
      rcases ht : Build.turn mode k i c with ⟨b, c'⟩
      rw [ht] at hturn
      cases b with
      | true =>
          obtain ⟨k', hk', hloop⟩ := ih hturn hdrop
          refine ⟨k', ?_, hloop⟩
          rw [List.length_cons]
          omega
      | false => exact ⟨k, Nat.le_add_right k _, hturn⟩

end BuildWf

/-- The shape of what `build` returns. -/
theorem build_ofRun (mode : Build.BridgeMode) (run : List IRInstr) :
    BuildWf.OfRun run (build mode run).consumed (build mode run) := by
  obtain ⟨k, -, h⟩ := (BuildWf.OfRun.init run).loop mode rfl
  have hk : (build mode run).consumed = k := h.consumed
  rw [hk]
  exact h

/-- `build` takes no more than it is given. -/
theorem build_consumed_le (mode : Build.BridgeMode)
    (run : List IRInstr) : (build mode run).consumed ≤ run.length := by
  obtain ⟨k, hk, h⟩ := (BuildWf.OfRun.init run).loop mode rfl
  have hconsumed : (build mode run).consumed = k := h.consumed
  rw [hconsumed]
  rwa [List.drop_zero, Nat.zero_add] at hk

end X87Sidecar
