/-
The builder simulates the reference machine.

`Sim c m` relates the Context built so far to the state the reference
machine has reached. Its heart is what each symbolic slot says: a node
holds the value of the register at that depth, an initial marker is the
marker of exactly the physical register that depth now names, which no
instruction has changed, and a popped slot is an empty register.

`At m vs c` is `Sim` with the values of some nodes remembered. It is the
assertion of the triples below, one for each primitive of the builder, so
the triple of an instruction is composed by `Triple.bind` alone.
-/
import X87Sidecar.IR.Build
import X87Sidecar.IR.Denote

namespace X87Sidecar

open Lib Lib.Keep Context Denote

namespace BuildSim

variable {V : Type} (fp : Fp V) (init : X87 V) (junk : Nat → V)

-- ========================================================= the relation

/-- What a symbolic slot at depth `d` says of the machine `m`. -/
def SlotOk (x : Exec V) (count : Nat) (td : Int) (m : X87 V)
    (d : Fin 8) : SlotVal → Prop
  | .node id => id < count ∧ x.env id = m.get d
  | .initial i => (i : Int) = d + td ∧ m.get d = init.get i
  | .popped => m.isEmpty d = true

/-- The Context built so far denotes the machine state `m`. -/
structure Sim (c : Context) (m : X87 V) : Prop where
  fresh : ∀ n ∈ c.nodes, Fresh n
  slot : ∀ d, SlotOk init (body fp init junk c) c.numNodes c.topDelta m
    d (c.slotVal d)
  cached : ∀ i id, c.initialRead i = some id →
    id < c.numNodes ∧ (body fp init junk c).env id = init.get i
  entry : topOf (body fp init junk c).guest.sw = init.top
  guest : m.guest = { (body fp init junk c).guest with
    sw := withTop (body fp init junk c).guest.sw
      (init.top + BitVec.ofInt 3 c.topDelta) }

/-- `Sim`, with the values of the nodes in `vs`. -/
def At (m : X87 V) (vs : List (Nat × V)) (c : Context) : Prop :=
  Sim fp init junk c m ∧
    ∀ p ∈ vs, p.1 < c.numNodes ∧ (body fp init junk c).env p.1 = p.2

variable {fp init junk}
variable {c : Context} {m : X87 V} {vs : List (Nat × V)}

theorem Sim.top (h : Sim fp init junk c m) :
    m.top = init.top + BitVec.ofInt 3 c.topDelta := by
  unfold X87.top
  rw [h.guest]
  exact topOf_withTop _ _

/-- Reads of the guest agree: the two guests differ in TOP only. -/
theorem Sim.read (h : Sim fp init junk c m) (op : IROperand) (n : Nat) :
    (body fp init junk c).guest.read op n = m.guest.read op n := by
  rw [h.guest]
  rfl

theorem Sim.rc (h : Sim fp init junk c m) :
    (body fp init junk c).guest.rc = m.guest.rc := by
  rw [h.guest]
  rfl

/-- The relation at the start of a run. -/
theorem Sim.start (m : X87 V) :
    Sim fp m junk Context.init m where
  fresh := by simp [Context.init]
  slot := by
    intro d
    show (d.val : Int) = d.val + 0 ∧ m.get d.val = m.get d.val
    exact ⟨by omega, rfl⟩
  cached := by simp [Context.init]
  entry := rfl
  guest := by
    show m.guest = { m.guest with
      sw := withTop m.guest.sw (m.top + BitVec.ofInt 3 0) }
    rw [show BitVec.ofInt 3 0 = 0#3 from rfl, BitVec.add_zero]
    unfold X87.top
    rw [withTop_topOf]

/-- A remembered value. -/
theorem At.val (h : At fp init junk m vs c) {id : Nat} {v : V}
    (hm : (id, v) ∈ vs) : (body fp init junk c).val id = v :=
  (h.2 _ hm).2

variable (fp init junk) in
/-- Where a failing instruction leaves the Context: as it was, but for
nodes nobody uses. One of those may have cleared the condition codes. -/
def Fails (m : X87 V) (c : Context) : Prop :=
  Sim fp init junk c m ∨ Sim fp init junk c (m.setCC 0)

theorem At.forget (h : At fp init junk m vs c) :
    At fp init junk m [] c := ⟨h.1, by simp⟩

theorem At.fails (h : At fp init junk m vs c) : Fails fp init junk m c :=
  .inl h.1

variable (fp init junk) in
/-- The postcondition of an instruction the builder consumes: the
reference machine's next state. -/
def Reaches (r : Option (X87 V)) (_ : Unit) (c : Context) : Prop :=
  ∃ m', r = some m' ∧ Sim fp init junk c m'

theorem At.reaches (h : At fp init junk m vs c) :
    Reaches fp init junk (some m) () c := ⟨m, rfl, h.1⟩

-- ==================================================== appending a node

/-- A node that leaves the older nodes' values alone and takes the guest
to `x'.guest`. -/
theorem Sim.append {n : Node} {x' : Exec V} {g : Guest}
    (h : Sim fp init junk c m) (hn : Fresh n)
    (hx : execOp fp init c.numNodes n (body fp init junk c) = x')
    (henv : ∀ id < c.numNodes, x'.env id = (body fp init junk c).env id)
    (hentry : topOf x'.guest.sw = init.top)
    (hg : g = { x'.guest with
      sw := withTop x'.guest.sw
        (init.top + BitVec.ofInt 3 c.topDelta) }) :
    Sim fp init junk { c with nodes := c.nodes ++ [n] }
      { m with guest := g } := by
  have hbody : body fp init junk { c with nodes := c.nodes ++ [n] } = x' :=
    (body_append h.fresh hn).trans hx
  have hcount := numNodes_concat c n
  have htop : ({ m with guest := g } : X87 V).top = m.top := by
    rw [h.top, hg]
    exact topOf_withTop _ _
  refine ⟨?_, ?_, ?_, ?_, ?_⟩
  · intro k hk
    rcases List.mem_append.mp hk with hk | hk
    · exact h.fresh k hk
    · rw [List.mem_singleton.mp hk]
      exact hn
  · intro d
    have hd := h.slot d
    have hget : ({ m with guest := g } : X87 V).get d = m.get d := by
      unfold X87.get X87.phys
      rw [htop]
    have hempty :
        ({ m with guest := g } : X87 V).isEmpty d = m.isEmpty d := by
      unfold X87.isEmpty X87.phys
      rw [htop]
    rw [hbody, hcount]
    show SlotOk init x' _ c.topDelta _ d (c.slotVal d)
    cases hs : c.slotVal d with
    | node id =>
        rw [hs] at hd
        exact ⟨Nat.lt_succ_of_lt hd.1,
          (henv id hd.1).trans (hd.2.trans hget.symm)⟩
    | initial i =>
        rw [hs] at hd
        exact ⟨hd.1, hget.trans hd.2⟩
    | popped =>
        rw [hs] at hd
        exact hempty.trans hd
  · intro i id hi
    obtain ⟨hlt, hv⟩ := h.cached i id hi
    rw [hbody, hcount]
    exact ⟨Nat.lt_succ_of_lt hlt, (henv id hlt).trans hv⟩
  · rw [hbody]
    exact hentry
  · rw [hbody]
    exact hg

/-- `addNode`, with the capacity check out of the way. -/
theorem addNode_triple {n : Node} {P : Context → Prop}
    {Q : Nat → Context → Prop}
    (h : ∀ c, P c → Q c.numNodes { c with nodes := c.nodes ++ [n] }) :
    Triple P (addNode n) Q P := by
  intro c hc
  unfold addNode
  by_cases hcap : kMaxNodes ≤ c.numNodes
  · simp only [if_pos hcap]
    exact hc
  · simp only [if_neg hcap]
    exact h c hc

/-- A node that computes a value. -/
theorem value_triple {n : Node} {v : V} (f : Exec V → V) (hn : Fresh n)
    (hop : ∀ id x, execOp fp init id n x = x.assign id (f x))
    (hv : ∀ c, At fp init junk m vs c → f (body fp init junk c) = v) :
    Triple (At fp init junk m vs) (addNode n)
      (fun id => At fp init junk m ((id, v) :: vs))
      (At fp init junk m vs) := by
  refine addNode_triple fun c hc => ?_
  have hbody : body fp init junk { c with nodes := c.nodes ++ [n] }
      = (body fp init junk c).assign c.numNodes v := by
    rw [body_append hc.1.fresh hn, hop, hv c hc]
  have henv : ∀ id < c.numNodes,
      ((body fp init junk c).assign c.numNodes v).env id
        = (body fp init junk c).env id := fun id hid =>
    Function.update_of_ne (Nat.ne_of_lt hid) _ _
  have hsim := hc.1.append (g := m.guest) hn
    ((body_append hc.1.fresh hn).symm.trans hbody) henv hc.1.entry
    hc.1.guest
  refine ⟨hsim, fun p hp => ?_⟩
  rw [hbody, numNodes_concat]
  rcases List.mem_cons.mp hp with rfl | hp
  · exact ⟨Nat.lt_succ_self _, Function.update_self _ _ _⟩
  · obtain ⟨hlt, hval⟩ := hc.2 p hp
    exact ⟨Nat.lt_succ_of_lt hlt, (henv _ hlt).trans hval⟩

/-- A node that acts on the guest. `g` is what it does to the guest with
the machine's TOP, `gx` what it does to the guest of the body. -/
theorem effect_triple {n : Node} {g : Guest} (hn : Fresh n)
    (gx : Context → Guest)
    (hop : ∀ c, At fp init junk m vs c →
      execOp fp init c.numNodes n (body fp init junk c)
        = { body fp init junk c with guest := gx c })
    (htop : ∀ c, At fp init junk m vs c → topOf (gx c).sw = init.top)
    (hg : ∀ c, At fp init junk m vs c →
      g = { gx c with
            sw := withTop (gx c).sw
              (init.top + BitVec.ofInt 3 c.topDelta) }) :
    Triple (At fp init junk m vs) (addNode n)
      (fun _ => At fp init junk { m with guest := g } vs)
      (At fp init junk m vs) := by
  refine addNode_triple fun c hc => ?_
  have hbody : body fp init junk { c with nodes := c.nodes ++ [n] }
      = { body fp init junk c with guest := gx c } := by
    rw [body_append hc.1.fresh hn, hop c hc]
  have hsim := hc.1.append hn (hop c hc) (fun _ _ => rfl) (htop c hc)
    (hg c hc)
  refine ⟨hsim, fun p hp => ?_⟩
  obtain ⟨hlt, hval⟩ := hc.2 p hp
  rw [hbody]
  rw [numNodes_concat]
  exact ⟨Nat.lt_succ_of_lt hlt, hval⟩

-- =================================================== the symbolic stack

theorem SlotOk.mono {x : Exec V} {count : Nat} {td : Int} {m m' : X87 V}
    {d : Fin 8} {s : SlotVal} (hget : m'.get d = m.get d)
    (hempty : m.isEmpty d = true → m'.isEmpty d = true)
    (h : SlotOk init x count td m d s) :
    SlotOk init x count td m' d s := by
  cases s with
  | node id => exact ⟨h.1, h.2.trans hget.symm⟩
  | initial i => exact ⟨h.1, hget.trans h.2⟩
  | popped => exact hempty h

theorem Sim.setSlot (h : Sim fp init junk c m) (d : Nat) {id : Nat}
    {v : V} (hid : id < c.numNodes)
    (hv : (body fp init junk c).env id = v) :
    Sim fp init junk (c.setSlot d (.node id)) (m.set d v) := by
  by_cases hd : d < 8
  · rw [setSlot_of_lt hd]
    refine ⟨h.fresh, fun e => ?_, h.cached, h.entry, ?_⟩
    · show SlotOk init (body fp init junk c) c.numNodes c.topDelta
        (m.set d v) e (Function.update c.slotVal ⟨d, hd⟩ (.node id) e)
      by_cases he : e = ⟨d, hd⟩
      · subst he
        rw [Function.update_self]
        refine ⟨hid, hv.trans ?_⟩
        rw [X87.get_set m v hd hd, if_pos rfl]
      · have hne : e.val ≠ d := fun h => he (Fin.ext h)
        rw [Function.update_of_ne he]
        refine (h.slot e).mono ?_ fun hemp => ?_
        · rw [X87.get_set m v hd e.isLt, if_neg hne]
        · rw [X87.isEmpty_set_of_ne m v e.isLt hne]
          exact hemp
    · rw [X87.guest_set]
      exact h.guest
  · have hc : c.setSlot d (.node id) = c := dif_neg hd
    have hm : m.set d v = m := if_neg hd
    rw [hc, hm]
    exact h

theorem setSlot_triple (d : Nat) {id : Nat} {v : V}
    (hmem : (id, v) ∈ vs) {F : Context → Prop} :
    Triple (At fp init junk m vs)
      (Keep.modify (setSlot d (.node id)))
      (fun _ => At fp init junk (m.set d v) vs) F := by
  refine Triple.modify fun c hc => ?_
  obtain ⟨hid, hv⟩ := hc.2 _ hmem
  refine ⟨hc.1.setSlot d hid hv, ?_⟩
  unfold Context.setSlot
  split <;> exact hc.2

theorem push_triple {id : Nat} {v : V} (hmem : (id, v) ∈ vs)
    {F : Context → Prop} :
    Triple (At fp init junk m vs) (Keep.modify (push id))
      (fun _ => At fp init junk (m.push v) vs) F := by
  refine Triple.modify fun c hc => ⟨?_, hc.2⟩
  obtain ⟨hid, hv⟩ := hc.2 _ hmem
  refine ⟨hc.1.fresh, fun d => ?_, hc.1.cached, hc.1.entry, ?_⟩
  · show SlotOk init (body fp init junk c) c.numNodes (c.topDelta - 1)
      (m.push v) d (if d.val = 0 then .node id
        else c.slotVal ⟨d.val - 1, by omega⟩)
    split
    · next h0 =>
      refine ⟨hid, hv.trans ?_⟩
      rw [h0, X87.get_push_zero]
    · next h0 =>
      -- depth `d` was depth `d - 1`, and TOP is one lower
      obtain ⟨e, rfl⟩ : ∃ e : Fin 7, d = e.succ :=
        ⟨⟨d.val - 1, by omega⟩, Fin.ext (by simp; omega)⟩
      have he := hc.1.slot e.castSucc
      have hidx : (⟨e.succ.val - 1, by omega⟩ : Fin 8) = e.castSucc :=
        Fin.ext (by simp)
      have hget : (m.push v).get e.succ.val = m.get e.castSucc.val :=
        X87.get_push_succ m v e.isLt
      have hemp : (m.push v).isEmpty e.succ.val
          = m.isEmpty e.castSucc.val :=
        X87.isEmpty_push_succ m v e.isLt
      rw [hidx]
      cases hs : c.slotVal e.castSucc with
      | node id' =>
          rw [hs] at he
          exact ⟨he.1, he.2.trans hget.symm⟩
      | initial i =>
          rw [hs] at he
          refine ⟨?_, hget.trans he.2⟩
          have := he.1
          simp at this ⊢
          omega
      | popped =>
          rw [hs] at he
          exact hemp.trans he
  · show { m.guest with sw := withTop m.guest.sw (m.top - 1) } = _
    have htd : BitVec.ofInt 3 (c.topDelta - 1)
        = BitVec.ofInt 3 c.topDelta - 1 := by
      have h1 := BitVec.ofInt_add (n := 3) (c.topDelta - 1) 1
      rw [Int.sub_add_cancel] at h1
      rw [h1]
      exact (BitVec.add_sub_cancel _ _).symm
    rw [hc.1.top, hc.1.guest]
    simp only [withTop_withTop]
    congr 2
    show _ = init.top + BitVec.ofInt 3 (c.topDelta - 1)
    rw [htd, BitVec.sub_eq_add_neg, BitVec.sub_eq_add_neg,
      BitVec.add_assoc]

theorem Sim.pop (h : Sim fp init junk c m) :
    Sim fp init junk c.pop m.pop := by
  refine ⟨h.fresh, fun d => ?_, h.cached, h.entry, ?_⟩
  · show SlotOk init (body fp init junk c) c.numNodes (c.topDelta + 1)
      m.pop d (if h : d.val + 1 < 8 then c.slotVal ⟨d.val + 1, h⟩
        else .popped)
    split
    · next hd =>
      have he := h.slot ⟨d.val + 1, hd⟩
      cases hs : c.slotVal ⟨d.val + 1, hd⟩ with
      | node id =>
          rw [hs] at he
          exact ⟨he.1, he.2.trans (X87.get_pop m d).symm⟩
      | initial i =>
          rw [hs] at he
          refine ⟨?_, (X87.get_pop m d).trans he.2⟩
          have := he.1
          simp at this ⊢
          omega
      | popped =>
          rw [hs] at he
          exact X87.isEmpty_pop m he
    · next hd =>
      have h7 : d.val = 7 := by omega
      show m.pop.isEmpty d.val = true
      rw [h7]
      exact X87.isEmpty_pop_last m
  · show { m.guest with sw := withTop m.guest.sw (m.top + 1) } = _
    have htd : BitVec.ofInt 3 (c.topDelta + 1)
        = BitVec.ofInt 3 c.topDelta + 1 := by
      rw [BitVec.ofInt_add]
      rfl
    rw [h.top, h.guest]
    simp only [withTop_withTop]
    congr 2
    show _ = init.top + BitVec.ofInt 3 (c.topDelta + 1)
    rw [htd, BitVec.add_assoc]

theorem pop_triple {F : Context → Prop} :
    Triple (At fp init junk m vs) (Keep.modify Context.pop)
      (fun _ => At fp init junk m.pop vs) F :=
  Triple.modify fun _ hc => ⟨hc.1.pop, hc.2⟩

-- ============================================================= resolve

/-- A slot may be turned into any node that holds its value. -/
theorem Sim.slotTo (h : Sim fp init junk c m) {d : Nat} (hd : d < 8)
    {id : Nat} (hid : id < c.numNodes)
    (hv : (body fp init junk c).env id = m.get d) :
    Sim fp init junk { c with
      slotVal := Function.update c.slotVal ⟨d, hd⟩ (.node id) } m := by
  refine ⟨h.fresh, fun e => ?_, h.cached, h.entry, h.guest⟩
  show SlotOk init (body fp init junk c) c.numNodes c.topDelta m e
    (Function.update c.slotVal ⟨d, hd⟩ (.node id) e)
  by_cases he : e = ⟨d, hd⟩
  · subst he
    rw [Function.update_self]
    exact ⟨hid, hv⟩
  · rw [Function.update_of_ne he]
    exact h.slot e

/-- A node that reads an initial register may be remembered. -/
theorem Sim.cache (h : Sim fp init junk c m) {i : Nat} (hi : i < 8)
    {id : Nat} (hid : id < c.numNodes)
    (hv : (body fp init junk c).env id = init.get i) :
    Sim fp init junk { c with
      initialRead := Function.update c.initialRead ⟨i, hi⟩ (some id) }
      m := by
  refine ⟨h.fresh, h.slot, fun j id' hj => ?_, h.entry, h.guest⟩
  change Function.update c.initialRead ⟨i, hi⟩ (some id) j = some id'
    at hj
  by_cases he : j = ⟨i, hi⟩
  · subst he
    rw [Function.update_self] at hj
    obtain rfl := Option.some.inj hj
    exact ⟨hid, hv⟩
  · rw [Function.update_of_ne he] at hj
    exact h.cached j id' hj

theorem readSt_triple (i : Nat) :
    Triple (At fp init junk m vs)
      (addNode { op := .ReadSt, initialDepth := i })
      (fun id => At fp init junk m ((id, init.get i) :: vs))
      (At fp init junk m vs) :=
  value_triple (fun _ => init.get i) ⟨rfl, rfl, rfl, rfl⟩
    (fun _ _ => rfl) (fun _ _ => rfl)

theorem resolve_triple (d : Nat) :
    Triple (At fp init junk m vs) (resolve d)
      (fun id => At fp init junk m ((id, m.get d) :: vs))
      (At fp init junk m vs) := by
  intro c hc
  unfold resolve
  by_cases hd : d < 8
  case neg =>
    simp only [dif_neg hd]
    exact hc
  simp only [dif_pos hd]
  have hslot := hc.1.slot ⟨d, hd⟩
  cases hs : c.slotVal ⟨d, hd⟩ with
  | node id =>
      rw [hs] at hslot
      exact ⟨hc.1, List.forall_mem_cons.mpr ⟨hslot, hc.2⟩⟩
  | popped => exact hc
  | initial i =>
      rw [hs] at hslot
      by_cases hi : i < 8
      case neg =>
        simp only [dif_neg hi]
        exact hc
      simp only [dif_pos hi]
      cases hr : c.initialRead ⟨i, hi⟩ with
      | some id =>
          obtain ⟨hid, hv⟩ := hc.1.cached _ _ hr
          have hval := hv.trans hslot.2.symm
          simp only [setSlot_of_lt hd]
          exact ⟨hc.1.slotTo hd hid hval,
            List.forall_mem_cons.mpr ⟨⟨hid, hval⟩, hc.2⟩⟩
      | none =>
          have hadd := readSt_triple i c hc
          rcases ha :
            addNode { op := .ReadSt, initialDepth := i } c with ⟨o, c'⟩
          rw [ha] at hadd
          cases o with
          | none => exact hadd
          | some id =>
              obtain ⟨hsim, hvals⟩ := hadd
              obtain ⟨⟨hid, hv⟩, hvs⟩ := List.forall_mem_cons.mp hvals
              have hval := hv.trans hslot.2.symm
              exact ⟨(hsim.cache hi hid hv).slotTo hd hid hval,
                List.forall_mem_cons.mpr ⟨⟨hid, hval⟩, hvs⟩⟩

/-- A resolved slot holds the node it resolved to. -/
theorem slotVal_resolve {d id : Nat} (hd : d < 8) {c' : Context}
    (h : resolve d c = (some id, c')) :
    c'.slotVal ⟨d, hd⟩ = .node id := by
  unfold resolve at h
  simp only [dif_pos hd] at h
  cases hs : c.slotVal ⟨d, hd⟩ with
  | node id' =>
      simp only [hs, Prod.mk.injEq, Option.some.injEq] at h
      rw [← h.2, hs, h.1]
  | popped => simp [hs] at h
  | initial i =>
      simp only [hs] at h
      by_cases hi : i < 8
      case neg => simp [hi] at h
      simp only [dif_pos hi] at h
      cases hr : c.initialRead ⟨i, hi⟩ with
      | some id' =>
          simp only [hr, Prod.mk.injEq, Option.some.injEq] at h
          rw [← h.2, h.1]
          simp [setSlot, hd]
      | none =>
          simp only [hr] at h
          rcases ha :
            addNode { op := .ReadSt, initialDepth := i } c with ⟨o, c₁⟩
          rw [ha] at h
          cases o with
          | none => simp at h
          | some id' =>
              simp only [Prod.mk.injEq, Option.some.injEq] at h
              rw [← h.2, h.1]
              simp

/-- `resolve_triple`, with what the slot now holds. -/
theorem resolve_node_triple {d : Nat} (hd : d < 8) :
    Triple (At fp init junk m vs) (resolve d)
      (fun id c => At fp init junk m ((id, m.get d) :: vs) c
        ∧ c.slotVal ⟨d, hd⟩ = .node id)
      (At fp init junk m vs) := by
  intro c hc
  have h := resolve_triple d c hc
  rcases hr : resolve d c with ⟨o, c'⟩
  rw [hr] at h
  cases o with
  | none => exact h
  | some id => exact ⟨h, slotVal_resolve hd hr⟩

/-- Writing a register back to itself, when its slot is a node. -/
theorem Sim.setSelf (h : Sim fp init junk c m) {d id : Nat} (hd : d < 8)
    (hs : c.slotVal ⟨d, hd⟩ = .node id) :
    Sim fp init junk c (m.set d (m.get d)) := by
  have hslot := h.slot ⟨d, hd⟩
  rw [hs] at hslot
  have hset := h.setSlot d hslot.1 hslot.2
  have hc : c.setSlot d (.node id) = c := by
    rw [setSlot_of_lt hd, ← hs, Function.update_eq_self]
  rwa [hc] at hset

/-- Resolving one slot leaves the others. -/
theorem slotVal_resolve_of_ne {d : Nat} {o : Option Nat} {c' : Context}
    (h : resolve d c = (o, c')) {e : Fin 8} (hne : e.val ≠ d) :
    c'.slotVal e = c.slotVal e := by
  unfold resolve at h
  by_cases hd : d < 8
  case neg =>
    simp only [dif_neg hd, Prod.mk.injEq] at h
    rw [← h.2]
  have hne' : e ≠ ⟨d, hd⟩ := fun he => hne (congrArg Fin.val he)
  simp only [dif_pos hd] at h
  cases hs : c.slotVal ⟨d, hd⟩ with
  | node id' =>
      simp only [hs, Prod.mk.injEq] at h
      rw [← h.2]
  | popped =>
      simp only [hs, Prod.mk.injEq] at h
      rw [← h.2]
  | initial i =>
      simp only [hs] at h
      by_cases hi : i < 8
      case neg =>
        simp only [dif_neg hi, Prod.mk.injEq] at h
        rw [← h.2]
      simp only [dif_pos hi] at h
      cases hr : c.initialRead ⟨i, hi⟩ with
      | some id' =>
          simp only [hr, Prod.mk.injEq] at h
          rw [← h.2]
          simp [setSlot, hd, Function.update_of_ne hne']
      | none =>
          simp only [hr, addNode] at h
          by_cases hcap : kMaxNodes ≤ c.numNodes
          · simp only [if_pos hcap, Prod.mk.injEq] at h
            rw [← h.2]
          · simp only [if_neg hcap, Prod.mk.injEq] at h
            rw [← h.2]
            simp [Function.update_of_ne hne']

end BuildSim

end X87Sidecar
