/-
One instruction: what the builder's step and the reference machine's step
have in common, for every instruction but `fxch`.

Each lemma is the triple of one builder routine. Its postcondition
`Reaches r` says that the reference machine takes the step `r` and that
the Context denotes the state it reaches; its failure postcondition says
that nothing observable has happened.
-/
import X87Sidecar.Proofs.Build.Sim

namespace X87Sidecar

open Lib Lib.Keep Context Denote

namespace BuildSim

variable {V : Type} {fp : Fp V} {init : X87 V} {junk : Nat → V}
variable {c : Context} {m : X87 V} {vs : List (Nat × V)}

-- ============================================================== loads

/-- A node that reads memory. -/
theorem load_triple {n : Node} {op : IROperand} {k : Nat}
    (f : BitVec (8 * k) → V) (hn : Fresh n)
    (hop : ∀ id x, execOp fp init id n x
      = x.assign id (f (x.guest.read op k))) :
    Triple (At fp init junk m vs) (addNode n)
      (fun id c => ∃ v, some (f (m.guest.read op k)) = some v
        ∧ At fp init junk m ((id, v) :: vs) c)
      (Fails fp init junk m) :=
  (value_triple (v := f (m.guest.read op k))
    (fun x => f (x.guest.read op k)) hn hop fun c hc => by
      rw [hc.1.read]).conseq
    (fun _ h => h) (fun _ _ h => ⟨_, rfl, h⟩) (fun _ h => h.fails)

/-- A load of 4 or 8 bytes gives the number there; any other size fails. -/
theorem fpLoad_triple (op : IROperand) :
    Triple (At fp init junk m vs) (Build.fpLoad op)
      (fun id c => ∃ v, Reference.memFp fp m.guest op = some v
        ∧ At fp init junk m ((id, v) :: vs) c)
      (Fails fp init junk m) := by
  unfold Build.fpLoad Reference.memFp
  cases op.size with
  | s32 => exact load_triple _ ⟨rfl, rfl, rfl, rfl⟩ fun _ _ => rfl
  | s64 => exact load_triple _ ⟨rfl, rfl, rfl, rfl⟩ fun _ _ => rfl
  | _ => exact Triple.fail fun _ h => h.fails

/-- A load of 2, 4 or 8 bytes gives the integer there. -/
theorem intLoad_triple (op : IROperand) :
    Triple (At fp init junk m vs) (Build.intLoad op)
      (fun id c => ∃ v, Reference.memInt fp m.guest op = some v
        ∧ At fp init junk m ((id, v) :: vs) c)
      (Fails fp init junk m) := by
  unfold Build.intLoad Reference.memInt
  cases op.size with
  | s16 => exact load_triple _ ⟨rfl, rfl, rfl, rfl⟩ fun _ _ => rfl
  | s32 => exact load_triple _ ⟨rfl, rfl, rfl, rfl⟩ fun _ _ => rfl
  | s64 => exact load_triple _ ⟨rfl, rfl, rfl, rfl⟩ fun _ _ => rfl
  | _ => exact Triple.fail fun _ h => h.fails

/-- A precondition with an existential is used one witness at a time. -/
theorem triple_exists {α β : Type} {P : α → Context → Prop}
    {r : α → Prop} {op : BuildM β} {Q : β → Context → Prop}
    {F : Context → Prop} (h : ∀ a, r a → Triple (P a) op Q F) :
    Triple (fun c => ∃ a, r a ∧ P a c) op Q F := by
  rintro c ⟨a, hr, hc⟩
  exact h a hr c hc

/-- `resolve`, failing as instructions do. -/
theorem resolve_fails (d : Nat) :
    Triple (At fp init junk m vs) (resolve d)
      (fun id => At fp init junk m ((id, m.get d) :: vs))
      (Fails fp init junk m) :=
  (resolve_triple d).failTo fun _ h => h.fails

/-- Two operands resolved together: when the first is missing, the
second has only added nodes that read. -/
theorem resolveBoth_fails (d e : Nat) :
    Triple (At fp init junk m vs) (Build.resolveBoth d e)
      (fun ab => At fp init junk m
        ((ab.2, m.get e) :: (ab.1, m.get d) :: vs))
      (Fails fp init junk m) :=
  Triple.both (resolve_triple d) (fun _ => resolve_fails e)
    ((resolve_fails e).conseq (fun _ h => h) (fun _ _ h => h.fails)
      fun _ h => h)

-- ============================================================ pushes

/-- A value that stands at a node is pushed. -/
theorem push_reaches {id : Nat} {v : V} (hmem : (id, v) ∈ vs)
    {F : Context → Prop} :
    Triple (At fp init junk m vs) (Keep.modify (push id))
      (Reaches fp init junk (some (m.push v))) F :=
  (push_triple hmem).conseq (fun _ h => h) (fun _ _ h => h.reaches)
    (fun _ h => h)

/-- A node is appended and its value pushed. -/
theorem pushNode_triple {n : Node} (v : V) (hn : Fresh n)
    (hop : ∀ id x, execOp fp init id n x = x.assign id v) :
    Triple (At fp init junk m vs) (Build.pushNode n)
      (Reaches fp init junk (some (m.push v))) (Fails fp init junk m) := by
  unfold Build.pushNode
  refine Triple.bind ((value_triple (v := v) (fun _ => v) hn hop
    fun _ _ => rfl).failTo fun _ h => h.fails) fun id => ?_
  exact push_reaches (List.mem_cons_self ..)

/-- `fld`: a register or a number in memory, pushed. -/
theorem fld_triple (i : IRInstr) :
    Triple (At fp init junk m []) (Build.fld i)
      (Reaches fp init junk
        (if i.op0.kind = .register then
          some (m.push (m.get i.op1.index))
        else (Reference.memFp fp m.guest i.op0).map m.push))
      (Fails fp init junk m) := by
  unfold Build.fld
  split
  · refine Triple.bind (resolve_fails _) fun id => ?_
    exact push_reaches (List.mem_cons_self ..)
  · refine Triple.bind (fpLoad_triple _) fun id => ?_
    refine triple_exists fun v hv => ?_
    rw [hv]
    exact push_reaches (List.mem_cons_self ..)

/-- `fild`: an integer in memory, pushed. -/
theorem fild_triple (i : IRInstr) :
    Triple (At fp init junk m []) (Build.fild i)
      (Reaches fp init junk
        ((Reference.memInt fp m.guest i.op0).map m.push))
      (Fails fp init junk m) := by
  unfold Build.fild
  refine Triple.bind (intLoad_triple _) fun id => ?_
  refine triple_exists fun v hv => ?_
  rw [hv]
  exact push_reaches (List.mem_cons_self ..)

-- ======================================================== arithmetic

/-- A slot takes a value that stands at a node. -/
theorem setSlot_fails (d : Nat) {id : Nat} {v : V}
    (hmem : (id, v) ∈ vs) {F : Context → Prop} :
    Triple (At fp init junk m vs) (Keep.modify (setSlot d (.node id)))
      (fun _ => At fp init junk (m.set d v) []) F :=
  (setSlot_triple d hmem).conseq (fun _ h => h) (fun _ _ h => h.forget)
    (fun _ h => h)

/-- The pop that ends an instruction. -/
theorem pop_reaches {F : Context → Prop} :
    Triple (At fp init junk m vs) (Keep.modify Context.pop)
      (Reaches fp init junk (some m.pop)) F :=
  pop_triple.conseq (fun _ h => h) (fun _ _ h => h.reaches)
    (fun _ h => h)

/-- What the opcode of a two-input node computes. -/
def Computes (fp : Fp V) (init : X87 V) (op : Op) (f : V → V → V) :
    Prop :=
  ∀ (a b id : Nat) (x : Exec V),
    execOp fp init id { op, in0 := a, in1 := b } x
      = x.assign id (f (x.val a) (x.val b))

/-- A two-input node appended. -/
theorem node2_triple {op : Op} {f : V → V → V}
    (hop : Computes fp init op f) {a b : Nat} {va vb : V}
    (ha : (a, va) ∈ vs) (hb : (b, vb) ∈ vs) {m₀ : X87 V}
    (hF : ∀ c, At fp init junk m vs c → Fails fp init junk m₀ c) :
    Triple (At fp init junk m vs) (addNode { op, in0 := a, in1 := b })
      (fun id => At fp init junk m ((id, f va vb) :: vs))
      (Fails fp init junk m₀) :=
  (value_triple (fun x => f (x.val a) (x.val b)) ⟨rfl, rfl, rfl, rfl⟩
    (hop a b) fun c hc => by rw [hc.val ha, hc.val hb]).failTo hF

/-- The operation with its operands in instruction order. -/
def directed (reversed : Bool) (f : V → V → V) : V → V → V :=
  if reversed then fun a b => f b a else f

/-- The node of an operation on two values, in either order. -/
theorem binary_triple {op : Op} {f : V → V → V}
    (hop : Computes fp init op f) (reversed : Bool) {a b : Nat}
    {va vb : V} (d : Nat) (ha : (a, va) ∈ vs) (hb : (b, vb) ∈ vs) :
    Triple (At fp init junk m vs) (Build.binary op reversed a b d)
      (fun _ => At fp init junk (m.set d (directed reversed f va vb)) [])
      (Fails fp init junk m) := by
  unfold Build.binary
  cases reversed with
  | false =>
      refine Triple.bind
        (node2_triple hop ha hb fun _ h => h.fails) fun id => ?_
      exact setSlot_fails d (List.mem_cons_self ..)
  | true =>
      refine Triple.bind
        (node2_triple hop hb ha fun _ h => h.fails) fun id => ?_
      exact setSlot_fails d (List.mem_cons_self ..)

/-- The same where it ends an instruction. -/
theorem binary_reaches {op : Op} {f : V → V → V}
    (hop : Computes fp init op f) (reversed : Bool) {a b : Nat}
    {va vb : V} (d : Nat) (ha : (a, va) ∈ vs) (hb : (b, vb) ∈ vs) :
    Triple (At fp init junk m vs) (Build.binary op reversed a b d)
      (Reaches fp init junk
        (some (m.set d (directed reversed f va vb))))
      (Fails fp init junk m) :=
  (binary_triple hop reversed d ha hb).conseq (fun _ h => h)
    (fun _ _ h => h.reaches) (fun _ h => h)

/-- The arithmetic of two registers, or of `ST(0)` and memory. -/
theorem arith_triple {op : Op} {f : V → V → V}
    (hop : Computes fp init op f) (reversed : Bool) (i : IRInstr) :
    Triple (At fp init junk m []) (Build.arith i op reversed)
      (Reaches fp init junk
        (Reference.arith fp (directed reversed f) i m))
      (Fails fp init junk m) := by
  unfold Build.arith Reference.arith
  split
  · refine Triple.bind (resolveBoth_fails _ _) fun ab => ?_
    exact binary_reaches hop reversed _
      (List.mem_cons_of_mem _ (List.mem_cons_self ..))
      (List.mem_cons_self ..)
  · refine Triple.bind (resolve_fails _) fun a => ?_
    refine Triple.bind (fpLoad_triple _) fun b => ?_
    refine triple_exists fun v hv => ?_
    rw [hv]
    exact binary_reaches hop reversed _
      (List.mem_cons_of_mem _ (List.mem_cons_self ..))
      (List.mem_cons_self ..)

/-- The same with a pop. -/
theorem arithp_triple {op : Op} {f : V → V → V}
    (hop : Computes fp init op f) (reversed : Bool) (i : IRInstr) :
    Triple (At fp init junk m []) (Build.arithp i op reversed)
      (Reaches fp init junk
        (Reference.arithp (directed reversed f) i m))
      (Fails fp init junk m) := by
  unfold Build.arithp Reference.arithp
  refine Triple.bind (resolveBoth_fails _ _) fun ab => ?_
  refine Triple.bind (binary_triple hop reversed _
    (List.mem_cons_of_mem _ (List.mem_cons_self ..))
    (List.mem_cons_self ..)) fun _ => ?_
  exact pop_reaches

/-- The arithmetic of `ST(0)` and an integer in memory. -/
theorem iarith_triple {op : Op} {f : V → V → V}
    (hop : Computes fp init op f) (reversed : Bool) (i : IRInstr) :
    Triple (At fp init junk m []) (Build.iarith i op reversed)
      (Reaches fp init junk
        (Reference.iarith fp (directed reversed f) i m))
      (Fails fp init junk m) := by
  unfold Build.iarith Reference.iarith
  refine Triple.bind (resolve_fails _) fun a => ?_
  refine Triple.bind (intLoad_triple _) fun b => ?_
  refine triple_exists fun v hv => ?_
  rw [hv]
  exact binary_reaches hop reversed _
    (List.mem_cons_of_mem _ (List.mem_cons_self ..))
    (List.mem_cons_self ..)

/-- `fpatan` and `fyl2x`. -/
theorem binaryPop_triple {op : Op} {f : V → V → V}
    (hop : Computes fp init op f) :
    Triple (At fp init junk m []) (Build.binaryPop op)
      (Reaches fp init junk (Reference.binaryPop f m))
      (Fails fp init junk m) := by
  unfold Build.binaryPop Reference.binaryPop
  refine Triple.bind (resolveBoth_fails _ _) fun ab => ?_
  refine Triple.bind (node2_triple hop (List.mem_cons_self ..)
    (List.mem_cons_of_mem _ (List.mem_cons_self ..))
    fun _ h => h.fails) fun id => ?_
  refine Triple.bind (setSlot_fails 1 (List.mem_cons_self ..))
    fun _ => ?_
  exact pop_reaches

/-- `fscale` leaves `ST(1)` where it is. -/
theorem scale_triple :
    Triple (At fp init junk m []) Build.scale
      (Reaches fp init junk
        (some (m.set 0 (fp.scale (m.get 0) (m.get 1)))))
      (Fails fp init junk m) := by
  unfold Build.scale
  refine Triple.bind (resolveBoth_fails _ _) fun ab => ?_
  refine Triple.bind (node2_triple (f := fp.scale) (fun _ _ _ _ => rfl)
    (List.mem_cons_of_mem _ (List.mem_cons_self ..))
    (List.mem_cons_self ..) fun _ h => h.fails) fun id => ?_
  exact (setSlot_triple 0 (List.mem_cons_self ..)).conseq
    (fun _ h => h) (fun _ _ h => h.reaches) (fun _ h => h)

/-- `fchs`, `fabs`, `fsqrt` and `frndint`. The operation may depend on
the rounding control. -/
theorem unary_triple {op : Op} (f : BitVec 2 → V → V)
    (hop : ∀ (a id : Nat) (x : Exec V),
      execOp fp init id { op, in0 := a } x
        = x.assign id (f x.guest.rc (x.val a))) :
    Triple (At fp init junk m []) (Build.unary op)
      (Reaches fp init junk (Reference.unary (f m.guest.rc) m))
      (Fails fp init junk m) := by
  unfold Build.unary Reference.unary
  refine Triple.bind (resolve_fails _) fun a => ?_
  refine Triple.bind ((value_triple (v := f m.guest.rc (m.get 0))
    (fun x => f x.guest.rc (x.val a)) ⟨rfl, rfl, rfl, rfl⟩ (hop a)
    fun c hc => by
      rw [hc.1.rc, hc.val (List.mem_cons_self ..)]).failTo
    fun _ h => h.fails) fun id => ?_
  exact (setSlot_triple 0 (List.mem_cons_self ..)).conseq
    (fun _ h => h) (fun _ _ h => h.reaches) (fun _ h => h)

-- ==================================================== transcendentals

/-- What writes the condition codes keeps TOP as the run has it. -/
theorem Sim.setCC {x : Exec V} (h : Sim fp init junk c m)
    (hx : x.guest = (body fp init junk c).guest) (cc : BitVec 16) :
    (m.setCC cc).guest = { x.guest.setCC cc with
      sw := withTop (x.guest.setCC cc).sw
        (init.top + BitVec.ofInt 3 c.topDelta) } := by
  unfold X87.setCC Guest.setCC
  rw [h.guest, hx]
  simp only [withTop_withCC]

/-- A node that computes a value and clears the condition codes. -/
theorem trig_triple {op : Op} {f : V → V} {a : Nat} {va : V}
    (hop : ∀ (id : Nat) (x : Exec V),
      execOp fp init id { op, in0 := a } x
        = { x.assign id (f (x.val a)) with guest := x.guest.setCC 0 })
    (ha : (a, va) ∈ vs) :
    Triple (At fp init junk m vs) (addNode { op, in0 := a })
      (fun id => At fp init junk (m.setCC 0) ((id, f va) :: vs))
      (At fp init junk m vs) := by
  refine addNode_triple fun c hc => ?_
  have hn : Fresh { op, in0 := a } := ⟨rfl, rfl, rfl, rfl⟩
  have hx : execOp fp init c.numNodes { op, in0 := a }
      (body fp init junk c)
      = { (body fp init junk c).assign c.numNodes (f va) with
          guest := (body fp init junk c).guest.setCC 0 } := by
    rw [hop, hc.val ha]
  have henv : ∀ id < c.numNodes,
      ((body fp init junk c).assign c.numNodes (f va)).env id
        = (body fp init junk c).env id := fun id hid =>
    Function.update_of_ne (Nat.ne_of_lt hid) _ _
  have hsim := hc.1.append (g := (m.setCC 0).guest) hn hx henv
    ((topOf_withCC _ _).trans hc.1.entry) (hc.1.setCC rfl 0)
  refine ⟨hsim, fun p hp => ?_⟩
  rw [body_append hc.1.fresh hn, hx, numNodes_concat]
  rcases List.mem_cons.mp hp with rfl | hp
  · exact ⟨Nat.lt_succ_self _, Function.update_self _ _ _⟩
  · obtain ⟨hlt, hval⟩ := hc.2 p hp
    exact ⟨Nat.lt_succ_of_lt hlt, (henv _ hlt).trans hval⟩

/-- A transcendental of `ST(0)` in place, the condition codes
cleared. -/
theorem unaryTrig_triple {op : Op} {f : V → V}
    (hop : ∀ (a id : Nat) (x : Exec V),
      execOp fp init id { op, in0 := a } x
        = { x.assign id (f (x.val a)) with guest := x.guest.setCC 0 }) :
    Triple (At fp init junk m []) (Build.unary op)
      (Reaches fp init junk (Reference.trig f m))
      (Fails fp init junk m) := by
  unfold Build.unary Reference.trig
  refine Triple.bind (resolve_fails _) fun a => ?_
  refine Triple.bind ((trig_triple (hop a)
    (List.mem_cons_self ..)).failTo fun _ h => h.fails) fun id => ?_
  rw [← X87.set_setCC]
  exact (setSlot_triple 0 (List.mem_cons_self ..)).conseq
    (fun _ h => h) (fun _ _ h => h.reaches) (fun _ h => h)

/-- After the first node of `fsincos` or `fptan` a failure leaves that
node behind. -/
theorem At.fails_setCC (h : At fp init junk (m.setCC 0) vs c) :
    Fails fp init junk m c := .inr h.1

/-- `fsincos`: the sine in place, the cosine pushed. -/
theorem sincos_triple :
    Triple (At fp init junk m []) Build.sincos
      (Reaches fp init junk (Reference.trigPair fp.sin fp.cos m))
      (Fails fp init junk m) := by
  unfold Build.sincos Reference.trigPair
  refine Triple.bind (resolve_fails _) fun a => ?_
  refine Triple.bind ((trig_triple (f := fp.sin) (fun _ _ => rfl)
    (List.mem_cons_self ..)).failTo fun _ h => h.fails) fun s => ?_
  refine Triple.bind ((trig_triple (f := fp.cos) (fun _ _ => rfl)
    (List.mem_cons_of_mem _ (List.mem_cons_self ..))).failTo
    fun _ h => h.fails_setCC) fun co => ?_
  rw [X87.setCC_setCC]
  refine Triple.bind (setSlot_triple 0
    (List.mem_cons_of_mem _ (List.mem_cons_self ..))) fun _ => ?_
  rw [← X87.push_setCC, ← X87.set_setCC]
  exact push_reaches (List.mem_cons_self ..)

/-- `fptan`: the tangent in place, a one pushed. -/
theorem ptan_triple :
    Triple (At fp init junk m []) Build.ptan
      (Reaches fp init junk
        (Reference.trigPair fp.tan (fun _ => fp.one) m))
      (Fails fp init junk m) := by
  unfold Build.ptan Reference.trigPair
  refine Triple.bind (resolve_fails _) fun a => ?_
  refine Triple.bind ((trig_triple (f := fp.tan) (fun _ _ => rfl)
    (List.mem_cons_self ..)).failTo fun _ h => h.fails) fun t => ?_
  refine Triple.bind ((value_triple (v := fp.one) (fun _ => fp.one)
    ⟨rfl, rfl, rfl, rfl⟩ (fun _ _ => rfl) fun _ _ => rfl).failTo
    fun _ h => h.fails_setCC) fun one => ?_
  refine Triple.bind (setSlot_triple 0
    (List.mem_cons_of_mem _ (List.mem_cons_self ..))) fun _ => ?_
  rw [← X87.push_setCC, ← X87.set_setCC]
  exact push_reaches (List.mem_cons_self ..)

-- ============================================================= stores

/-- A node that acts on everything but the status word acts on the body's
guest as it does on the machine's. -/
theorem write_triple {n : Node} (act : Guest → Guest) (hn : Fresh n)
    (hact : ∀ g sw, act { g with sw } = { act g with sw })
    (hop : ∀ c, At fp init junk m vs c →
      execOp fp init c.numNodes n (body fp init junk c)
        = { body fp init junk c with
            guest := act (body fp init junk c).guest }) :
    Triple (At fp init junk m vs) (addNode n)
      (fun _ => At fp init junk { m with guest := act m.guest } [])
      (Fails fp init junk m) := by
  have hsw : ∀ g : Guest, (act g).sw = g.sw := fun g => by
    have h := congrArg Guest.sw (hact g g.sw)
    exact h
  refine (effect_triple (g := act m.guest) hn
    (fun c => act (body fp init junk c).guest) hop (fun c hc => ?_)
    fun c hc => ?_).conseq (fun _ h => h) (fun _ _ h => h.forget)
    (fun _ h => h.fails)
  · rw [hsw]
    exact hc.1.entry
  · rw [hc.1.guest, hact, hsw]

/-- The pop of a popping instruction. -/
theorem popIf_reaches (pops : Bool) {F : Context → Prop} :
    Triple (At fp init junk m vs) (Build.popIf pops)
      (Reaches fp init junk (some (Reference.popIf pops m))) F := by
  unfold Build.popIf Reference.popIf
  cases pops with
  | true => exact pop_reaches
  | false => exact Triple.modify fun _ h => h.reaches

/-- A store of 4 or 8 bytes puts the number there. -/
theorem fpStore_triple (op : IROperand) {a : Nat} {v : V}
    (ha : (a, v) ∈ vs) :
    Triple (At fp init junk m vs) (Build.fpStore op a)
      (fun _ c => ∃ g, Reference.storeFp fp m.guest op v = some g
        ∧ At fp init junk { m with guest := g } [] c)
      (Fails fp init junk m) := by
  unfold Build.fpStore Reference.storeFp
  cases op.size with
  | s32 =>
      exact (write_triple
        (fun g => g.write op 4 (fp.toF32 v)) ⟨rfl, rfl, rfl, rfl⟩
        (fun _ _ => rfl) fun c hc => by rw [← hc.val ha]; rfl).conseq
        (fun _ h => h) (fun _ _ h => ⟨_, rfl, h⟩) (fun _ h => h)
  | s64 =>
      exact (write_triple
        (fun g => g.write op 8 (fp.toF64 v)) ⟨rfl, rfl, rfl, rfl⟩
        (fun _ _ => rfl) fun c hc => by rw [← hc.val ha]; rfl).conseq
        (fun _ h => h) (fun _ _ h => ⟨_, rfl, h⟩) (fun _ h => h)
  | _ => exact Triple.fail fun _ h => h.fails

/-- The rounding control of `fist`, `fistp` and `fisttp`. -/
def storeRcOf (truncate : Bool) (m : X87 V) : BitVec 2 :=
  if truncate then rcTruncate else m.guest.rc

/-- A store of 2, 4 or 8 bytes puts the rounded number there. -/
theorem intStore_triple (op : IROperand) {a : Nat} {v : V}
    (ha : (a, v) ∈ vs) (truncate : Bool) :
    Triple (At fp init junk m vs) (Build.intStore op a truncate)
      (fun _ c => ∃ g,
        Reference.storeInt fp (storeRcOf truncate m) m.guest op v = some g
          ∧ At fp init junk { m with guest := g } [] c)
      (Fails fp init junk m) := by
  unfold Build.intStore Reference.storeInt
  cases op.size with
  | s16 =>
      exact (write_triple
        (fun g => g.write op 2 (fp.toI16 (storeRcOf truncate m) v))
        ⟨rfl, rfl, rfl, rfl⟩ (fun _ _ => rfl) fun c hc => by
          unfold storeRcOf
          rw [← hc.val ha, ← hc.1.rc]
          rfl).conseq
        (fun _ h => h) (fun _ _ h => ⟨_, rfl, h⟩) (fun _ h => h)
  | s32 =>
      exact (write_triple
        (fun g => g.write op 4 (fp.toI32 (storeRcOf truncate m) v))
        ⟨rfl, rfl, rfl, rfl⟩ (fun _ _ => rfl) fun c hc => by
          unfold storeRcOf
          rw [← hc.val ha, ← hc.1.rc]
          rfl).conseq
        (fun _ h => h) (fun _ _ h => ⟨_, rfl, h⟩) (fun _ h => h)
  | s64 =>
      exact (write_triple
        (fun g => g.write op 8 (fp.toI64 (storeRcOf truncate m) v))
        ⟨rfl, rfl, rfl, rfl⟩ (fun _ _ => rfl) fun c hc => by
          unfold storeRcOf
          rw [← hc.val ha, ← hc.1.rc]
          rfl).conseq
        (fun _ h => h) (fun _ _ h => ⟨_, rfl, h⟩) (fun _ h => h)
  | _ => exact Triple.fail fun _ h => h.fails

/-- The register form of `fst`. `fst st(0)` writes nothing: the register
already holds its own value. -/
theorem fstTo_triple {op : IROperand} {a : Nat}
    (hop : op.kind = .register) {F : Context → Prop} :
    Triple (fun c => At fp init junk m [(a, m.get 0)] c
        ∧ c.slotVal ⟨0, by omega⟩ = .node a)
      (Build.fstTo op a)
      (fun _ => At fp init junk (m.set op.index (m.get 0)) []) F := by
  unfold Build.fstTo
  rw [if_pos hop]
  by_cases h0 : op.index = 0
  · simp only [h0, ne_eq, not_true_eq_false, if_false]
    exact Triple.pure fun c hc =>
      ⟨hc.1.1.setSelf (by omega) hc.2, by simp⟩
  · simp only [ne_eq, h0, not_false_eq_true, if_true]
    exact (setSlot_fails _ (List.mem_cons_self ..)).conseq
      (fun _ h => h.1) (fun _ _ h => h) (fun _ h => h)

/-- `fst` and its forms: to a register or to memory, with a pop or not. -/
theorem fst_triple (i : IRInstr) (pops : Bool) :
    Triple (At fp init junk m []) (Build.fst i pops)
      (Reaches fp init junk (Reference.fst fp pops i m))
      (Fails fp init junk m) := by
  unfold Build.fst Reference.fst
  refine Triple.bind ((resolve_node_triple (by omega)).failTo
    fun _ h => h.fails) fun a => ?_
  split
  · next hop =>
    exact Triple.bind (fstTo_triple hop) fun _ => popIf_reaches pops
  · next hop =>
    unfold Build.fstTo
    rw [if_neg hop]
    refine Triple.bind (Triple.bind
      ((fpStore_triple _ (List.mem_cons_self ..)).conseq
        (fun _ h => h.1) (fun _ _ h => h) (fun _ h => h))
      fun _ => Triple.pure (Q := fun _ c => ∃ g,
        Reference.storeFp fp m.guest i.op0 (m.get 0) = some g
          ∧ At fp init junk { m with guest := g } [] c)
        fun _ h => h) fun _ => ?_
    refine triple_exists fun g hg => ?_
    rw [hg]
    exact popIf_reaches pops

/-- `fist`, `fistp` and `fisttp`. -/
theorem fist_triple (i : IRInstr) (pops truncate : Bool) :
    Triple (At fp init junk m []) (Build.fist i pops truncate)
      (Reaches fp init junk
        (Reference.fist fp pops (storeRcOf truncate m) i m))
      (Fails fp init junk m) := by
  unfold Build.fist Reference.fist
  refine Triple.bind (resolve_fails _) fun a => ?_
  refine Triple.bind (intStore_triple _ (List.mem_cons_self ..) truncate)
    fun _ => ?_
  refine triple_exists fun g hg => ?_
  rw [hg]
  exact popIf_reaches pops

-- ======================================================== comparisons

/-- A node that writes the condition codes. -/
theorem cc_triple {n : Node} (cc : BitVec 16) (hn : Fresh n)
    (hop : ∀ c, At fp init junk m vs c →
      execOp fp init c.numNodes n (body fp init junk c)
        = { body fp init junk c with
            guest := (body fp init junk c).guest.setCC cc }) :
    Triple (At fp init junk m vs) (addNode n)
      (fun _ => At fp init junk (m.setCC cc) vs)
      (Fails fp init junk m) :=
  (effect_triple (g := (m.setCC cc).guest) hn
    (fun c => (body fp init junk c).guest.setCC cc) hop
    (fun _ hc => (topOf_withCC _ _).trans hc.1.entry)
    fun _ hc => hc.1.setCC rfl cc).failTo fun _ h => h.fails

/-- Pops of the builder are pops of the machine. -/
theorem Sim.pops (h : Sim fp init junk c m) (n : Nat) :
    Sim fp init junk (Build.pops n c) (X87.pop^[n] m) := by
  unfold Build.pops
  induction n generalizing c m with
  | zero => exact h
  | succ n ih => exact ih h.pop

/-- Only the builder's bookkeeping changes. -/
theorem Sim.lastFcmp (h : Sim fp init junk c m) (id : Int) :
    Sim fp init junk { c with lastFcmp := id } m :=
  ⟨h.fresh, h.slot, h.cached, h.entry, h.guest⟩

/-- The same for the comparison that sets the flags. -/
theorem Sim.lastFcomi (h : Sim fp init junk c m) (id : Int) :
    Sim fp init junk { c with lastFcomi := id } m :=
  ⟨h.fresh, h.slot, h.cached, h.entry, h.guest⟩

/-- The comparison node and the pops after it. -/
theorem compare_triple {a b : Nat} {vb : V} (ha : (a, m.get 0) ∈ vs)
    (hb : (b, vb) ∈ vs) (n : Nat) :
    Triple (At fp init junk m vs) (Build.compare a b n)
      (Reaches fp init junk (some (Reference.compare fp n vb m)))
      (Fails fp init junk m) := by
  unfold Build.compare Reference.compare
  refine Triple.bind (cc_triple (fp.cmp (m.get 0) vb).cc
    ⟨rfl, rfl, rfl, rfl⟩ fun c hc => ?_) fun id => ?_
  · rw [← hc.val ha, ← hc.val hb]
    rfl
  · exact Triple.modify fun c hc =>
      ⟨_, rfl, (hc.1.lastFcmp id).pops n⟩

/-- `fcom` and `fcomp`, with a register or memory. -/
theorem fcom_triple (i : IRInstr) (n : Nat) :
    Triple (At fp init junk m []) (Build.fcom i n false)
      (Reaches fp init junk ((Reference.stOrMem fp m i.op1).map
        fun x => Reference.compare fp n x m))
      (Fails fp init junk m) := by
  unfold Build.fcom Reference.stOrMem
  refine Triple.bind (resolve_fails _) fun a => ?_
  simp only [Bool.false_eq_true, if_false]
  split
  · refine Triple.bind (resolve_fails _) fun b => ?_
    exact compare_triple
      (List.mem_cons_of_mem _ (List.mem_cons_self ..))
      (List.mem_cons_self ..) n
  · refine Triple.bind (fpLoad_triple _) fun b => ?_
    refine triple_exists fun v hv => ?_
    rw [hv]
    exact compare_triple
      (List.mem_cons_of_mem _ (List.mem_cons_self ..))
      (List.mem_cons_self ..) n

/-- `fcompp` compares with `ST(1)` and pops both. -/
theorem fcompp_triple (i : IRInstr) (n : Nat) :
    Triple (At fp init junk m []) (Build.fcom i n true)
      (Reaches fp init junk
        (some (Reference.compare fp n (m.get 1) m)))
      (Fails fp init junk m) := by
  unfold Build.fcom
  refine Triple.bind (resolve_fails _) fun a => ?_
  simp only [if_true]
  refine Triple.bind (resolve_fails _) fun b => ?_
  exact compare_triple (List.mem_cons_of_mem _ (List.mem_cons_self ..))
    (List.mem_cons_self ..) n

/-- `ficom` and `ficomp`. -/
theorem ficom_triple (i : IRInstr) (pops : Bool) :
    Triple (At fp init junk m []) (Build.ficom i pops)
      (Reaches fp init junk ((Reference.memInt fp m.guest i.op0).map
        fun x => Reference.compare fp (if pops then 1 else 0) x m))
      (Fails fp init junk m) := by
  unfold Build.ficom
  refine Triple.bind (resolve_fails _) fun a => ?_
  refine Triple.bind (intLoad_triple _) fun b => ?_
  refine triple_exists fun v hv => ?_
  rw [hv]
  exact compare_triple (List.mem_cons_of_mem _ (List.mem_cons_self ..))
    (List.mem_cons_self ..) _

/-- `ftst` compares with zero. -/
theorem ftst_triple :
    Triple (At fp init junk m []) Build.ftst
      (Reaches fp init junk (some (Reference.compare fp 0 fp.zero m)))
      (Fails fp init junk m) := by
  unfold Build.ftst Reference.compare
  refine Triple.bind (resolve_fails _) fun a => ?_
  refine Triple.bind (cc_triple (fp.cmp (m.get 0) fp.zero).cc
    ⟨rfl, rfl, rfl, rfl⟩ fun c hc => ?_) fun id => ?_
  · rw [← hc.val (List.mem_cons_self ..)]
    rfl
  · exact Triple.modify fun c hc => ⟨_, rfl, hc.1.lastFcmp id⟩

/-- `fcomi` and its forms leave their result in the flags. -/
theorem fcomi_triple (i : IRInstr) (pops : Bool) :
    Triple (At fp init junk m []) (Build.fcomi i pops)
      (Reaches fp init junk (Reference.fcomi fp pops i m))
      (Fails fp init junk m) := by
  unfold Build.fcomi Reference.fcomi
  refine Triple.bind (resolve_fails _) fun a => ?_
  refine Triple.bind (resolve_fails _) fun b => ?_
  refine Triple.bind (write_triple (fun g => { g with
    flags := (fp.cmp (m.get 0) (m.get i.op1.index)).flags })
    ⟨rfl, rfl, rfl, rfl⟩ (fun _ _ => rfl) fun c hc => ?_) fun id => ?_
  · rw [← hc.val (List.mem_cons_of_mem _ (List.mem_cons_self ..)),
      ← hc.val (List.mem_cons_self ..)]
    rfl
  · refine Triple.modify fun c hc => ?_
    have h := hc.1.lastFcomi id
    cases pops with
    | true => exact ⟨_, rfl, h.pops 1⟩
    | false => exact ⟨_, rfl, h⟩

/-- A fact about the machine in front of a precondition. -/
theorem triple_pure {α : Type} {r : Prop} {P : Context → Prop}
    {op : BuildM α} {Q : α → Context → Prop} {F : Context → Prop}
    (h : r → Triple P op Q F) : Triple (fun c => r ∧ P c) op Q F := by
  rintro c ⟨hr, hc⟩
  exact h hr c hc

/-- `fcmov`. A move that is not taken leaves a node that holds what the
register holds. -/
theorem fcmov_triple (i : IRInstr) (cond : Nat) (holds : Flags → Bool)
    (hcond : ∀ f, condHolds f (BitVec.ofNat 64 cond).toNat = holds f) :
    Triple (At fp init junk m []) (Build.fcmov i cond)
      (Reaches fp init junk (Reference.fcmov holds i m))
      (Fails fp init junk m) := by
  unfold Build.fcmov Reference.fcmov
  refine Triple.bind (Q := fun _ => At fp init junk m [])
    (Triple.get fun _ h => h) fun s => ?_
  split
  · exact Triple.fail fun _ h => h.fails
  refine Triple.bind (resolve_fails _) fun a => ?_
  refine Triple.bind (resolve_fails _) fun b => ?_
  refine Triple.bind ((value_triple
    (v := if holds m.guest.flags then m.get i.op1.index else m.get 0)
    (fun x => if holds x.guest.flags then x.val b else x.val a)
    ⟨rfl, rfl, rfl, rfl⟩ (fun _ x => by rw [← hcond]; rfl)
    fun c hc => ?_).failTo fun _ h => h.fails) fun id => ?_
  · rw [hc.val (List.mem_cons_of_mem _ (List.mem_cons_self ..)),
      hc.val (List.mem_cons_self ..), hc.1.guest]
  · by_cases htaken : holds m.guest.flags = true
    · rw [if_pos htaken, if_pos htaken]
      exact (setSlot_triple 0 (List.mem_cons_self ..)).conseq
        (fun _ h => h) (fun _ _ h => h.reaches) (fun _ h => h)
    · rw [if_neg htaken, if_neg htaken]
      refine Triple.modify fun c hc => ⟨_, rfl, ?_⟩
      obtain ⟨hid, hv⟩ := hc.2 _ (List.mem_cons_self ..)
      rw [setSlot_of_lt (by omega)]
      exact hc.1.slotTo (by omega) hid hv

-- ================================================= guest instructions

/-- An instruction that is one node acting on the guest. -/
theorem node_reaches {n : Node} (act : Guest → Guest) (hn : Fresh n)
    (hact : ∀ g sw, act { g with sw } = { act g with sw })
    (hop : ∀ id x, execOp fp init id n x
      = { x with guest := act x.guest }) :
    Triple (At fp init junk m vs) (Build.bridgeNode n)
      (Reaches fp init junk (some { m with guest := act m.guest }))
      (Fails fp init junk m) :=
  Triple.bind (write_triple act hn hact fun _ _ => hop _ _)
    fun _ => Triple.pure fun _ h => h.reaches

/-- `fnstsw ax`. The TOP that lowering patches in is the machine's. -/
theorem fstsw_triple (i : IRInstr) :
    Triple (At fp init junk m []) (Build.fstsw i)
      (Reaches fp init junk (Reference.fnstsw i m))
      (Fails fp init junk m) := by
  unfold Build.fstsw Reference.fnstsw
  by_cases hk : i.op0.kind = .register
  case neg =>
    simp only [ne_eq, hk, not_false_eq_true, if_true]
    exact Triple.fail fun _ h => h.fails
  simp only [ne_eq, hk, not_true_eq_false, if_false, if_true]
  refine Triple.bind (Q := fun s c =>
    m.top = init.top + BitVec.ofInt 3 s.topDelta
      ∧ At fp init junk m [] c)
    (Triple.get fun c h => ⟨h.1.top, h⟩) fun s => ?_
  refine triple_pure fun htop => ?_
  refine Triple.bind (write_triple
    (fun g => g.setReg16 i.op0.index m.guest.sw)
    ⟨rfl, rfl, rfl, rfl⟩ (fun _ _ => rfl) fun c hc => ?_)
    fun _ => Triple.pure fun _ h => h.reaches
  have hsw : statusWord init.top s.topDelta
      (body fp init junk c).guest.sw = m.guest.sw := by
    rw [statusWord_eq hc.1.entry, ← htop, hc.1.top, hc.1.guest]
  rw [← hsw]
  rfl

/-- `fldcw` takes the control word from memory. -/
theorem fldcw_triple (i : IRInstr) :
    Triple (At fp init junk m []) (Build.controlWord i .StoreCW)
      (Reaches fp init junk (some (Reference.fldcw i m)))
      (Fails fp init junk m) :=
  node_reaches (fun g => g.setControlWord (g.read i.op0 2))
    ⟨rfl, rfl, rfl, rfl⟩ (fun _ _ => rfl) fun _ _ => rfl

/-- `fnstcw` puts it there. -/
theorem fnstcw_triple (i : IRInstr) :
    Triple (At fp init junk m []) (Build.controlWord i .LoadCW)
      (Reaches fp init junk (some (Reference.fnstcw i m)))
      (Fails fp init junk m) :=
  node_reaches (fun g => g.write i.op0 2 g.cw)
    ⟨rfl, rfl, rfl, rfl⟩ (fun _ _ => rfl) fun _ _ => rfl

end BuildSim

end X87Sidecar
