/-
A whole run: the builder's Context denotes what the reference machine
does with the instructions the builder consumed.

The integer instructions and the switch complete the step lemma, which
holds for every instruction, `fxch` under the condition that both of its
slots resolve. The run lemma follows by induction over the instructions.
-/
import X87Sidecar.Proofs.Build.Steps
import X87Sidecar.Proofs.Build.Wf

namespace X87Sidecar

open Lib Lib.Keep Context Denote

namespace Build

-- ================================================ what a run goes through

/-- The stack registers an instruction moves from without computing:
those of `fxch`, `fld st(i)` and `fst st(i)`. -/
def moved (i : IRInstr) : List Nat :=
  match i.opcode with
  | .fxch => [0, i.op1.index]
  | .fld => if i.op0.kind = .register then [i.op1.index] else []
  | .fst | .fst_stack | .fstp | .fstp_stack =>
      if i.op0.kind = .register then [0] else []
  | _ => []

/-- Every one of the registers resolves to a node. -/
def allResolve : List Nat → Context → Bool
  | [], _ => true
  | d :: ds, c =>
      match resolve d c with
      | (some _, c') => allResolve ds c'
      | (none, _) => false

/-- A turn of the loop: the instruction, the Context it was met in, and
whether it was consumed. -/
structure Turn where
  instr : IRInstr
  before : Context
  consumed : Bool

/-- The turns the loop makes. -/
def turns (mode : BridgeMode) (k : Nat) :
    List IRInstr → Context → List Turn
  | [], _ => []
  | i :: rest, c =>
      match turn mode k i c with
      | (true, c') => ⟨i, c, true⟩ :: turns mode (k + 1) rest c'
      | (false, _) => [⟨i, c, false⟩]

/-- A well formed `fxch` finds both of its registers resolvable. -/
def FxchResolves (i : IRInstr) (c : Context) : Prop :=
  i.opcode = .fxch → i.hasSegmentOverride = false → 0 < i.op1.index →
    i.op1.index < 8 → allResolve (moved i) c = true

/-- Every `fxch` that `build` meets finds both of its registers
resolvable: each slot already is a node, or is an unread initial register
for which the node table has room. -/
def FxchsResolve (mode : BridgeMode) (run : List IRInstr) : Prop :=
  ∀ t ∈ turns mode 0 run Context.init, FxchResolves t.instr t.before

/-- A Context's meaning and a machine state are the same: registers,
memory, control word and flags, the effects in order, TOP, and every
stack slot that has not been popped. -/
structure Agrees {V : Type} (r : Denotation V) (m : X87 V) : Prop where
  regs : r.guest.regs = m.guest.regs
  mem : r.guest.mem = m.guest.mem
  cw : r.guest.cw = m.guest.cw
  flags : r.guest.flags = m.guest.flags
  trace : r.guest.trace = m.guest.trace
  top : topOf r.guest.sw = m.top
  stack : ∀ d v, r.slot d = some v → m.get d = v
  popped : ∀ d, r.slot d = none → m.isEmpty d = true

/-- `build` equals the reference machine on one run: what the Context
denotes is what the machine does with the consumed instructions, a marker
still in a slot is the marker of the register that slot names, and no
register was moved unresolved by an instruction that was consumed. -/
structure Correct (mode : BridgeMode) (run : List IRInstr) : Prop where
  denotes : ∀ {V : Type} (fp : Fp V) (init : X87 V) (junk : Nat → V),
    ∃ m, Reference.run fp (run.take (build mode run).consumed) init
        = some m
      ∧ Agrees (denote fp init junk (build mode run)) m
  home : ∀ d i, (build mode run).slotVal d = .initial i →
    (i : Int) = d + (build mode run).topDelta
  resolved : ∀ t ∈ turns mode 0 run Context.init, t.consumed = true →
    allResolve (moved t.instr) t.before = true

end Build

namespace BuildSim

variable {V : Type} {fp : Fp V} {init : X87 V} {junk : Nat → V}
variable {c : Context} {m : X87 V} {vs : List (Nat × V)}

-- ================================================ integer instructions

theorem bridgeMov_triple (i : IRInstr) :
    Triple (At fp init junk m []) (Build.bridgeMov i.op0 i.op1)
      (Reaches fp init junk
        (Reference.onGuest (Reference.integer (fun _ x => x) i) m))
      (Fails fp init junk m) := by
  unfold Build.bridgeMov Reference.onGuest Reference.integer
  by_cases h0 : i.op0.kind = .register
  · simp only [if_pos h0]
    cases h1 : i.op1.kind with
    | register =>
        simp only [Reference.intSource, h1, Option.map_some]
        exact node_reaches (fun g => g.setReg i.op0.index
            (truncReg (Reference.is64 i.op0) (g.regs i.op1.index)))
          ⟨rfl, rfl, rfl, rfl⟩ (fun _ _ => rfl) fun _ _ => by
            simp [execOp, Build.widthFlag, Reference.is64]
    | branchOffset =>
        simp only [Reference.intSource, h1, Option.map_some]
        exact node_reaches (fun g => g.setReg i.op0.index
            (truncReg (Reference.is64 i.op0) i.op1.value))
          ⟨rfl, rfl, rfl, rfl⟩ (fun _ _ => rfl) fun _ _ => by
            simp [execOp, Build.widthFlag, Reference.is64]
    | memRef =>
        simp only [Reference.intSource, h1, Option.map_some]
        exact node_reaches (fun g => g.setReg i.op0.index
            (truncReg (Reference.is64 i.op0)
              (g.readInt i.op1 (Reference.is64 i.op0))))
          ⟨rfl, rfl, rfl, rfl⟩ (fun _ _ => rfl) fun _ _ => by
            simp [execOp, Build.widthFlag, Reference.is64, Node.mem]
    | _ => exact Triple.fail fun _ h => h.fails
  · simp only [if_neg h0]
    split
    · exact node_reaches (fun g => g.writeInt i.op0
          (Reference.is64 i.op1) (g.regs i.op1.index))
        ⟨rfl, rfl, rfl, rfl⟩ (fun _ _ => rfl) fun _ _ => by
          simp [execOp, Build.widthFlag, Reference.is64, Node.mem]
    · exact Triple.fail fun _ h => h.fails

/-- The selector survives its encoding. -/
theorem aluKind_ofNat (k : AluKind) :
    AluKind.ofNat? k.toNat = some k := by
  cases k <;> rfl

theorem bridgeAlu_triple (i : IRInstr) (k : AluKind) :
    Triple (At fp init junk m []) (Build.bridgeAlu k i.op0 i.op1)
      (Reaches fp init junk
        (Reference.onGuest (Reference.integer k.eval i) m))
      (Fails fp init junk m) := by
  unfold Build.bridgeAlu Reference.onGuest Reference.integer
  by_cases h0 : i.op0.kind = .register
  · simp only [if_pos h0]
    cases h1 : i.op1.kind with
    | register =>
        simp only [Reference.intSource, h1, Option.map_some]
        exact node_reaches (fun g => g.setReg i.op0.index
            (truncReg (Reference.is64 i.op0)
              (k.eval (g.regs i.op0.index) (g.regs i.op1.index))))
          ⟨rfl, rfl, rfl, rfl⟩ (fun _ _ => rfl) fun _ _ => by
            simp [execOp, Build.widthFlag, Reference.is64,
              aluOf, aluKind_ofNat]
    | branchOffset =>
        simp only [Reference.intSource, h1, Option.map_some]
        exact node_reaches (fun g => g.setReg i.op0.index
            (truncReg (Reference.is64 i.op0)
              (k.eval (g.regs i.op0.index) i.op1.value)))
          ⟨rfl, rfl, rfl, rfl⟩ (fun _ _ => rfl) fun _ _ => by
            simp [execOp, Build.widthFlag, Reference.is64,
              aluOf, aluKind_ofNat]
    | memRef =>
        simp only [Reference.intSource, h1, Option.map_some]
        exact node_reaches (fun g => g.setReg i.op0.index
            (truncReg (Reference.is64 i.op0)
              (k.eval (g.regs i.op0.index)
                (g.readInt i.op1 (Reference.is64 i.op0)))))
          ⟨rfl, rfl, rfl, rfl⟩ (fun _ _ => rfl) fun _ _ => by
            simp [execOp, Build.widthFlag, Reference.is64, Node.mem,
              aluOf, aluKind_ofNat]
    | _ => exact Triple.fail fun _ h => h.fails
  · simp only [if_neg h0]
    split
    · exact node_reaches (fun g => g.writeInt i.op0
          (Reference.is64 i.op1)
          (k.eval (g.readInt i.op0 (Reference.is64 i.op1))
            (g.regs i.op1.index)))
        ⟨rfl, rfl, rfl, rfl⟩ (fun _ _ => rfl) fun _ _ => by
          simp [execOp, Build.widthFlag, Reference.is64, Node.mem,
            aluOf, aluKind_ofNat]
    · exact Triple.fail fun _ h => h.fails

/-- The class, the shift and the width of a narrow source agree with the
operand's size. -/
theorem extSource_eq (signed : Bool) (g : Guest) (op : IROperand) :
    extSource g
      (BitVec.ofNat 64 (Build.extClass op + if signed then 4 else 0))
      op.index = Reference.narrow signed g op := by
  unfold extSource Reference.narrow Reference.narrowLsb
    Reference.narrowWidth Build.extClass
  cases op.size <;> cases signed <;>
    by_cases hh : op.reg &&& 0xF0 = 0x10 <;>
    simp only [hh, and_true, and_false, reduceCtorEq, if_true, if_false,
      Bool.false_eq_true] <;> rfl

theorem bridgeExt_triple (i : IRInstr) (signed : Bool) :
    Triple (At fp init junk m []) (Build.bridgeExt i.op0 i.op1 signed)
      (Reaches fp init junk
        (Reference.onGuest
          (fun g => some (Reference.extend signed i g)) m))
      (Fails fp init junk m) := by
  unfold Build.bridgeExt Reference.onGuest
  refine node_reaches (Reference.extend signed i) ⟨rfl, rfl, rfl, rfl⟩
    (fun _ _ => rfl) fun _ x => ?_
  simp only [execOp, bridgeDecodeReg_encode, extSource_eq]
  rfl

theorem bridge_triple (i : IRInstr) :
    Triple (At fp init junk m []) (Build.bridge i)
      (Reaches fp init junk (Reference.stepOp fp i m))
      (Fails fp init junk m) := by
  unfold Build.bridge
  split
  case h_1 h =>
    simp only [Reference.stepOp, h]
    exact Triple.pure fun _ h => h.reaches
  case h_2 h =>
    simp only [Reference.stepOp, h]
    exact bridgeMov_triple i
  case h_3 h =>
    simp only [Reference.stepOp, h]
    exact node_reaches (Reference.lea i) ⟨rfl, rfl, rfl, rfl⟩
      (fun _ _ => rfl) fun _ _ => by
        simp [execOp, Build.widthFlag, Reference.lea, Reference.is64,
          Node.mem]
  case h_4 h =>
    simp only [Reference.stepOp, h]
    exact bridgeExt_triple i false
  case h_5 h =>
    simp only [Reference.stepOp, h]
    exact bridgeExt_triple i true
  case h_6 h =>
    simp only [Reference.stepOp, h]
    exact bridgeExt_triple i true
  case h_7 h =>
    simp only [Reference.stepOp, h]
    exact node_reaches (Reference.step1 AluKind.add.eval i)
      ⟨rfl, rfl, rfl, rfl⟩ (fun _ _ => rfl) fun _ _ => by
        simp [execOp, Build.widthFlag, Reference.step1, Reference.is64,
          aluOf, aluKind_ofNat]
  case h_8 h =>
    simp only [Reference.stepOp, h]
    exact node_reaches (Reference.step1 AluKind.sub.eval i)
      ⟨rfl, rfl, rfl, rfl⟩ (fun _ _ => rfl) fun _ _ => by
        simp [execOp, Build.widthFlag, Reference.step1, Reference.is64,
          aluOf, aluKind_ofNat]
  case h_9 =>
    split
    · next k hk =>
      have href : Reference.stepOp fp i m
          = Reference.onGuest (Reference.integer k.eval i) m := by
        unfold Build.aluKind at hk
        split at hk <;> cases hk <;> simp only [Reference.stepOp, *]
      rw [href]
      exact bridgeAlu_triple i k
    · exact Triple.fail fun _ h => h.fails

theorem Sim.failOpcode (h : Sim fp init junk c m) (op : Option Opcode) :
    Sim fp init junk { c with failOpcode := op } m :=
  ⟨h.fresh, h.slot, h.cached, h.entry, h.guest⟩

theorem otherwise_triple (mode : Build.BridgeMode) (i : IRInstr) :
    Triple (At fp init junk m []) (Build.otherwise mode i)
      (Reaches fp init junk (Reference.stepOp fp i m))
      (Fails fp init junk m) := by
  unfold Build.otherwise
  split
  · exact bridge_triple i
  · exact Triple.bind (Triple.modify fun _ h => h.1.failOpcode _)
      fun _ => Triple.fail fun _ h => .inl h

-- ========================================================== exchange

/-- Both slots are nodes, so exchanging them symbolically is exchanging
the registers. -/
theorem Sim.exchange (h : Sim fp init junk c m) {d : Nat}
    (hd : d < 8) {a b : Nat} (ha : c.slotVal 0 = .node a)
    (hb : c.slotVal ⟨d, hd⟩ = .node b) :
    Sim fp init junk { c with
      slotVal := Function.update
        (Function.update c.slotVal 0 (c.slotVal ⟨d, hd⟩)) ⟨d, hd⟩
        (c.slotVal 0) } (m.exchange d) := by
  have hslot0 := h.slot 0
  have hslotd := h.slot ⟨d, hd⟩
  rw [ha] at hslot0
  rw [hb] at hslotd
  refine ⟨h.fresh, fun e => ?_, h.cached, h.entry, h.guest⟩
  show SlotOk init (body fp init junk c) c.numNodes c.topDelta
    (m.exchange d) e (Function.update
      (Function.update c.slotVal 0 (c.slotVal ⟨d, hd⟩)) ⟨d, hd⟩
      (c.slotVal 0) e)
  have hget := X87.get_exchange m hd e.isLt
  by_cases hed : e = ⟨d, hd⟩
  · subst hed
    rw [Function.update_self, ha]
    rw [if_pos rfl] at hget
    exact ⟨hslot0.1, hslot0.2.trans hget.symm⟩
  · have hed' : e.val ≠ d := fun hv => hed (Fin.ext hv)
    rw [Function.update_of_ne hed]
    rw [if_neg hed'] at hget
    by_cases he0 : e = 0
    · subst he0
      rw [Function.update_self, hb]
      exact ⟨hslotd.1, hslotd.2.trans hget.symm⟩
    · have he0' : e.val ≠ 0 := fun hv => he0 (Fin.ext hv)
      rw [Function.update_of_ne he0]
      rw [if_neg he0'] at hget
      refine (h.slot e).mono hget fun hemp => ?_
      rw [X87.isEmpty_exchange m hd e.isLt he0' hed']
      exact hemp

-- ======================================================== the switch

/-- The switch of `build`, but for `fxch`. -/
theorem instr_triple (mode : Build.BridgeMode) (i : IRInstr)
    (hne : i.opcode ≠ .fxch) :
    Triple (At fp init junk m []) (Build.instr mode i)
      (Reaches fp init junk (Reference.stepOp fp i m))
      (Fails fp init junk m) := by
  have hother : Triple (At fp init junk m []) (Build.otherwise mode i)
      (Reaches fp init junk (Reference.stepOp fp i m))
      (Fails fp init junk m) := otherwise_triple mode i
  unfold Build.instr
  unfold Reference.stepOp at hother ⊢
  generalize hop : i.opcode = op at hother hne ⊢
  have hval : ∀ (n : Node) (v : V) (_ : Fresh n)
      (_ : ∀ id x, execOp fp init id n x = x.assign id v),
      Triple (At fp init junk m []) (Build.pushNode n)
        (Reaches fp init junk (some (m.push v)))
        (Fails fp init junk m) := fun n v hn h => pushNode_triple v hn h
  have hfresh : ∀ (op : Op) (bits : BitVec 64),
      Fresh { op, immBits := bits } := fun _ _ => ⟨rfl, rfl, rfl, rfl⟩
  cases op with
  | fldz => exact hval _ _ (hfresh _ _) fun _ _ => rfl
  | fld1 => exact hval _ _ (hfresh _ _) fun _ _ => rfl
  | fldl2e => exact hval _ _ (hfresh _ _) fun _ _ => rfl
  | fldl2t => exact hval _ _ (hfresh _ _) fun _ _ => rfl
  | fldlg2 => exact hval _ _ (hfresh _ _) fun _ _ => rfl
  | fldln2 => exact hval _ _ (hfresh _ _) fun _ _ => rfl
  | fldpi => exact hval _ _ (hfresh _ _) fun _ _ => rfl
  | fld => exact fld_triple i
  | fild => exact fild_triple i
  | fst => exact fst_triple i false
  | fst_stack => exact fst_triple i false
  | fstp => exact fst_triple i true
  | fstp_stack => exact fst_triple i true
  | fist => exact fist_triple i false false
  | fistp => exact fist_triple i true false
  | fisttp => exact fist_triple i true true
  | fadd => exact arith_triple (fun _ _ _ _ => rfl) false i
  | fsub => exact arith_triple (fun _ _ _ _ => rfl) false i
  | fsubr => exact arith_triple (f := fp.sub) (fun _ _ _ _ => rfl) true i
  | fmul => exact arith_triple (fun _ _ _ _ => rfl) false i
  | fdiv => exact arith_triple (fun _ _ _ _ => rfl) false i
  | fdivr => exact arith_triple (f := fp.div) (fun _ _ _ _ => rfl) true i
  | fiadd => exact iarith_triple (fun _ _ _ _ => rfl) false i
  | fisub => exact iarith_triple (fun _ _ _ _ => rfl) false i
  | fisubr =>
      exact iarith_triple (f := fp.sub) (fun _ _ _ _ => rfl) true i
  | fimul => exact iarith_triple (fun _ _ _ _ => rfl) false i
  | fidiv => exact iarith_triple (fun _ _ _ _ => rfl) false i
  | fidivr =>
      exact iarith_triple (f := fp.div) (fun _ _ _ _ => rfl) true i
  | faddp => exact arithp_triple (fun _ _ _ _ => rfl) false i
  | fsubp => exact arithp_triple (fun _ _ _ _ => rfl) false i
  | fsubrp =>
      exact arithp_triple (f := fp.sub) (fun _ _ _ _ => rfl) true i
  | fmulp => exact arithp_triple (fun _ _ _ _ => rfl) false i
  | fdivp => exact arithp_triple (fun _ _ _ _ => rfl) false i
  | fdivrp =>
      exact arithp_triple (f := fp.div) (fun _ _ _ _ => rfl) true i
  | fchs => exact unary_triple (fun _ => fp.neg) fun _ _ _ => rfl
  | fabs => exact unary_triple (fun _ => fp.abs) fun _ _ _ => rfl
  | fsqrt => exact unary_triple (fun _ => fp.sqrt) fun _ _ _ => rfl
  | frndint => exact unary_triple fp.rndint fun _ _ _ => rfl
  | fsin => exact unaryTrig_triple fun _ _ _ => rfl
  | fcos => exact unaryTrig_triple fun _ _ _ => rfl
  | fsincos => exact sincos_triple
  | fptan => exact ptan_triple
  | fpatan => exact binaryPop_triple fun _ _ _ _ => rfl
  | fyl2x => exact binaryPop_triple fun _ _ _ _ => rfl
  | fscale => exact scale_triple
  | fxch => exact absurd rfl hne
  | fcom => exact fcom_triple i 0
  | fucom => exact fcom_triple i 0
  | fcomp => exact fcom_triple i 1
  | fucomp => exact fcom_triple i 1
  | fcompp => exact fcompp_triple i 2
  | fucompp => exact fcompp_triple i 2
  | ficom => exact ficom_triple i false
  | ficomp => exact ficom_triple i true
  | ftst => exact ftst_triple
  | fcomi => exact fcomi_triple i false
  | fucomi => exact fcomi_triple i false
  | fcomip => exact fcomi_triple i true
  | fucomip => exact fcomi_triple i true
  | fcmovb => exact fcmov_triple i 3 _ fun _ => rfl
  | fcmovbe => exact fcmov_triple i 9 _ fun _ => rfl
  | fcmove => exact fcmov_triple i 0 _ fun _ => rfl
  | fcmovnb => exact fcmov_triple i 2 _ fun _ => rfl
  | fcmovnbe => exact fcmov_triple i 8 _ fun _ => rfl
  | fcmovne => exact fcmov_triple i 1 _ fun _ => rfl
  | fcmovu => exact fcmov_triple i kFcmovCondPF _ fun _ => rfl
  | fcmovnu => exact fcmov_triple i kFcmovCondNPF _ fun _ => rfl
  | fstsw => exact fstsw_triple i
  | fldcw => exact fldcw_triple i
  | fnstcw => exact fnstcw_triple i
  | fnop => exact Triple.pure fun _ h => h.reaches
  | _ => exact hother

/-- `fxch`, when both of its registers resolve. -/
theorem fxch_sim {i : IRInstr} (h : Sim fp init junk c m)
    (h0 : 0 < i.op1.index) (h8 : i.op1.index < 8)
    (hr : Build.allResolve [0, i.op1.index] c = true) :
    ∃ c', Build.fxch i c = (some (), c')
      ∧ Sim fp init junk c' (m.exchange i.op1.index) := by
  obtain ⟨a, c₁, h₁⟩ : ∃ a c₁, resolve 0 c = (some a, c₁) := by
    rcases hres : resolve 0 c with ⟨o, c₁⟩
    cases o with
    | some a => exact ⟨a, c₁, rfl⟩
    | none => simp [Build.allResolve, hres] at hr
  obtain ⟨b, c₂, h₂⟩ :
      ∃ b c₂, resolve i.op1.index c₁ = (some b, c₂) := by
    rcases hres : resolve i.op1.index c₁ with ⟨o, c₂⟩
    cases o with
    | some b => exact ⟨b, c₂, rfl⟩
    | none => simp [Build.allResolve, h₁, hres] at hr
  have hat₁ := Triple.of_some (resolve_triple 0)
    (P := At fp init junk m []) ⟨h, by simp⟩ h₁
  have hat₂ := Triple.of_some (resolve_triple i.op1.index) hat₁ h₂
  have hslot0 : c₂.slotVal 0 = .node a :=
    (slotVal_resolve_of_ne h₂ (e := 0) (Nat.ne_of_lt h0)).trans
      (slotVal_resolve (by omega) h₁)
  have hslotd : c₂.slotVal ⟨i.op1.index, h8⟩ = .node b :=
    slotVal_resolve h8 h₂
  refine ⟨_, ?_, hat₂.1.exchange h8 hslot0 hslotd⟩
  have hfin : Fin.ofNat 8 i.op1.index = ⟨i.op1.index, h8⟩ :=
    Fin.ext (Nat.mod_eq_of_lt h8)
  unfold Build.fxch
  simp only [h0, h8, and_self, if_true, bind_apply, ignore_apply, h₁, h₂,
    modify_apply, hfin]

-- ============================================================ the loop

/-- The relation reads the nodes and the symbolic stack only. -/
theorem Sim.attribute {k k' : Nat} {before : Context}
    (h : Sim fp init junk c m) :
    Sim fp init junk
      { Build.attributeTo k before c with consumed := k' } m :=
  ⟨h.fresh, h.slot, h.cached, h.entry, h.guest⟩

theorem Fails.attribute {k : Nat} {before : Context}
    (h : Fails fp init junk m c) :
    Fails fp init junk m (Build.attributeTo k before c) :=
  h.imp (fun h => ⟨h.fresh, h.slot, h.cached, h.entry, h.guest⟩)
    fun h => ⟨h.fresh, h.slot, h.cached, h.entry, h.guest⟩

/-- One instruction, `fxch` included. -/
theorem instr_sim (mode : Build.BridgeMode) {i : IRInstr}
    (h : Sim fp init junk c m) (hseg : i.hasSegmentOverride = false)
    (hx : Build.FxchResolves i c) :
    Triple (· = c) (Build.instr mode i)
      (Reaches fp init junk (Reference.step fp i m))
      (Fails fp init junk m) := by
  intro s hs
  rw [show s = c from hs]
  have hstep : Reference.step fp i m = Reference.stepOp fp i m := by
    unfold Reference.step
    rw [if_neg (by simp [hseg])]
  rw [hstep]
  by_cases hop : i.opcode = .fxch
  · have hinstr : Build.instr mode i = Build.fxch i := by
      simp only [Build.instr, hop]
    have href : Reference.stepOp fp i m
        = some (m.exchange i.op1.index) := by
      simp only [Reference.stepOp, hop]
    rw [hinstr, href]
    by_cases hd : 0 < i.op1.index ∧ i.op1.index < 8
    · have hr := hx hop hseg hd.1 hd.2
      simp only [Build.moved, hop] at hr
      obtain ⟨c', hc', hsim⟩ := fxch_sim h hd.1 hd.2 hr
      rw [hc']
      exact ⟨_, rfl, hsim⟩
    · have hfail : Build.fxch i c = (none, c) := by
        unfold Build.fxch
        simp only [hd, if_false]
        rfl
      rw [hfail]
      exact .inl h
  · exact instr_triple mode i hop c ⟨h, by simp⟩

/-- One turn of the loop. -/
theorem turn_sim (mode : Build.BridgeMode) (k : Nat) {i : IRInstr}
    (h : Sim fp init junk c m)
    (hx : Build.FxchResolves i c) :
    match Build.turn mode k i c with
    | (true, c') => ∃ m', Reference.step fp i m = some m'
        ∧ Sim fp init junk c' m'
    | (false, c') => Fails fp init junk m c' := by
  unfold Build.turn
  by_cases hseg : i.hasSegmentOverride = true
  · rw [if_pos hseg]
    exact .inl (h.failOpcode _)
  · rw [if_neg hseg]
    have hi := instr_sim mode h (by simpa using hseg) hx
    rcases hr : Build.instr mode i c with ⟨o, c'⟩
    cases o with
    | none => exact (hi.of_none rfl hr).attribute
    | some u =>
        obtain ⟨m', hm', hsim⟩ := hi.of_some rfl hr
        exact ⟨m', hm', hsim.attribute⟩

/-- The rest of the loop: some of the instructions are consumed, and the
reference machine takes exactly those. -/
theorem loop_sim (mode : Build.BridgeMode) {run rest : List IRInstr}
    {k : Nat} (h : Sim fp init junk c m) (hof : BuildWf.OfRun run k c)
    (hrest : run.drop k = rest)
    (hx : ∀ t ∈ Build.turns mode k rest c,
      Build.FxchResolves t.instr t.before) :
    ∃ n m', (Build.loop mode k rest c).consumed = k + n
      ∧ Reference.run fp (rest.take n) m = some m'
      ∧ Fails fp init junk m' (Build.loop mode k rest c) := by
  induction rest generalizing k c m with
  | nil => exact ⟨0, m, hof.consumed, rfl, .inl h⟩
  | cons i rest ih =>
      have hi : run[k]? = some i := by
        rw [← List.head?_drop, hrest]
        rfl
      have hdrop : run.drop (k + 1) = rest := by
        rw [← List.drop_drop, hrest]
        rfl
      have hturn := hof.turn mode hi
      have hfx : Build.FxchResolves i c := by
        unfold Build.turns at hx
        split at hx
        · exact hx ⟨i, c, true⟩ (List.mem_cons_self ..)
        · exact hx ⟨i, c, false⟩ (List.mem_cons_self ..)
      have hsim := turn_sim mode k h hfx
      unfold Build.loop
      unfold Build.turns at hx
      rcases ht : Build.turn mode k i c with ⟨b, c'⟩
      rw [ht] at hturn hsim hx
      cases b with
      | false => exact ⟨0, m, hturn.consumed, rfl, hsim⟩
      | true =>
          obtain ⟨m₁, hm₁, hsim₁⟩ := hsim
          obtain ⟨n, m', hcons, hrun, hend⟩ := ih hsim₁ hturn hdrop
            fun t ht => hx t (List.mem_cons_of_mem _ ht)
          refine ⟨n + 1, m', by rw [hcons]; omega, ?_, hend⟩
          show Reference.run fp (i :: rest.take n) m = some m'
          unfold Reference.run at hrun ⊢
          rw [List.foldlM_cons, hm₁]
          exact hrun

-- ====================================================== the main result

/-- What the relation says of the Context's meaning. -/
theorem Sim.agrees (h : Sim fp init junk c m) :
    Build.Agrees (denote fp init junk c) m := by
  have hguest : (denote fp init junk c).guest = m.guest := by
    show epilogue init c (body fp init junk c) = m.guest
    unfold epilogue
    rw [statusWord_eq h.entry, h.guest]
  refine ⟨?_, ?_, ?_, ?_, ?_, ?_, fun d v hv => ?_, fun d hv => ?_⟩
  · rw [hguest]
  · rw [hguest]
  · rw [hguest]
  · rw [hguest]
  · rw [hguest]
  · rw [hguest]
    rfl
  · change Denote.slot init c (body fp init junk c) d = some v at hv
    have hslot := h.slot d
    unfold Denote.slot at hv
    cases hs : c.slotVal d with
    | node id =>
        simp only [hs, Option.some.injEq] at hv hslot
        exact hslot.2.symm.trans hv
    | initial i =>
        -- the marker is home, so the register it names is untouched
        simp only [hs, Option.some.injEq] at hv hslot
        rw [hslot.2, ← hv]
        unfold X87.get X87.phys
        congr 1
        rw [BitVec.add_assoc]
        congr 1
        have h1 : BitVec.ofInt 3 (i : Int)
            = BitVec.ofInt 3 ((d : Int) + c.topDelta) := by
          rw [hslot.1]
        rw [BitVec.ofInt_natCast, BitVec.ofInt_add,
          BitVec.ofInt_natCast] at h1
        rw [h1, BitVec.add_comm]
    | popped => simp [hs] at hv
  · change Denote.slot init c (body fp init junk c) d = none at hv
    have hslot := h.slot d
    unfold Denote.slot at hv
    cases hs : c.slotVal d with
    | node id => simp [hs] at hv
    | initial i => simp [hs] at hv
    | popped =>
        simp only [hs] at hslot
        exact hslot

theorem Fails.agrees (h : Fails fp init junk m c) :
    Build.Agrees (denote fp init junk c) m := by
  rcases h with h | h
  · exact h.agrees
  · have ha := h.agrees
    exact ⟨ha.regs, ha.mem, ha.cw, ha.flags, ha.trace,
      ha.top.trans (X87.top_setCC m 0),
      fun d v hv => (X87.get_setCC m 0 d).symm.trans (ha.stack d v hv),
      fun d hv => by
        have := ha.popped d hv
        unfold X87.isEmpty X87.phys at this ⊢
        rw [X87.top_setCC] at this
        exact this⟩

theorem Fails.home (h : Fails fp init junk m c) {d : Fin 8} {i : Nat}
    (hs : c.slotVal d = .initial i) : (i : Int) = d + c.topDelta := by
  rcases h with h | h <;>
  · have := h.slot d
    rw [hs] at this
    exact this.1

/-- An instruction other than `fxch` that is consumed has resolved the
registers it moves. -/
theorem moved_resolve {mode : Build.BridgeMode} {i : IRInstr}
    {c' : Context} (hne : i.opcode ≠ .fxch)
    (h : Build.instr mode i c = (some (), c')) :
    Build.allResolve (Build.moved i) c = true := by
  have hone : ∀ (d : Nat) (f : Nat → BuildM Unit),
      (resolve d >>= f) c = (some (), c') →
      Build.allResolve [d] c = true := by
    intro d f hf
    rw [bind_apply] at hf
    rcases hr : resolve d c with ⟨o, c₁⟩
    rw [hr] at hf
    cases o with
    | none => cases hf
    | some a => simp [Build.allResolve, hr]
  have hfst : ∀ pops, Build.fst i pops c = (some (), c') →
      Build.allResolve (if i.op0.kind = .register then [0] else []) c
        = true := by
    intro pops hf
    split
    · exact hone 0 _ hf
    · rfl
  unfold Build.instr at h
  unfold Build.moved
  generalize i.opcode = op at h hne ⊢
  cases op with
  | fld =>
      show Build.allResolve
        (if i.op0.kind = .register then [i.op1.index] else []) c = true
      change Build.fld i c = _ at h
      unfold Build.fld at h
      split
      · next hreg =>
        rw [if_pos hreg] at h
        exact hone _ _ h
      · rfl
  | fst | fst_stack | fstp | fstp_stack => exact hfst _ h
  | fxch => exact absurd rfl hne
  | _ => rfl

end BuildSim

namespace Build

/-- How a turn ended is what `turn` said. -/
theorem turns_consumed {mode : BridgeMode} {k : Nat}
    {run : List IRInstr} {c : Context} {t : Turn}
    (ht : t ∈ turns mode k run c) :
    ∃ k', (turn mode k' t.instr t.before).1 = t.consumed := by
  induction run generalizing k c with
  | nil => cases ht
  | cons i rest ih =>
      unfold turns at ht
      split at ht
      · next heq =>
        rcases List.mem_cons.mp ht with rfl | ht
        · exact ⟨k, by rw [heq]⟩
        · exact ih ht
      · next heq =>
        rw [List.mem_singleton.mp ht]
        exact ⟨k, by rw [heq]⟩

/-- A consumed instruction has resolved the registers it moves. -/
theorem resolved_of_turn {mode : BridgeMode} {k : Nat} {i : IRInstr}
    {c : Context} (hx : FxchResolves i c)
    (ht : (turn mode k i c).1 = true) :
    allResolve (moved i) c = true := by
  unfold turn at ht
  by_cases hseg : i.hasSegmentOverride = true
  · rw [if_pos hseg] at ht
    cases ht
  rw [if_neg hseg] at ht
  rcases hr : instr mode i c with ⟨o, c'⟩
  rw [hr] at ht
  cases o with
  | none => cases ht
  | some u =>
      by_cases hop : i.opcode = .fxch
      · by_cases hd : 0 < i.op1.index ∧ i.op1.index < 8
        · exact hx hop (by simpa using hseg) hd.1 hd.2
        · have hfail : instr mode i c = (none, c) := by
            simp only [instr, hop, fxch, hd, if_false]
            rfl
          rw [hfail] at hr
          cases hr
      · exact BuildSim.moved_resolve hop hr

/-- A well formed `fxch` is always consumed. -/
theorem fxch_consumed {mode : BridgeMode} {k : Nat} {i : IRInstr}
    (c : Context) (hop : i.opcode = .fxch)
    (hseg : i.hasSegmentOverride = false) (h0 : 0 < i.op1.index)
    (h8 : i.op1.index < 8) : (turn mode k i c).1 = true := by
  simp only [turn, hseg, Bool.false_eq_true, if_false, instr, hop, fxch,
    h0, h8, and_self, if_true, bind_apply, ignore_apply, modify_apply]

/-- `build` equals the reference machine on exactly the runs in which
every `fxch` it meets finds its registers resolvable. -/
theorem correct_iff (mode : BridgeMode) (run : List IRInstr) :
    Correct mode run ↔ FxchsResolve mode run := by
  constructor
  · intro h t ht hop hseg h0 h8
    obtain ⟨k', hk'⟩ := turns_consumed ht
    exact h.resolved t ht
      (hk'.symm.trans (fxch_consumed t.before hop hseg h0 h8))
  · intro hx
    have hloop := fun {V : Type} (fp : Fp V) (init : X87 V)
        (junk : Nat → V) =>
      BuildSim.loop_sim mode
        (show BuildSim.Sim fp init junk Context.init init from .start init)
        (BuildWf.OfRun.init run) (show run.drop 0 = run from rfl) hx
    refine ⟨fun fp init junk => ?_, fun d i hs => ?_, fun t ht hc => ?_⟩
    · obtain ⟨n, m, hn, hrun, hend⟩ := hloop fp init junk
      rw [Nat.zero_add] at hn
      refine ⟨m, ?_, hend.agrees⟩
      show Reference.run fp
        (run.take (loop mode 0 run Context.init).consumed) init = some m
      rw [hn]
      exact hrun
    · obtain ⟨n, m, -, -, hend⟩ := hloop Fp.blank
        ⟨Guest.blank, fun _ => (), fun _ => true⟩ fun _ => ()
      exact hend.home hs
    · obtain ⟨k', hk'⟩ := turns_consumed ht
      exact resolved_of_turn (hx t ht) (hk'.trans hc)

/-- Sixty-three additions from memory and a sign change fill the node
table, with `ST(1)` still unread when the exchange comes. -/
def fullTable : List IRInstr :=
  List.replicate 63
    { opcode := .fadd, numOperands := 1, op0 := .based .s32 0 0 } ++
  [{ opcode := .fchs, numOperands := 1, op0 := .st 0 },
   { opcode := .fxch, numOperands := 2, op0 := .st 0, op1 := .st 1 }]

/-- The exchange at the end is consumed, and leaves the marker of `ST(1)`
in the slot of `ST(0)`: the epilogue stores neither register and the
exchange is lost. -/
theorem not_correct_fullTable :
    (build {} fullTable).consumed = 65 ∧ ¬ Correct {} fullTable := by
  refine ⟨by decide +kernel, fun h => ?_⟩
  have hmark : (build {} fullTable).slotVal 0 = .initial 1 := by
    decide +kernel
  have htop : (build {} fullTable).topDelta = 0 := by decide +kernel
  have := h.home 0 1 hmark
  rw [htop] at this
  exact absurd this (by decide)

end Build

end X87Sidecar
