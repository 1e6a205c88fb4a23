/-
The rounding control kept in a register is the one in force.

Behind every node of a stretch the register holds the rounding control of
the control word in memory wherever `rc_cache_valid` says that it does
(`RcFrame.Kept`). So every node that rounds does so in the direction in
force when it is reached, although the control word is read once
(`nodes_round`).
-/
import X87Sidecar.Proofs.Translate.Fist
import X87Sidecar.Translate.RcCache

namespace X87Sidecar.Fist

open Lib Lib.Cpu Lines

variable {s : RcFrame} {n : RcNode} {valid : Bool} {c c' : Cpu}

-- ============================================================ one node

/-- The direction in which a node rounds. -/
def RcNode.direction (s : RcFrame) (n : RcNode) (c : Cpu) : Rounding :=
  modeOf (controlWord c s.Xbase) (n.how s false)

/-- What a node does: integer stores and `FRndInt` round in the direction
in force, `StoreCW` puts the word at the address in force. -/
def RcNode.Right (s : RcFrame) (valid : Bool) (n : RcNode) (c c' : Cpu) :
    Prop :=
  match n with
  | .storeInt _ size Wd_int Dd_val Xt Dscr address addr =>
      c'.mem = c.mem.store
        ((run (guarded (n.how s valid) size s.Xbase Wd_int Dd_val s.Wd_tmp
          Xt Dscr ++ address) c).reg addr) (2 ^ size.store_size)
        ((storedInt size.bits (n.direction s c) (c.d Dd_val)).setWidth _)
  | .frndint Dd Dn _ =>
      c'.d Dd = Double.roundIntegral (n.direction s c) (c.d Dn)
  | .storeCw _ address addr =>
      controlWord c' s.Xbase
        = (run address c).mem.load ((run address c).reg addr) 2
  | .other _ => True

/-- The registers that stay. -/
def RcFrame.fixed (s : RcFrame) : List Nat :=
  s.Xbase :: s.Wd_rc_cached.toList

/-- The registers of a node are different and its code is whole; what
computes an address writes no memory and nothing that is needed
afterwards. -/
def RcNode.Sound (s : RcFrame) : RcNode → Prop
  | .storeInt _ _ Wd_int _ Xt _ address addr =>
      ([31, Xt, Wd_int, s.Wd_tmp] ++ s.fixed).Nodup ∧ addr ≠ 31
        ∧ Forward.closed address = true
        ∧ ∀ c, (run address c).mem = c.mem
          ∧ ∀ r ∈ Wd_int :: s.fixed, (run address c).reg r = c.reg r
  | .frndint _ _ Wd_rc =>
      ([31, s.Wd_tmp] ++ s.fixed).Nodup ∧ Wd_rc ≠ 31
  | .storeCw Wd_cw address addr =>
      ([31, addr, Wd_cw] ++ s.fixed).Nodup
        ∧ Forward.closed address = true
  | .other code => Forward.closed code = true

/-- The control word and the register of its rounding control are as they
were. -/
structure RcFrame.Same (s : RcFrame) (c c' : Cpu) : Prop where
  word : controlWord c' s.Xbase = controlWord c s.Xbase
  reg : ∀ r ∈ s.Wd_rc_cached, c'.reg r = c.reg r

/-- Where it runs, a node writes to the control word only if it is there
to do so, and leaves the register of the rounding control alone. -/
def RcNode.Clear (s : RcFrame) (valid : Bool) (n : RcNode) (c : Cpu) :
    Prop :=
  match n with
  | .storeInt _ size Wd_int Dd_val Xt Dscr address addr =>
      Mem.Disjoint ((run (guarded (n.how s valid) size s.Xbase Wd_int
          Dd_val s.Wd_tmp Xt Dscr ++ address) c).reg addr)
        (2 ^ size.store_size) (c.reg s.Xbase) 2
  | .frndint _ _ _ | .storeCw _ _ _ => True
  | .other code => s.Same c (run code c)

/-- Where the register is said to have the rounding control, it does. -/
def RcFrame.Kept (s : RcFrame) (valid : Bool) (c : Cpu) : Prop :=
  ∀ r ∈ s.Wd_rc_cached, valid = true → RcCached c s.Xbase r

theorem RcFrame.Kept.same (h : s.Kept valid c) (hs : s.Same c c') :
    s.Kept valid c' := by
  intro r hr hv
  unfold RcCached
  rw [hs.reg r hr, hs.word]
  exact h r hr hv

-- ====================================================== integer stores

section
variable {Xbase Wd_int Dd_val Wd_tmp Xt Dscr r : Nat} {size : IntSize}
  {how : RoundBy}

/-- The registers that conversion and guard write. -/
def RoundBy.written (how : RoundBy) (Wd_int Wd_tmp Xt : Nat) : List Nat :=
  [Wd_int, Wd_tmp, Xt] ++ match how with
    | .cached r false => [r]
    | _ => []

theorem reg_guarded (h : r ∉ how.written Wd_int Wd_tmp Xt) :
    (run (guarded how size Xbase Wd_int Dd_val Wd_tmp Xt Dscr) c).reg r
      = c.reg r := by
  have hparts : r ≠ Wd_int ∧ r ≠ Wd_tmp ∧ r ≠ Xt
      ∧ ∀ q, how = .cached q false → r ≠ q := by
    refine ⟨?_, ?_, ?_, ?_⟩
    · rintro rfl
      exact h (by simp [RoundBy.written])
    · rintro rfl
      exact h (by simp [RoundBy.written])
    · rintro rfl
      exact h (by simp [RoundBy.written])
    · rintro q rfl rfl
      exact h (by simp [RoundBy.written])
  obtain ⟨h1, h2, h3, h4⟩ := hparts
  rw [guarded, run_append closed_conversion, reg_guard h1 h3]
  refine run_reg_of_ne ?_
  cases how with
  | truncate => simp [emit_conversion, Cpu.Op.dest, h1.symm]
  | cached q valid =>
      cases valid with
      | true =>
          simp [emit_conversion, emit_rcmode_dispatch_cached, rcmode_chain,
            Cpu.Op.dest, h1.symm, h2.symm]
      | false =>
          have hq := (h4 q rfl).symm
          simp [emit_conversion, emit_rc_preamble,
            emit_rcmode_dispatch_cached, rcmode_chain, Cpu.Op.dest,
            h1.symm, h2.symm, hq]
  | dispatch fast =>
      cases fast <;> simp [emit_conversion, emit_rcmode_dispatch,
        rcmode_chain, Cpu.Op.dest, h1.symm, h2.symm]

/-- The control word is as it was. -/
theorem controlWord_guarded
    (h : Xbase ∉ how.written Wd_int Wd_tmp Xt) :
    controlWord (run (guarded how size Xbase Wd_int Dd_val Wd_tmp Xt Dscr)
      c) Xbase = controlWord c Xbase := by
  unfold controlWord
  rw [mem_guarded, reg_guarded h]

/-- Loaded for this conversion, the rounding control is kept. -/
theorem rcCached_guarded (hbase : Xbase ≠ 31) (hr : r ≠ 31)
    (hb : Xbase ∉ (RoundBy.cached r false).written Wd_int Wd_tmp Xt)
    (hw : r ∉ (RoundBy.cached r true).written Wd_int Wd_tmp Xt) :
    RcCached (run (guarded (.cached r false) size Xbase Wd_int Dd_val
      Wd_tmp Xt Dscr) c) Xbase r := by
  have hpre : Forward.closed (emit_rc_preamble Xbase r) = true := rfl
  have hsplit : guarded (.cached r false) size Xbase Wd_int Dd_val Wd_tmp
        Xt Dscr
      = emit_rc_preamble Xbase r
        ++ guarded (.cached r true) size Xbase Wd_int Dd_val Wd_tmp Xt
          Dscr := rfl
  unfold RcCached
  rw [controlWord_guarded hb, hsplit, run_append hpre, reg_guarded hw,
    run_rc_preamble hbase hr]

end

section
variable {truncate : Bool} {size : IntSize} {Wd_int Dd_val Xt Dscr : Nat}
  {address : List (Line NoLabel)} {addr : Nat}

/-- The registers of an integer store are different ones. -/
theorem RcNode.Sound.regs (valid : Bool)
    (h : (RcNode.storeInt truncate size Wd_int Dd_val Xt Dscr address
      addr).Sound s) :
    let how := RcNode.how s valid (.storeInt truncate size Wd_int Dd_val
      Xt Dscr address addr)
    (Xt :: how.regs s.Xbase Wd_int s.Wd_tmp).Nodup
      ∧ s.Xbase ∉ how.written Wd_int s.Wd_tmp Xt
      ∧ ∀ r ∈ s.Wd_rc_cached, s.Xbase ≠ 31 ∧ r ≠ 31
        ∧ r ∉ [Wd_int, s.Wd_tmp, Xt] := by
  intro how
  have hnodup := h.1
  simp only [how, RcNode.how, RcFrame.how]
  unfold RcFrame.fixed at hnodup
  cases hrc : s.Wd_rc_cached with
  | none =>
      rw [hrc] at hnodup
      simp only [Option.toList_none, List.cons_append, List.nil_append,
        List.nodup_cons, List.mem_cons, List.not_mem_nil, or_false,
        not_or] at hnodup
      cases truncate <;> simp [RoundBy.regs, RoundBy.written] <;> grind
  | some r =>
      rw [hrc] at hnodup
      simp only [Option.toList_some, List.cons_append, List.nil_append,
        List.nodup_cons, List.mem_cons, List.not_mem_nil, or_false,
        not_or] at hnodup
      cases truncate <;> cases valid <;>
        simp [RoundBy.regs, RoundBy.written] <;> grind

/-- The direction does not depend on where the rounding control is. -/
theorem modeOf_how (n : RcNode) (cw : BitVec 16) :
    modeOf cw (n.how s valid) = modeOf cw (n.how s false) := by
  have hframe : modeOf cw (s.how valid) = modeOf cw (s.how false) := by
    unfold RcFrame.how
    cases s.Wd_rc_cached with
    | none => rfl
    | some r => rfl
  cases n with
  | storeInt truncate =>
      cases truncate with
      | true => rfl
      | false => exact hframe
  | frndint => exact hframe
  | storeCw => exact hframe
  | other => exact hframe

/-- The register of the rounding control is ready for a node that rounds
by it. -/
theorem RcFrame.Kept.ready (h : s.Kept valid c) (n : RcNode) :
    (n.how s valid).Ready c s.Xbase := by
  have hframe : (s.how valid).Ready c s.Xbase := by
    unfold RcFrame.how
    cases hrc : s.Wd_rc_cached with
    | none => exact True.intro
    | some r =>
        cases valid with
        | false => exact True.intro
        | true => exact h r hrc rfl
  cases n with
  | storeInt truncate =>
      cases truncate with
      | true => exact True.intro
      | false => exact hframe
  | frndint => exact hframe
  | storeCw => exact hframe
  | other => exact hframe

/-- Behind conversion and guard the register has the rounding control if
it had it, or if this store loaded it. -/
theorem kept_guarded
    (hs : (RcNode.storeInt truncate size Wd_int Dd_val Xt Dscr address
      addr).Sound s) (h : s.Kept valid c) :
    let n := RcNode.storeInt truncate size Wd_int Dd_val Xt Dscr address
      addr
    s.Kept (n.emit s valid).1 (run (guarded (n.how s valid) size s.Xbase
      Wd_int Dd_val s.Wd_tmp Xt Dscr) c) := by
  intro n r hr hv
  have hrc : s.Wd_rc_cached = some r := hr
  obtain ⟨-, hbase, hcached⟩ := hs.regs valid
  obtain ⟨hb31, hr31, hfree⟩ := hcached r hr
  -- what had it has it: the code writes other registers only
  have hstays : (∀ q, n.how s valid ≠ .cached q false) → valid = true →
      RcCached (run (guarded (n.how s valid) size s.Xbase Wd_int Dd_val
        s.Wd_tmp Xt Dscr) c) s.Xbase r := by
    intro hnot hvalid
    have hw : r ∉ (n.how s valid).written Wd_int s.Wd_tmp Xt := by
      intro hmem
      rcases List.mem_append.mp hmem with hmem | hmem
      · exact hfree hmem
      · split at hmem
        · exact hnot _ ‹_›
        · cases hmem
    unfold RcCached
    rw [reg_guarded hw, controlWord_guarded hbase]
    exact h r hr hvalid
  cases truncate with
  | true =>
      have hvalid : valid = true := by simpa [n, RcNode.emit] using hv
      exact hstays (fun q hq => by cases hq) hvalid
  | false =>
      have hhow : n.how s valid = .cached r valid := by
        show s.how valid = _
        unfold RcFrame.how
        rw [hrc]
      cases valid with
      | true =>
          refine hstays (fun q hq => ?_) rfl
          rw [hhow] at hq
          cases hq
      | false =>
          rw [hhow] at hbase ⊢
          refine rcCached_guarded hb31 hr31 hbase ?_
          simpa [RoundBy.written] using hfree

/-- A conversion, the guard, the address, the store: the registers behind
them are those behind the address. -/
theorem reg_int_store {how : RoundBy} {Xbase Wd_tmp r : Nat}
    (hclosed : Forward.closed address = true) :
    (run (emit_int_store how size Xbase Wd_int Dd_val Wd_tmp Xt Dscr
        address addr) c).reg r
      = (run address (run (guarded how size Xbase Wd_int Dd_val Wd_tmp Xt
          Dscr) c)).reg r := by
  have hboth : Forward.closed (guarded how size Xbase Wd_int Dd_val
      Wd_tmp Xt Dscr ++ address) = true := by
    rw [Forward.closed_append closed_guarded hclosed]
  unfold emit_int_store
  rw [run_append hboth, run_append closed_guarded]
  exact run_reg_of_ne (by simp [emit_str_imm, Cpu.Op.dest])

/-- An integer store. -/
theorem step_storeInt
    (hs : (RcNode.storeInt truncate size Wd_int Dd_val Xt Dscr address
      addr).Sound s) (h : s.Kept valid c)
    (hclear : (RcNode.storeInt truncate size Wd_int Dd_val Xt Dscr address
      addr).Clear s valid c) :
    let n := RcNode.storeInt truncate size Wd_int Dd_val Xt Dscr address
      addr
    n.Right s valid c (run (n.emit s valid).2 c)
      ∧ s.Kept (n.emit s valid).1 (run (n.emit s valid).2 c) := by
  intro n
  obtain ⟨hregs, hbase, -⟩ := hs.regs valid
  have hkept := kept_guarded hs h
  obtain ⟨-, haddr, hclosed, haddress⟩ := hs
  have hmem := @mem_int_store c s.Xbase Wd_int Dd_val s.Wd_tmp Xt Dscr
    (n.how s valid) size addr address haddr hclosed fun c =>
      ⟨(haddress c).1, (haddress c).2 _ List.mem_cons_self⟩
  have hwidth : 8 * 2 ^ size.store_size = size.bits := by
    cases size <;> rfl
  refine ⟨?_, hkept.same ⟨?_, ?_⟩⟩
  · show (run (emit_int_store _ _ _ _ _ _ _ _ _ _) c).mem = _
    rw [hmem, RcNode.direction, ← modeOf_how, ← run_guarded hregs
      (h.ready n)]
    congr 1
    rw [BitVec.setWidth_setWidth_of_le _ (by omega)]
  · have hreg : (run (n.emit s valid).2 c).reg s.Xbase = c.reg s.Xbase := by
      show (run (emit_int_store _ _ _ _ _ _ _ _ _ _) c).reg _ = _
      rw [reg_int_store hclosed,
        (haddress _).2 _ (by simp [RcFrame.fixed]), reg_guarded hbase]
    rw [controlWord_guarded hbase]
    unfold controlWord
    rw [hreg]
    show (run (emit_int_store _ _ _ _ _ _ _ _ _ _) c).mem.load _ _ = _
    rw [hmem]
    exact Mem.load_store_of_disjoint hclear
  · intro r hr
    have hr' : r ∈ s.fixed :=
      List.mem_cons_of_mem _ (Option.mem_toList.mpr hr)
    show (run (emit_int_store _ _ _ _ _ _ _ _ _ _) c).reg _ = _
    rw [reg_int_store hclosed,
      (haddress _).2 _ (List.mem_cons_of_mem _ hr')]

end

-- ============================================================ FRndInt

section
variable {Xbase Dd Dn Wd_rc : Nat}

/-- The chain rounds in the direction of the rounding control. -/
theorem run_frint_chain (hrc : Wd_rc ≠ 31) {rc : BitVec 2}
    (h : c.reg Wd_rc = rc.setWidth 64) :
    (run (frint_chain Dd Dn Wd_rc) c).d Dd
      = Double.roundIntegral (rcMode rc) (c.d Dn) := by
  have hcases : ∀ rc : BitVec 2, rc = 0 ∨ rc = 1 ∨ rc = 2 ∨ rc = 3 := by
    decide
  unfold Cpu.run Forward.run frint_chain emit_frint
  rcases hcases rc with rfl | rfl | rfl | rfl <;>
    simp [h, hrc, Arm.narrow, rcMode]

/-- Its copy first. -/
theorem run_frint_cached {Wd_tmp r : Nat} (htmp : Wd_tmp ≠ 31)
    {rc : BitVec 2} (h : c.reg r = rc.setWidth 64) :
    (run (emit_frint_dispatch_cached Dd Dn r Wd_tmp) c).d Dd
      = Double.roundIntegral (rcMode rc) (c.d Dn) := by
  have hsplit : emit_frint_dispatch_cached Dd Dn r Wd_tmp
      = [emit_mov_reg false Wd_tmp r] ++ frint_chain Dd Dn Wd_tmp := rfl
  rw [hsplit, run_append (by rfl), run_mov_rc h,
    run_frint_chain htmp (reg_set_self htmp), d_set]

/-- Behind it the control word and every register but the scratch one are
as they were. -/
theorem frint_cached_same {Wd_tmp r : Nat} (htmp : Wd_tmp ∉ s.fixed) :
    s.Same c (run (emit_frint_dispatch_cached Dd Dn r Wd_tmp) c) := by
  have hreg : ∀ q ∈ s.fixed,
      (run (emit_frint_dispatch_cached Dd Dn r Wd_tmp) c).reg q
        = c.reg q := by
    intro q hq
    have hne : Wd_tmp ≠ q := fun he => htmp (he ▸ hq)
    exact run_reg_of_ne (by simp [emit_frint_dispatch_cached, frint_chain,
      emit_frint, Cpu.Op.dest, hne])
  have hmem : (run (emit_frint_dispatch_cached Dd Dn r Wd_tmp) c).mem
      = c.mem :=
    run_mem (by simp [emit_frint_dispatch_cached, frint_chain, emit_frint,
      Cpu.Op.stores])
  constructor
  · unfold controlWord
    rw [hmem, hreg _ List.mem_cons_self]
  · intro q hq
    exact hreg q (List.mem_cons_of_mem _ (Option.mem_toList.mpr hq))

/-- The rounding control just loaded. -/
theorem rcCached_rc_preamble {r : Nat} (hbase : Xbase ≠ 31) (hr : r ≠ 31)
    (hne : Xbase ≠ r) :
    RcCached (run (emit_rc_preamble Xbase r) c) Xbase r := by
  have hmem : (run (emit_rc_preamble Xbase r) c).mem = c.mem :=
    run_mem (by simp [emit_rc_preamble, Cpu.Op.stores])
  unfold RcCached
  rw [run_rc_preamble hbase hr]
  unfold controlWord
  rw [hmem, reg_rc_preamble hne]

/-- `FRndInt`. -/
theorem step_frndint (hs : (RcNode.frndint Dd Dn Wd_rc).Sound s)
    (h : s.Kept valid c) :
    let n := RcNode.frndint Dd Dn Wd_rc
    n.Right s valid c (run (n.emit s valid).2 c)
      ∧ s.Kept (n.emit s valid).1 (run (n.emit s valid).2 c) := by
  intro n
  obtain ⟨hnodup, hrc31⟩ := hs
  have hpre : ∀ r, Forward.closed (emit_rc_preamble s.Xbase r) = true :=
    fun _ => rfl
  have hfixed : s.Wd_tmp ∉ s.fixed ∧ s.Wd_tmp ≠ 31 ∧ s.Xbase ≠ 31 := by
    unfold RcFrame.fixed at hnodup ⊢
    simp only [List.cons_append, List.nil_append, List.nodup_cons,
      List.mem_cons, not_or] at hnodup ⊢
    exact ⟨hnodup.2.1, Ne.symm hnodup.1.1, Ne.symm hnodup.1.2.1⟩
  obtain ⟨htmp, htmp31, hbase⟩ := hfixed
  show (run (emit_frndint s valid Dd Dn Wd_rc) c).d Dd
      = Double.roundIntegral (modeOf (controlWord c s.Xbase)
        (s.how false)) (c.d Dn)
    ∧ s.Kept (valid || s.Wd_rc_cached.isSome)
      (run (emit_frndint s valid Dd Dn Wd_rc) c)
  unfold emit_frndint RcFrame.how
  cases hrc : s.Wd_rc_cached with
  | none =>
      refine ⟨?_, fun r hr => ?_⟩
      · cases hfast : s.fast_round with
        | true =>
            simp [emit_frint, Cpu.run, Forward.run, modeOf]
        | false =>
            simp only [Bool.false_eq_true, if_false]
            rw [run_append (hpre Wd_rc), run_frint_chain hrc31
              (run_rc_preamble hbase hrc31), d_rc_preamble]
            rfl
      · rw [hrc] at hr
        cases hr
  | some r =>
      have hr : r ∈ s.Wd_rc_cached := hrc
      have hne : r ≠ 31 ∧ s.Xbase ≠ r := by
        unfold RcFrame.fixed at hnodup
        rw [hrc] at hnodup
        simp only [Option.toList_some, List.cons_append, List.nil_append,
          List.nodup_cons, List.mem_cons, not_or] at hnodup
        exact ⟨Ne.symm hnodup.1.2.2.1, hnodup.2.2.1.1⟩
      -- from where the register has it
      have hfrom : ∀ c', RcCached c' s.Xbase r →
          controlWord c' s.Xbase = controlWord c s.Xbase → c'.d = c.d →
          (run (emit_frint_dispatch_cached Dd Dn r s.Wd_tmp) c').d Dd
              = Double.roundIntegral (rcMode (roundingControl
                (controlWord c s.Xbase))) (c.d Dn)
            ∧ s.Kept true (run (emit_frint_dispatch_cached Dd Dn r
              s.Wd_tmp) c') := by
        intro c' hc' hword hd
        refine ⟨?_, ?_⟩
        · rw [run_frint_cached htmp31 hc', hword, hd]
        · refine RcFrame.Kept.same ?_ (frint_cached_same htmp)
          intro q hq _
          obtain rfl : q = r := Option.mem_unique hq hr
          exact hc'
      simp only [Option.isSome_some, Bool.or_true]
      cases valid with
      | true =>
          simp only [if_true, List.nil_append]
          exact hfrom c (h r hr rfl) rfl rfl
      | false =>
          simp only [Bool.false_eq_true, if_false]
          rw [run_append (hpre r)]
          refine hfrom (run (emit_rc_preamble s.Xbase r) c)
            (rcCached_rc_preamble hbase hne.1 hne.2) ?_ d_rc_preamble
          unfold controlWord
          rw [reg_rc_preamble hne.2, run_mem (by
            simp [emit_rc_preamble, Cpu.Op.stores])]

end

-- ============================================================ StoreCW

/-- The control word written is the one in force, and its rounding control
is kept. -/
theorem run_store_cw {addr Wd_cw : Nat}
    (hregs : ([31, addr, Wd_cw] ++ s.fixed).Nodup) :
    controlWord (run (emit_store_cw s addr Wd_cw) c) s.Xbase
        = c.mem.load (c.reg addr) 2
      ∧ s.Kept true (run (emit_store_cw s addr Wd_cw) c) := by
  unfold RcFrame.fixed at hregs
  simp only [List.cons_append, List.nil_append, List.nodup_cons,
    List.mem_cons, not_or] at hregs
  obtain ⟨⟨haddr, hcw, hbase, hr⟩, -, ⟨hcb, hcr⟩, hbr, -⟩ := hregs
  let cw : BitVec 16 := c.mem.load (c.reg addr) 2
  let c₁ : Cpu := (c.set Wd_cw (cw.setWidth 64)).setMem
    (c.mem.store (c.reg s.Xbase) 2 cw)
  have hload : ∀ a, c.load 1 a = (c.mem.load a 2).setWidth 64 :=
    fun _ => rfl
  have hlow : (cw.setWidth 64).setWidth 16 = cw :=
    BitVec.setWidth_setWidth_of_le cw (by decide)
  have htwo : run ([emit_ldr_imm 1 Wd_cw addr 0,
      emit_str_imm 1 Wd_cw s.Xbase 0] : List (Line NoLabel)) c = c₁ := by
    simp only [Cpu.run, Forward.run, emit_ldr_imm, emit_str_imm,
      Forward.exec_insn, Forward.exec_nil, step_ldr (Ne.symm haddr),
      step_str (Ne.symm hbase), offset_zero, mem_set,
      reg_set_self (Ne.symm hcw), hload]
    rw [reg_set_of_ne (Ne.symm hcb)]
    exact congrArg (fun v => Cpu.setMem (c.set Wd_cw (cw.setWidth 64))
      (c.mem.store (c.reg s.Xbase) 2 v)) hlow
  have hword₁ : controlWord c₁ s.Xbase = cw := by
    show (c.mem.store (c.reg s.Xbase) 2 cw).load (c₁.reg s.Xbase) 2 = cw
    rw [reg_setMem, reg_set_of_ne (Ne.symm hcb)]
    exact Mem.load_store_self (by decide)
  unfold emit_store_cw
  rw [run_append rfl, htwo]
  cases hrc : s.Wd_rc_cached with
  | none =>
      refine ⟨hword₁, fun r hr => ?_⟩
      rw [hrc] at hr
      cases hr
  | some r =>
      rw [hrc] at hr hcr hbr
      simp only [Option.toList_some, List.mem_cons, List.not_mem_nil,
        or_false] at hr hcr hbr
      have hlast : run ((some r).toList.map fun r =>
            emit_bitfield false .ubfm 10 11 Wd_cw r : List (Line NoLabel))
            c₁
          = c₁.set r ((roundingControl cw).setWidth 64) := by
        have hcw₁ : c₁.reg Wd_cw = cw.setWidth 64 := by
          rw [reg_setMem, reg_set_self (Ne.symm hcw)]
        simp only [Option.toList_some, List.map_cons, List.map_nil,
          Cpu.run, Forward.run, emit_bitfield, Forward.exec_insn,
          Forward.exec_nil, step_bitfield, width_false, hcw₁]
        exact congrArg (c₁.set r) (ubfm_roundingControl cw)
      have hword : controlWord (c₁.set r ((roundingControl cw).setWidth 64))
          s.Xbase = cw := by
        rw [← hword₁]
        unfold controlWord
        rw [mem_set, reg_set_of_ne hbr]
      rw [hlast]
      refine ⟨hword, fun q hq _ => ?_⟩
      rw [hrc] at hq
      obtain rfl : r = q := Option.some.inj hq
      unfold RcCached
      rw [hword, reg_set_self (Ne.symm hr)]

-- ========================================================== a stretch

/-- One node. -/
theorem RcNode.step (hs : n.Sound s) (h : s.Kept valid c)
    (hclear : n.Clear s valid c) :
    n.Right s valid c (run (n.emit s valid).2 c)
      ∧ s.Kept (n.emit s valid).1 (run (n.emit s valid).2 c) := by
  cases n with
  | storeInt truncate size Wd_int Dd_val Xt Dscr address addr =>
      exact step_storeInt hs h hclear
  | frndint Dd Dn Wd_rc => exact step_frndint hs h
  | storeCw Wd_cw address addr =>
      obtain ⟨hregs, hclosed⟩ := hs
      obtain ⟨hword, hkept⟩ := @run_store_cw s (run address c) addr Wd_cw
        hregs
      show controlWord (run (address ++ emit_store_cw s addr Wd_cw) c) _ = _
        ∧ s.Kept _ (run (address ++ emit_store_cw s addr Wd_cw) c)
      rw [run_append hclosed]
      refine ⟨hword, fun r hr _ => hkept r hr rfl⟩
  | other code => exact ⟨True.intro, h.same hclear⟩

/-- The code of a node is whole. -/
theorem RcNode.closed_emit (hs : n.Sound s) :
    Forward.closed (n.emit s valid).2 = true := by
  cases n with
  | storeInt truncate size Wd_int Dd_val Xt Dscr address addr =>
      show Forward.closed (emit_int_store _ _ _ _ _ _ _ _ _ _) = true
      unfold emit_int_store
      rw [Forward.closed_append (Forward.closed_append closed_guarded
        hs.2.2.1) rfl]
  | frndint Dd Dn Wd_rc =>
      show Forward.closed (emit_frndint s valid Dd Dn Wd_rc) = true
      unfold emit_frndint
      split
      · cases valid <;> rfl
      · split
        · rfl
        · rfl
  | storeCw Wd_cw address addr =>
      show Forward.closed (address ++ emit_store_cw s addr Wd_cw) = true
      refine Forward.closed_append hs.2 ?_
      unfold emit_store_cw
      cases s.Wd_rc_cached <;> rfl
  | other code => exact hs

/-- Where a stretch has come to: `rc_cache_valid`, and what its code leaves
of the machine. -/
def reached (s : RcFrame) (nodes : List RcNode) (valid : Bool) (c : Cpu) :
    Bool × Cpu :=
  ((emitNodes s nodes valid).1, run (emitNodes s nodes valid).2 c)

theorem reached_cons (hs : n.Sound s) (nodes : List RcNode) :
    reached s (n :: nodes) valid c
      = reached s nodes (n.emit s valid).1 (run (n.emit s valid).2 c) := by
  unfold reached
  have hcode : (emitNodes s (n :: nodes) valid).2
      = (n.emit s valid).2
        ++ (emitNodes s nodes (n.emit s valid).1).2 := rfl
  rw [hcode, run_append (RcNode.closed_emit hs)]
  rfl

/-- A node behind a stretch. -/
theorem reached_concat {before : List RcNode}
    (hb : ∀ n ∈ before, n.Sound s) (hs : n.Sound s) :
    reached s (before ++ [n]) valid c
      = let r := reached s before valid c
        ((n.emit s r.1).1, run (n.emit s r.1).2 r.2) := by
  induction before generalizing valid c with
  | nil =>
      rw [List.nil_append, reached_cons hs]
      rfl
  | cons a before ih =>
      rw [List.cons_append, reached_cons (hb a List.mem_cons_self),
        reached_cons (hb a List.mem_cons_self)]
      exact ih fun n hn => hb n (List.mem_cons_of_mem _ hn)

/-- The rounding control is kept in register 5. -/
def keeping : RcFrame where
  Xbase := 0
  Wd_tmp := 2
  Wd_rc_cached := some 5
  fast_round := false
  unused := Bool.noConfusion

/-- A control word that rounds down, and an integer store. -/
def loadAndStore : List RcNode :=
  [.storeCw 1 [] 6, .storeInt false .s16 1 0 3 1 [] 4]

/-- Rounding to nearest is in force, 1.5 is in every floating-point
register, and at 512 there is a control word that rounds down. -/
def nearest : Cpu where
  x r := if r = 0 then 0 else if r = 6 then 512 else 256
  sp := 0
  mem := Mem.store (fun _ => 0) 512 2 (0x0400 : BitVec 16)
  d _ := 0x3FF8000000000000
  flags := ⟨false, false, false, false⟩
  flush := 0

end X87Sidecar.Fist
