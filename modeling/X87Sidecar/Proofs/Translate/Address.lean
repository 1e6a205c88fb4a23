/-
The register that `compute_operand_address` returns holds the address of
its operand, whatever register it was asked to use.

An emitter's code runs on a machine that holds the guest in `x0` to
`x15` (`Holds`); scratch registers come from a pool above those, so the
guest is only touched where the caller asks for it (`Held`). The only
failure is to find no register (`Exhausted`).
-/
import X87Sidecar.Machine.Guest
import X87Sidecar.Proofs.Translate.Immediate

namespace X87Sidecar

open Lib Lib.Keep

/-- The machine that runs the code holds the guest's integer registers in
`x0` to `x15`, and its memory. -/
structure Holds (g : Guest) (m : Arm.Machine) : Prop where
  reg : ∀ r < 16, m.reg r = g.regs r
  mem : m.mem = g.mem

namespace Asm

/-- The code emitted so far takes `m0` to `m`, and `f` are the registers
left. No fixup is for code still to come. -/
structure At (lk : Link) (m0 : Arm.Machine) (f : BitVec 32)
    (m : Arm.Machine) (s : AsmState) : Prop where
  free : s.free_gpr_mask = f
  process : s.process = lk.process
  ran : s.exec lk m0 = m
  own : ∀ x ∈ s._fixups, x.insn_offset < s.bufEnd
  external : ∀ x ∈ s.external_fixups, x.insn_offset < s.bufEnd

/-- No register is free. -/
def Exhausted (s : AsmState) : Prop := s.free_gpr_mask = 0

/-- Only registers of the pool are free. -/
def InPool (f : BitVec 32) : Prop :=
  ∀ r, f.getLsbD r = true → is_scratch_pool_reg r = true

theorem pool_bounds {r : Nat} (h : is_scratch_pool_reg r = true) :
    22 ≤ r ∧ r ≤ 29 := by
  have hr : r < 32 := by
    by_contra hge
    unfold is_scratch_pool_reg at h
    rw [BitVec.getLsbD_of_ge _ _ (by omega)] at h
    cases h
  have hall : ∀ r < 32, is_scratch_pool_reg r = true →
      22 ≤ r ∧ r ≤ 29 := by decide
  exact hall r hr h

theorem not_pool {r : Nat} (h : r < 16 ∨ r = 31) :
    is_scratch_pool_reg r = false := by
  by_contra hp
  have := pool_bounds (by simpa using hp)
  omega

variable {lk : Link} {m0 m : Arm.Machine} {f : BitVec 32}
  {F : AsmState → Prop}

-- ============================================== code and its fixups

theorem fixupAt_append {fixups : List Fixup} {kind k : FixupKind}
    {at_ offset : Nat} {target : BitVec 32} (h : at_ ≠ offset) :
    fixupAt (fixups ++ [⟨kind, at_, target⟩]) k offset
      = fixupAt fixups k offset := by
  unfold fixupAt
  rw [List.find?_append]
  cases hf : fixups.find? fun x => x.kind = k ∧ x.insn_offset = offset with
  | some x => simp
  | none => simp [h]

theorem fixupAt_none {fixups : List Fixup} {k : FixupKind}
    (offset : Nat) (h : ∀ x ∈ fixups, x.insn_offset < offset) :
    fixupAt fixups k offset = none := by
  unfold fixupAt
  rw [Option.map_eq_none_iff, List.find?_eq_none]
  intro x hx
  have hlt := h x hx
  simp only [decide_eq_true_eq, not_and]
  omega

theorem fixupAt_last {fixups : List Fixup} {k : FixupKind} {offset : Nat}
    {target : BitVec 32} (h : ∀ x ∈ fixups, x.insn_offset < offset) :
    fixupAt (fixups ++ [⟨k, offset, target⟩]) k offset = some target := by
  have hnone : fixups.find?
      (fun x => x.kind = k ∧ x.insn_offset = offset) = none :=
    Option.map_eq_none_iff.mp (fixupAt_none (k := k) _ h)
  unfold fixupAt
  rw [List.find?_append, hnone]
  simp

theorem withPageOffset_none (lk : Link) (i : Arm.Instr) :
    withPageOffset lk none i = i := by
  cases i <;> rfl

/-- A place of the buffer runs as before once more fixups are known, if
none of them is for it. -/
theorem step_congr {s t : AsmState} {p : CodeWord × Nat}
    (hown : ∀ k, fixupAt t._fixups k (4 * p.2)
      = fixupAt s._fixups k (4 * p.2))
    (hext : ∀ k, fixupAt t.external_fixups k (4 * p.2)
      = fixupAt s.external_fixups k (4 * p.2)) :
    t.step lk m p = s.step lk m p := by
  unfold AsmState.step
  rw [hown, hext, hext]

theorem runCode_congr {μ ι : Type} {f g : μ → ι → μ} {l : List ι}
    (h : ∀ m, ∀ i ∈ l, f m i = g m i) (m : μ) :
    runCode f l m = runCode g l m := by
  induction l generalizing m with
  | nil => rfl
  | cons i l ih =>
      rw [runCode_cons, runCode_cons, h m i List.mem_cons_self]
      exact ih (fun m j hj => h m j (List.mem_cons_of_mem _ hj)) _

/-- One more place: the code before it runs as it did. -/
theorem exec_snoc {s t : AsmState} {e : CodeWord}
    (hbuf : t.insn_buf = s.insn_buf ++ [e])
    (hown : ∀ k offset, offset < s.bufEnd →
      fixupAt t._fixups k offset = fixupAt s._fixups k offset)
    (hext : ∀ k offset, offset < s.bufEnd →
      fixupAt t.external_fixups k offset
        = fixupAt s.external_fixups k offset) :
    t.exec lk m0 = t.step lk (s.exec lk m0) (e, s.insn_buf.length) := by
  unfold AsmState.exec
  rw [hbuf, List.zipIdx_append, runCode_append]
  have hpre : runCode (t.step lk) s.insn_buf.zipIdx m0
      = runCode (s.step lk) s.insn_buf.zipIdx m0 := by
    apply runCode_congr
    intro m p hp
    have hlt : 4 * p.2 < s.bufEnd := by
      have := List.snd_lt_of_mem_zipIdx hp
      unfold AsmState.bufEnd
      omega
    exact step_congr (fun k => hown k _ hlt) fun k => hext k _ hlt
  rw [hpre]
  simp

-- ===================================================== the primitives

theorem At.emit {s : AsmState} {i : Arm.Instr} (h : At lk m0 f m s) :
    At lk m0 f (Arm.step m i)
      { s with insn_buf := s.insn_buf ++ [.insn i] } where
  free := h.free
  process := h.process
  ran := by
    refine (exec_snoc (s := s)
      (t := { s with insn_buf := s.insn_buf ++ [.insn i] }) rfl
      (fun _ _ _ => rfl) fun _ _ _ => rfl).trans ?_
    rw [h.ran]
    show Arm.step m (withPageOffset lk
      (fixupAt s.external_fixups .arm64PageOffset12
        (4 * s.insn_buf.length)) i) = _
    rw [fixupAt_none (4 * s.insn_buf.length) h.external,
      withPageOffset_none]
  own x hx := by
    have := h.own x hx
    unfold AsmState.bufEnd at *
    rw [List.length_append]
    omega
  external x hx := by
    have := h.external x hx
    unfold AsmState.bufEnd at *
    rw [List.length_append]
    omega

/-- Taking registers and giving them back runs nothing. -/
theorem At.withMask {s : AsmState} {mask f' : BitVec 32}
    (h : At lk m0 f m s) (hmask : mask = f') :
    At lk m0 f' m { s with free_gpr_mask := mask } where
  free := hmask
  process := h.process
  ran := h.ran
  own := h.own
  external := h.external

theorem emit_triple (i : Arm.Instr) :
    Triple (At lk m0 f m) (emit i)
      (fun _ => At lk m0 f (Arm.step m i)) F :=
  Triple.modify fun _ h => h.emit

theorem emitAll_triple (is : List Arm.Instr) :
    Triple (At lk m0 f m) (emitAll is)
      (fun _ => At lk m0 f (Arm.run is m)) F := by
  refine Triple.modify fun s h => ?_
  induction is generalizing s m with
  | nil => simpa using h
  | cons i is ih =>
      have hi := ih _ (h.emit (i := i))
      rw [List.append_assoc] at hi
      exact hi

theorem bufEnd_snoc {s t : AsmState} {e : CodeWord}
    (hbuf : t.insn_buf = s.insn_buf ++ [e]) :
    t.bufEnd = s.bufEnd + 4 := by
  unfold AsmState.bufEnd
  rw [hbuf, List.length_append]
  simp
  omega

/-- A fixup recorded for the place about to be emitted. -/
theorem lt_bufEnd_snoc {fixups : List Fixup} {kind : FixupKind}
    {offset : Nat} {target : BitVec 32}
    (h : ∀ x ∈ fixups, x.insn_offset < offset) :
    ∀ x ∈ fixups ++ [⟨kind, offset, target⟩],
      x.insn_offset < offset + 4 := by
  intro x hx
  rcases List.mem_append.mp hx with hx | hx
  · have := h x hx
    omega
  · rw [List.mem_singleton.mp hx]
    show offset < offset + 4
    omega

/-- A place completed by an external fixup. -/
theorem emitFixed_external {kind : FixupKind} {target : BitVec 32}
    {e : CodeWord} (hkind : kind ≠ .branch26)
    (step : Arm.Machine → Arm.Machine)
    (hstep : ∀ (t : AsmState) (k : Nat),
      fixupAt t.external_fixups kind (4 * k) = some target →
      t.step lk m (e, k) = step m) :
    Triple (At lk m0 f m) (emitFixed kind target e)
      (fun _ => At lk m0 f (step m)) F := by
  refine Triple.modify fun s h => ?_
  rw [if_neg hkind]
  let t : AsmState := { s with
    external_fixups := s.external_fixups ++ [⟨kind, s.bufEnd, target⟩]
    insn_buf := s.insn_buf ++ [e] }
  have hend : t.bufEnd = s.bufEnd + 4 := bufEnd_snoc (e := e) rfl
  show At lk m0 f (step m) t
  refine ⟨h.free, h.process, ?_, ?_, ?_⟩
  · have hext : ∀ k offset, offset < s.bufEnd →
        fixupAt t.external_fixups k offset
          = fixupAt s.external_fixups k offset := fun k offset hlt =>
      fixupAt_append (by omega)
    rw [exec_snoc (s := s) (t := t) (e := e) rfl (fun _ _ _ => rfl) hext,
      h.ran]
    exact hstep t _ (fixupAt_last h.external)
  · intro x hx
    have := h.own x hx
    omega
  · intro x hx
    rw [hend]
    exact lt_bufEnd_snoc h.external x hx

theorem adrp_triple {target : BitVec 32} {rd : Nat} :
    Triple (At lk m0 f m) (emitFixed .arm64Page21 target (.adrp rd))
      (fun _ => At lk m0 f (m.set rd (page (lk.address target)))) F :=
  emitFixed_external (by decide)
    (fun m => m.set rd (page (lk.address target))) fun t k h => by
      unfold AsmState.step
      rw [h]
      rfl

theorem pageOffset_triple {target : BitVec 32} {w : Bool} {rn rd : Nat} :
    Triple (At lk m0 f m)
      (emitFixed .arm64PageOffset12 target
        (.insn (.addSubImm w false false 0 rn rd)))
      (fun _ => At lk m0 f (Arm.step m (.addSubImm w false false
        ((lk.address target).setWidth 12) rn rd))) F :=
  emitFixed_external (by decide)
    (fun m => Arm.step m (.addSubImm w false false
      ((lk.address target).setWidth 12) rn rd)) fun t k h => by
      unfold AsmState.step
      rw [h]
      rfl

/-- A call of a runtime routine. -/
theorem bl_triple {target : BitVec 32} :
    Triple (At lk m0 f m) (emitFixed .branch26 target .bl)
      (fun _ => At lk m0 f (lk.routine target m)) F := by
  refine Triple.modify fun s h => ?_
  rw [if_pos rfl]
  let t : AsmState := { s with
    _fixups := s._fixups ++ [⟨.branch26, s.bufEnd, target⟩]
    insn_buf := s.insn_buf ++ [.bl] }
  have hend : t.bufEnd = s.bufEnd + 4 := bufEnd_snoc (e := .bl) rfl
  show At lk m0 f (lk.routine target m) t
  refine ⟨h.free, h.process, ?_, ?_, ?_⟩
  · have hown : ∀ k offset, offset < s.bufEnd →
        fixupAt t._fixups k offset = fixupAt s._fixups k offset :=
      fun k offset hlt => fixupAt_append (by omega)
    have hlast : fixupAt t._fixups .branch26 (4 * s.insn_buf.length)
        = some target := fixupAt_last h.own
    rw [exec_snoc (s := s) (t := t) (e := .bl) rfl hown
      fun _ _ _ => rfl, h.ran]
    unfold AsmState.step
    rw [hlast]
    rfl
  · intro x hx
    rw [hend]
    exact lt_bufEnd_snoc h.own x hx
  · intro x hx
    have := h.external x hx
    omega

/-- A register taken from those free. -/
structure Taken (f : BitVec 32) (r : Nat) (f' : BitVec 32) : Prop where
  was : f.getLsbD r = true
  left : f' = f &&& ~~~(1#32 <<< r)

theorem getLsbD_one_shift (r i : Nat) :
    (1#32 <<< r).getLsbD i = (decide (i < 32) && decide (i = r)) := by
  rw [BitVec.getLsbD_shiftLeft, BitVec.getLsbD_one]
  by_cases h : i = r
  · subst h
    simp
  · by_cases hlt : i < r
    · simp [h, hlt]
    · rw [decide_eq_false (by omega : ¬ i - r = 0), decide_eq_false h]
      simp

namespace Taken

variable {r q : Nat} {f' f'' : BitVec 32}

theorem pool (h : Taken f r f') (hf : InPool f) :
    is_scratch_pool_reg r = true := hf r h.was

theorem bounds (h : Taken f r f') (hf : InPool f) : 22 ≤ r ∧ r ≤ 29 :=
  pool_bounds (h.pool hf)

/-- What was taken is not free. -/
theorem gone (h : Taken f r f') : f'.getLsbD r = false := by
  have hlt : r < 32 := BitVec.lt_of_getLsbD h.was
  rw [h.left, BitVec.getLsbD_and, BitVec.getLsbD_not, getLsbD_one_shift]
  simp [hlt]

/-- What is still free was free. -/
theorem sub (h : Taken f r f') (hq : f'.getLsbD q = true) :
    f.getLsbD q = true := by
  rw [h.left, BitVec.getLsbD_and] at hq
  exact (Bool.and_eq_true _ _ ▸ hq).1

/-- What was not free is not free now. -/
theorem keepsGone (h : Taken f r f') (hq : f.getLsbD q = false) :
    f'.getLsbD q = false := by
  by_contra hfree
  have := h.sub (by simpa using hfree)
  rw [this] at hq
  cases hq

/-- What is left is in the pool too. -/
theorem inPool (h : Taken f r f') (hf : InPool f) : InPool f' :=
  fun q hq => hf q (h.sub hq)

/-- A register is not taken twice. -/
theorem ne (h : Taken f r f') (h' : Taken f' q f'') : q ≠ r := by
  rintro rfl
  have hq := h'.was
  rw [h.gone] at hq
  cases hq

/-- A register given back. -/
theorem restore (h : Taken f r f') : f' ||| (1#32 <<< r) = f := by
  have hlt : r < 32 := BitVec.lt_of_getLsbD h.was
  apply BitVec.eq_of_getLsbD_eq
  intro i hi
  rw [h.left, BitVec.getLsbD_or, BitVec.getLsbD_and, BitVec.getLsbD_not,
    getLsbD_one_shift, decide_eq_true hi, Bool.true_and]
  by_cases hir : i = r
  · subst hir
    simp [h.was]
  · simp [hir]

end Taken

theorem alloc_free_gpr_triple :
    Triple (At lk m0 f m) alloc_free_gpr
      (fun r s => ∃ f', Taken f r f' ∧ At lk m0 f' m s) Exhausted := by
  unfold alloc_free_gpr
  refine Triple.bind (Q := fun a s => a.free_gpr_mask = f ∧ At lk m0 f m s)
    (Triple.get fun s h => ⟨h.free, h⟩) fun s => ?_
  refine Triple.and_of fun hs => ?_
  rw [hs]
  split
  · next r hr =>
    refine Triple.bind (Triple.modify fun s h => ?_) fun _ =>
      Triple.pure fun s h => h
    refine ⟨f &&& ~~~(1#32 <<< r), ⟨?_, rfl⟩, h.withMask ?_⟩
    · simpa using List.find?_some hr
    · rw [h.free]
  · next hnone =>
    refine Triple.fail fun s h => ?_
    show s.free_gpr_mask = 0
    rw [h.free]
    apply BitVec.eq_of_getLsbD_eq
    intro i hi
    have := List.find?_eq_none.mp hnone i (List.mem_range.mpr hi)
    simpa using this

theorem free_gpr_pool {r : Nat} {f' : BitVec 32} (h : Taken f r f')
    (hf : InPool f) :
    Triple (At lk m0 f' m) (free_gpr r) (fun _ => At lk m0 f m) F := by
  unfold free_gpr
  rw [if_pos (h.pool hf)]
  refine Triple.modify fun s hs => hs.withMask ?_
  rw [hs.free, h.restore]

theorem free_gpr_guest {r : Nat} (h : r < 16) :
    Triple (At lk m0 f m) (free_gpr r) (fun _ => At lk m0 f m) F := by
  unfold free_gpr
  rw [not_pool (.inl h), if_neg Bool.false_ne_true]
  exact Triple.pure fun s hs => hs

-- ========================================================= immediates

theorem step_movz_zero {w : Bool} {dst : Nat} :
    Arm.step m (.moveWide w .movz 0 0 dst) = m.set dst 0 := by
  cases w <;> simp [Arm.step, Arm.MoveWide.eval, Arm.narrow]

theorem resultReg_given {dst : Nat} (h : dst ≠ 31) :
    resultReg dst = Pure.pure dst := if_neg h

theorem resultReg_any :
    Triple (At lk m0 f m) (resultReg XZR)
      (fun r s => ∃ f', Taken f r f' ∧ At lk m0 f' m s) Exhausted := by
  rw [resultReg, if_pos rfl]
  exact alloc_free_gpr_triple

/-- An immediate in a register that is known. -/
theorem emitValue_triple {is64 : Bool} {value : BitVec 64} {reg : Nat}
    (hreg : reg ≠ 31) :
    Triple (At lk m0 f m) (emitValue is64 (Arm.narrow is64 value) reg)
      (fun _ => At lk m0 f (m.set reg (Arm.narrow is64 value))) F := by
  unfold emitValue
  split
  · next h0 =>
    rw [h0, ← step_movz_zero]
    exact emit_triple _
  · have hrun : Arm.run (immediateCode is64 (Arm.narrow is64 value) _) m
        = _ := immediateCode_run hreg
    rw [Arm.narrow_idem] at hrun
    rw [← hrun]
    exact emitAll_triple _

/-- An immediate in a register named by the caller. Zero may be left to
the zero register. -/
theorem emit_load_immediate_triple {is64 : Bool} {value : BitVec 64}
    {dst : Nat} (hdst : dst ≠ 31) :
    Triple (At lk m0 f m) (emit_load_immediate is64 value dst)
      (fun r s => (value = 0 ∧ r = XZR ∧ At lk m0 f m s)
        ∨ (r = dst ∧ At lk m0 f (m.set dst (Arm.narrow is64 value)) s))
      F := by
  unfold emit_load_immediate
  split
  · next h0 => exact Triple.pure fun s h => .inl ⟨h0, rfl, h⟩
  · rw [resultReg_given hdst]
    refine Triple.bind (Q := fun r s => r = dst ∧ At lk m0 f m s)
      (Triple.pure fun s h => ⟨rfl, h⟩) fun r => ?_
    refine Triple.and_of fun hr => ?_
    subst hr
    exact Triple.bind (emitValue_triple hdst) fun _ =>
      Triple.pure fun s h => .inr ⟨rfl, h⟩

/-- An immediate that is not zero in a register chosen for it. -/
theorem emit_load_immediate_any {is64 : Bool} {value : BitVec 64}
    (hf : InPool f) (h0 : value ≠ 0) :
    Triple (At lk m0 f m) (emit_load_immediate is64 value XZR)
      (fun r s => ∃ f', Taken f r f'
        ∧ At lk m0 f' (m.set r (Arm.narrow is64 value)) s)
      Exhausted := by
  unfold emit_load_immediate
  rw [if_neg h0]
  refine Triple.bind resultReg_any fun reg => ?_
  refine Triple.exists fun f' htaken => ?_
  have hne : reg ≠ 31 := by
    have := htaken.bounds hf
    omega
  exact Triple.bind (emitValue_triple hne) fun _ =>
    Triple.pure fun s h => ⟨f', htaken, h⟩

theorem emit_load_immediate_no_xzr_triple {is64 : Bool}
    {value : BitVec 64} {dst : Nat} (hdst : dst ≠ 31) :
    Triple (At lk m0 f m) (emit_load_immediate_no_xzr is64 value dst)
      (fun _ => At lk m0 f (m.set dst (Arm.narrow is64 value))) F := by
  unfold emit_load_immediate_no_xzr
  refine Triple.bind (emit_load_immediate_triple hdst) fun r => ?_
  intro s hs
  rcases hs with ⟨h0, rfl, hs⟩ | ⟨rfl, hs⟩
  · rw [if_pos rfl, h0,
      show Arm.narrow is64 0 = 0 by cases is64 <;> rfl, ← step_movz_zero]
    exact emit_triple (F := F) _ s hs
  · rw [if_neg (show r ≠ XZR from hdst)]
    exact hs

-- ====================================================== displacements

/-- A value whose bits all lie in twelve, taken out and put back. -/
theorem shifted_twelve {d : BitVec 64} (h : d &&& 0xFFFFFFFFFF000FFF = 0) :
    ((d >>> 12).setWidth 12).setWidth 64 <<< 12 = d := by
  have hmask : ∀ i < 64, (0xFFFFFFFFFF000FFF#64).getLsbD i
      = decide (i < 12 ∨ 24 ≤ i) := by decide
  apply BitVec.eq_of_getLsbD_eq
  intro i hi
  have hbit := congrArg (BitVec.getLsbD · i) h
  have hout : (i < 12 ∨ 24 ≤ i) → d.getLsbD i = false := by
    intro hcase
    simpa [hmask i hi, hcase] using hbit
  rw [BitVec.getLsbD_shiftLeft, BitVec.getLsbD_setWidth,
    BitVec.getLsbD_setWidth, BitVec.getLsbD_ushiftRight]
  by_cases hin : 12 ≤ i ∧ i < 24
  · rw [show 12 + (i - 12) = i by omega]
    simp only [hi, decide_true, Bool.true_and]
    rw [decide_eq_false (by omega), decide_eq_true (by omega),
      decide_eq_true (by omega)]
    simp
  · rw [hout (by omega)]
    by_cases hlow : i < 12
    · simp [hlow]
    · rw [decide_eq_false (by omega : ¬ i - 12 < 12)]
      simp

theorem unshifted_twelve {d : BitVec 64} (h : d < 0x1000) :
    (d.setWidth 12).setWidth 64 = d := by
  have hlt : d.toNat < 0x1000 := h
  apply BitVec.eq_of_toNat_eq
  rw [BitVec.toNat_setWidth, BitVec.toNat_setWidth]
  omega

/-- Adding the encoded displacement is adding the displacement. -/
theorem dispEncoding_spec {d : BitVec 64} {e : DispEncoding}
    (h : dispEncoding d = some e) (b : BitVec 64) :
    Arm.addSub (!e.isAdd) b
      (e.imm12.setWidth 64 <<< (if e.shifted then 12 else 0))
        = b + d := by
  have hneg : b - -d = b + d := by
    rw [BitVec.sub_eq_add_neg, BitVec.neg_neg]
  unfold dispEncoding at h
  split at h
  · next hd =>
    cases h
    simp [Arm.addSub, unshifted_twelve hd]
  · split at h
    · next hd =>
      cases h
      simp [Arm.addSub, shifted_twelve hd]
    · split at h
      · next hd =>
        cases h
        simp only [Arm.addSub, Bool.not_false, if_true,
          Bool.false_eq_true, if_false, BitVec.shiftLeft_zero,
          unshifted_twelve hd, hneg]
      · split at h
        · next hd =>
          cases h
          simp only [Arm.addSub, Bool.not_false, if_true,
            shifted_twelve hd, hneg]
        · cases h

-- ============================================================ results

/-- The register that an address is returned in, asked for in `dst` or
anywhere: a guest register as it was, one taken from the free ones, or
`dst`. Only free registers and `dst` have been written. -/
structure Held (dst : Nat) (f : BitVec 32) (m : Arm.Machine)
    (v : BitVec 64) (r : Nat) (f' : BitVec 32) (m' : Arm.Machine) :
    Prop where
  value : m'.reg r = v
  ne : r ≠ 31
  keeps : Arm.Keeps (fun q => f.getLsbD q = true ∨ q = dst) m m'
  owner : (r < 16 ∧ f' = f ∧ m' = m) ∨ (dst = 31 ∧ Taken f r f')
    ∨ (r = dst ∧ f' = f)

/-- An emitter that leaves an address in a register. -/
def Yields (lk : Link) (m0 : Arm.Machine) (dst : Nat) (f : BitVec 32)
    (m : Arm.Machine) (v : BitVec 64) (e : Asm Nat) : Prop :=
  Triple (At lk m0 f m) e
    (fun r s => ∃ f' m', Held dst f m v r f' m' ∧ At lk m0 f' m' s)
    Exhausted

variable {dst : Nat}

/-- A register a caller may ask for: one of the guest's, a scratch
register that it holds, or any (31). -/
def Hint (f : BitVec 32) (dst : Nat) : Prop :=
  dst < 16 ∨ dst = 31
    ∨ (is_scratch_pool_reg dst = true ∧ f.getLsbD dst = false)

/-- What a caller names is not free. -/
theorem Hint.owned (h : Hint f dst) (hf : InPool f) (hd : dst ≠ 31) :
    f.getLsbD dst = false := by
  rcases h with hg | hd' | ⟨-, hown⟩
  · by_contra hfree
    have := pool_bounds (hf dst (by simpa using hfree))
    omega
  · exact absurd hd' hd
  · exact hown

/-- A register for the intermediate sum and one for the result. -/
structure Pair (dst : Nat) (f : BitVec 32) (a b : Nat)
    (f' : BitVec 32) : Prop where
  lo : 22 ≤ a
  hi : a ≤ 29
  ne : b ≠ 31
  first : f.getLsbD a = true ∨ a = dst
  second : f.getLsbD b = true ∨ b = dst
  origin : (Taken f a f' ∧ dst = 31 ∧ b = a)
    ∨ (Taken f a f' ∧ a ≠ dst ∧ b = dst)
    ∨ (a = dst ∧ b = dst ∧ f' = f)

/-- The two registers of `scratchFor`. -/
theorem scratchFor_triple (hf : InPool f) :
    Triple (At lk m0 f m) (scratchFor dst)
      (fun p s => ∃ f', Pair dst f p.1 p.2 f' ∧ At lk m0 f' m s)
      Exhausted := by
  unfold scratchFor
  split
  · next hp =>
    have hd := pool_bounds hp
    have hpair : Pair dst f dst dst f :=
      ⟨hd.1, hd.2, by omega, .inr rfl, .inr rfl,
        .inr (.inr ⟨rfl, rfl, rfl⟩)⟩
    exact Triple.pure fun s h => ⟨f, hpair, h⟩
  · next hp =>
    refine Triple.bind alloc_free_gpr_triple fun a => ?_
    refine Triple.exists fun f' ht => ?_
    have ha := ht.bounds hf
    have hpair : Pair dst f a (if dst = 31 then a else dst) f' := by
      by_cases hd : dst = 31
      · rw [if_pos hd]
        exact ⟨ha.1, ha.2, by omega, .inl ht.was, .inl ht.was,
          .inl ⟨ht, hd, rfl⟩⟩
      · rw [if_neg hd]
        have hne : a ≠ dst := by
          rintro rfl
          exact hp (ht.pool hf)
        exact ⟨ha.1, ha.2, hd, .inl ht.was, .inr rfl,
          .inr (.inl ⟨ht, hne, rfl⟩)⟩
    exact Triple.pure fun s h => ⟨f', hpair, h⟩

/-- The sum is in place: the intermediate register goes back. -/
theorem releaseInto_yields {a b : Nat} {f' : BitVec 32}
    {m' : Arm.Machine} {v : BitVec 64} (hf : InPool f)
    (hp : Pair dst f a b f') (hv : m'.reg b = v)
    (hk : Arm.Keeps (fun q => f.getLsbD q = true ∨ q = dst)
      m m') :
    Triple (At lk m0 f' m') (releaseInto a b)
      (fun r s => ∃ f' m', Held dst f m v r f' m' ∧ At lk m0 f' m' s)
      Exhausted := by
  unfold releaseInto
  rcases hp.origin with ⟨ht, hd, hb⟩ | ⟨ht, hne, hb⟩ | ⟨ha, hb, rfl⟩
  · rw [if_neg (not_not_intro hb.symm)]
    exact Triple.pure fun s h =>
      ⟨f', m', ⟨hv, hp.ne, hk, .inr (.inl ⟨hd, hb ▸ ht⟩)⟩, h⟩
  · rw [if_pos (hb ▸ hne)]
    exact Triple.bind (free_gpr_pool ht hf) fun _ =>
      Triple.pure fun s h =>
        ⟨f, m', ⟨hv, hp.ne, hk, .inr (.inr ⟨hb, rfl⟩)⟩, h⟩
  · rw [if_neg (by omega)]
    exact Triple.pure fun s h =>
      ⟨f', m', ⟨hv, hp.ne, hk, .inr (.inr ⟨hb, rfl⟩)⟩, h⟩

/-- The register asked for, or one taken, and a value put there. -/
theorem resultReg_body {v : BitVec 64} {body : Nat → Asm Unit}
    (hf : InPool f) (hdst : Hint f dst)
    (hbody : ∀ r f', r ≠ 31 → InPool f' → f'.getLsbD r = false →
      Triple (At lk m0 f' m) (body r)
        (fun _ s => ∃ m', (m'.reg r = v
            ∧ Arm.Keeps (fun q => f'.getLsbD q = true ∨ q = r) m m')
          ∧ At lk m0 f' m' s) Exhausted) :
    Yields lk m0 dst f m v (do
      let r ← resultReg dst
      body r
      Pure.pure r) := by
  by_cases hd : dst = 31
  · subst hd
    refine Triple.bind resultReg_any fun r => ?_
    refine Triple.exists fun f' ht => ?_
    have hr := ht.bounds hf
    have hne : r ≠ 31 := by omega
    refine Triple.bind (hbody r f' hne (ht.inPool hf) ht.gone) fun _ => ?_
    refine Triple.exists fun m' ⟨hv, hk⟩ => Triple.pure fun s h => ?_
    refine ⟨f', m', ⟨hv, hne, hk.mono ?_, .inr (.inl ⟨rfl, ht⟩)⟩, h⟩
    rintro q (hq | rfl)
    · exact .inl (ht.sub hq)
    · exact .inl ht.was
  · have hown : f.getLsbD dst = false := hdst.owned hf hd
    rw [resultReg_given hd]
    refine Triple.bind (Q := fun r s => r = dst ∧ At lk m0 f m s)
      (Triple.pure fun s h => ⟨rfl, h⟩) fun r => ?_
    refine Triple.and_of fun hr => ?_
    subst hr
    refine Triple.bind (hbody r f hd hf hown) fun _ => ?_
    refine Triple.exists fun m' ⟨hv, hk⟩ => Triple.pure fun s h => ?_
    exact ⟨f, m', ⟨hv, hd, hk, .inr (.inr ⟨rfl, rfl⟩)⟩, h⟩

/-- One instruction into the register asked for. -/
theorem resultReg_yields {v : BitVec 64} {i : Nat → Arm.Instr}
    (hf : InPool f) (hdst : Hint f dst)
    (hi : ∀ r, r ≠ 31 → Arm.step m (i r) = m.set r v) :
    Yields lk m0 dst f m v (do
      let r ← resultReg dst
      emit (i r)
      Pure.pure r) := by
  refine resultReg_body hf hdst fun r f' hne _ _ => ?_
  refine (emit_triple (F := Exhausted) (i r)).conseq (fun _ h => h)
    (fun _ s h => ?_) fun _ h => h
  rw [hi r hne] at h
  exact ⟨_, ⟨Arm.reg_set_self hne, (Arm.Keeps.refl m).set (.inr rfl)⟩, h⟩

-- ========================================================== the cases

theorem regIndex_lt (r : BitVec 8) : regIndex r < 16 := by
  unfold regIndex
  split
  · exact Nat.lt_of_le_of_lt (Nat.and_le_right) (by decide)
  · exact Nat.lt_of_le_of_lt (Nat.and_le_right) (by decide)

/-- A guest register as the machine holds it. -/
theorem Holds.ne {r : BitVec 8} : regIndex r ≠ 31 := by
  have := regIndex_lt r
  omega

theorem step_addDisp {w : Bool} {d : BitVec 64} {e : DispEncoding}
    {rn rd : Nat} (h : dispEncoding d = some e) (hn : rn ≠ 31)
    (hd : rd ≠ 31) :
    Arm.step m (addDisp w e rn rd)
      = m.set rd (Arm.narrow w (m.reg rn + d)) := by
  rw [addDisp, Arm.step, Arm.setSp_of_ne hd, Arm.regSp_of_ne hn,
    dispEncoding_spec h]

theorem step_addShifted {w : Bool} {rm rn rd : Nat}
    {amount : BitVec 6} :
    Arm.step m (.addSubShifted w false rm amount rn rd)
      = m.set rd (Arm.narrow w
          (m.reg rn + m.reg rm <<< amount.toNat)) := rfl

theorem step_add {w : Bool} {rm rn rd : Nat} :
    Arm.step m (.addSubShifted w false rm 0 rn rd)
      = m.set rd (Arm.narrow w (m.reg rn + m.reg rm)) := by
  rw [step_addShifted]
  simp

theorem step_mov {w : Bool} {rm rd : Nat} :
    Arm.step m (.logicalReg w .orr rm XZR rd)
      = m.set rd (Arm.narrow w (m.reg rm)) := by
  have hzero : m.reg XZR = 0 := rfl
  simp [Arm.step, Arm.Logical.eval, hzero]

/-- A left shift, as the move of a bit field. -/
theorem step_lsl {w : Bool} {s rn rd : Nat} (h0 : s ≠ 0) (h3 : s ≤ 3) :
    Arm.step m (.bitfield w false
        (BitVec.ofNat 6 ((if w then 64 else 32) - s))
        (BitVec.ofNat 6 ((if w then 64 else 32) - s - 1)) rn rd)
      = m.set rd (Arm.narrow w (m.reg rn <<< s)) := by
  rw [Arm.step]
  congr 1
  apply BitVec.eq_of_getLsbD_eq
  intro i hi
  have hs : s = 1 ∨ s = 2 ∨ s = 3 := by omega
  cases w <;> rcases hs with rfl | rfl | rfl <;>
    simp [Arm.narrow, Arm.bitfieldEval, BitVec.getLsbD_shiftLeft,
      BitVec.getLsbD_setWidth, hi] <;>
    grind

/-- The scale of an index, as x86 encodes it. -/
def Scaled (op : IROperand) : Prop := op.shiftAmount.toNat ≤ 3

variable {op : IROperand} {w : Bool}

theorem shift_toNat (h : Scaled op) :
    (op.shiftAmount.setWidth 6).toNat = op.shiftAmount.toNat := by
  have : op.shiftAmount.toNat ≤ 3 := h
  rw [BitVec.toNat_setWidth]
  omega

/-- The registers of an address are neither scratch nor the result of an
earlier step into one. -/
theorem reg_after_scratch {a : Nat} {r : BitVec 8} {v : BitVec 64}
    (ha : 22 ≤ a) : (m.set a v).reg (regIndex r) = m.reg (regIndex r) := by
  have := regIndex_lt r
  exact Arm.reg_set_of_ne (by omega)

theorem baseIndexAddress_yields (hf : InPool f) (hdst : Hint f dst)
    (hs : Scaled op) :
    Yields lk m0 dst f m (Arm.narrow w (m.reg (regIndex op.baseReg)
        + m.reg (regIndex op.indexReg) <<< op.shiftAmount.toNat
        + op.value))
      (baseIndexAddress w op dst) := by
  unfold baseIndexAddress
  split
  · refine Triple.bind (scratchFor_triple hf) ?_
    rintro ⟨a, b⟩
    refine Triple.exists fun f' hp => ?_
    dsimp only at hp ⊢
    have hane : a ≠ 31 := by
      have := hp.hi
      omega
    -- the sum, whichever way it is built
    have hsum : Triple (At lk m0 f' m) (baseIndexSum w op a b)
        (fun _ s => ∃ m', (m'.reg b = Arm.narrow w
            (m.reg (regIndex op.baseReg)
              + m.reg (regIndex op.indexReg) <<< op.shiftAmount.toNat
              + op.value)
          ∧ Arm.Keeps (fun q => f.getLsbD q = true ∨ q = dst)
            m m') ∧ At lk m0 f' m' s) Exhausted := by
      unfold baseIndexSum
      dsimp only
      split
      · next e he =>
        refine Triple.bind (emit_triple _) fun _ => ?_
        rw [step_addDisp he Holds.ne hane]
        refine (emit_triple (F := Exhausted) _).conseq
          (fun _ h => h) (fun _ s h => ⟨_, ⟨?_, ?_⟩, h⟩) fun _ h => h
        · rw [step_addShifted, Arm.reg_set_self hp.ne,
            Arm.reg_set_self hane, reg_after_scratch hp.lo,
            shift_toNat hs, Arm.narrow_add_left]
          congr 1
          ac_rfl
        · exact ((Arm.Keeps.refl m).set hp.first).set hp.second
      · refine Triple.bind
          (emit_load_immediate_no_xzr_triple hane) fun _ => ?_
        refine Triple.bind (emit_triple _) fun _ => ?_
        refine (emit_triple (F := Exhausted) _).conseq
          (fun _ h => h) (fun _ s h => ⟨_, ⟨?_, ?_⟩, h⟩) fun _ h => h
        · rw [step_add, Arm.reg_set_self hp.ne, step_addShifted,
            Arm.reg_set_self hane, reg_after_scratch hp.lo,
            reg_after_scratch hp.lo, Arm.reg_set_self hane,
            reg_after_scratch hp.lo, shift_toNat hs, Arm.narrow_add_left,
            Arm.narrow_add_right]
          congr 1
          ac_rfl
        · exact (((Arm.Keeps.refl m).set hp.first).set hp.first).set
            hp.second
    refine Triple.bind hsum fun _ => ?_
    refine Triple.exists fun m' ⟨hv, hk⟩ => ?_
    exact releaseInto_yields hf hp hv hk
  · next h0 =>
    have h0 : op.value = 0 := Decidable.not_not.mp h0
    refine resultReg_yields hf hdst fun r hr => ?_
    simp [Arm.step, shift_toNat hs, h0, Arm.addSub]

theorem baseAddress_yields (hf : InPool f) (hdst : Hint f dst) :
    Yields lk m0 dst f m
      (Arm.narrow w (m.reg (regIndex op.baseReg) + op.value))
      (baseAddress w op dst) := by
  unfold baseAddress
  dsimp only
  split
  · split
    · refine Triple.bind (scratchFor_triple hf) ?_
      rintro ⟨a, b⟩
      refine Triple.exists fun f' hp => ?_
      dsimp only at hp ⊢
      have hane : a ≠ 31 := by
        have := hp.hi
        omega
      refine Triple.bind
        (emit_load_immediate_no_xzr_triple hane) fun _ => ?_
      refine Triple.bind (emit_triple _) fun _ => ?_
      rw [step_add, Arm.reg_set_self hane, reg_after_scratch hp.lo,
        Arm.narrow_add_right]
      exact releaseInto_yields hf hp (Arm.reg_set_self hp.ne)
        (((Arm.Keeps.refl m).set hp.first).set hp.second)
    · next e he =>
      exact resultReg_yields hf hdst fun r hr =>
        step_addDisp he Holds.ne hr
  · next h0 =>
    have h0 : op.value = 0 := Decidable.not_not.mp h0
    have hsum : m.reg (regIndex op.baseReg) + op.value
        = m.reg (regIndex op.baseReg) := by
      rw [h0]
      simp
    rw [hsum]
    cases w with
    | true =>
        exact Triple.pure fun s h => ⟨f, m, ⟨rfl, Holds.ne,
          Arm.Keeps.refl m, .inl ⟨regIndex_lt _, rfl, rfl⟩⟩, h⟩
    | false => exact resultReg_yields hf hdst fun r _ => step_mov

theorem indexAddress_yields (hf : InPool f) (hdst : Hint f dst)
    (hs : Scaled op) :
    Yields lk m0 dst f m (Arm.narrow w
        (m.reg (regIndex op.indexReg) <<< op.shiftAmount.toNat
          + op.value))
      (indexAddress w op dst) := by
  unfold indexAddress
  dsimp only
  split
  · refine Triple.bind (scratchFor_triple hf) ?_
    rintro ⟨a, b⟩
    refine Triple.exists fun f' hp => ?_
    dsimp only at hp ⊢
    have hane : a ≠ 31 := by
      have := hp.hi
      omega
    refine Triple.bind
      (emit_load_immediate_no_xzr_triple hane) fun _ => ?_
    refine Triple.bind (emit_triple _) fun _ => ?_
    rw [step_addShifted, Arm.reg_set_self hane, reg_after_scratch hp.lo,
      shift_toNat hs, Arm.narrow_add_left]
    refine releaseInto_yields hf hp ?_
      (((Arm.Keeps.refl m).set hp.first).set hp.second)
    rw [Arm.reg_set_self hp.ne, BitVec.add_comm]
  · next h0 =>
    have h0 : op.value = 0 := Decidable.not_not.mp h0
    rw [show m.reg (regIndex op.indexReg) <<< op.shiftAmount.toNat
        + op.value
      = m.reg (regIndex op.indexReg) <<< op.shiftAmount.toNat by
        rw [h0]; simp]
    split
    · next hshift =>
      exact resultReg_yields hf hdst fun r _ => step_lsl hshift hs
    · next hshift =>
      have hshift : op.shiftAmount.toNat = 0 :=
        Decidable.not_not.mp hshift
      rw [hshift, BitVec.shiftLeft_zero]
      cases w with
      | true =>
          exact Triple.pure fun s h => ⟨f, m, ⟨rfl, Holds.ne,
            Arm.Keeps.refl m, .inl ⟨regIndex_lt _, rfl, rfl⟩⟩, h⟩
      | false => exact resultReg_yields hf hdst fun r _ => step_mov

theorem dispAddress_yields (hf : InPool f) (hdst : Hint f dst) :
    Yields lk m0 dst f m (Arm.narrow w op.value) (dispAddress w op dst) := by
  unfold dispAddress
  split
  · next h0 =>
    by_cases hd : dst = 31
    · subst hd
      refine (emit_load_immediate_any hf h0).conseq (fun _ h => h) ?_
        fun _ h => h
      rintro r s ⟨f', ht, h⟩
      have hr := ht.bounds hf
      have hne : r ≠ 31 := by omega
      exact ⟨f', _, ⟨Arm.reg_set_self hne, hne,
        (Arm.Keeps.refl m).set (.inl ht.was),
        .inr (.inl ⟨rfl, ht⟩)⟩, h⟩
    · refine (emit_load_immediate_triple (F := Exhausted) hd).conseq
        (fun _ h => h) ?_ fun _ h => h
      rintro r s (⟨hz, -⟩ | ⟨rfl, h⟩)
      · exact absurd hz h0
      · exact ⟨f, _, ⟨Arm.reg_set_self hd, hd,
          (Arm.Keeps.refl m).set (.inr rfl), .inr (.inr ⟨rfl, rfl⟩)⟩, h⟩
  · next h0 =>
    have h0 : op.value = 0 := Decidable.not_not.mp h0
    rw [h0, show Arm.narrow w 0 = 0 by cases w <;> rfl]
    exact resultReg_yields hf hdst fun r _ => step_movz_zero

/-- An absolute address. -/
theorem absoluteAddress_yields (hf : InPool f) (hdst : Hint f dst) :
    Yields lk m0 dst f m (Arm.narrow w op.value)
      (absoluteAddress w op dst) := by
  refine resultReg_body hf hdst fun r f' hne _ _ => ?_
  refine (emit_load_immediate_no_xzr_triple (F := Exhausted) hne).conseq
    (fun _ h => h) (fun _ s h => ⟨_, ⟨?_, ?_⟩, h⟩) fun _ h => h
  · exact Arm.reg_set_self hne
  · exact (Arm.Keeps.refl m).set (.inr rfl)

-- ================================================ an address fixed up

theorem getLsbD_page (a : BitVec 64) {i : Nat} (hi : i < 64) :
    (page a).getLsbD i = (a.getLsbD i && decide (12 ≤ i)) := by
  have hmask : ∀ i < 64, (~~~0xFFF#64).getLsbD i = decide (12 ≤ i) := by
    decide
  unfold page
  rw [BitVec.getLsbD_and, hmask i hi]

/-- An address is its page and the offset in it. -/
theorem page_add_offset (a : BitVec 64) :
    page a + (a.setWidth 12).setWidth 64 = a := by
  have hoff : ∀ i < 64, ((a.setWidth 12).setWidth 64).getLsbD i
      = (a.getLsbD i && decide (i < 12)) := by
    intro i hi
    rw [BitVec.getLsbD_setWidth, BitVec.getLsbD_setWidth]
    by_cases h : i < 12 <;> simp [hi, h]
  have hdisj : page a &&& (a.setWidth 12).setWidth 64 = 0 := by
    apply BitVec.eq_of_getLsbD_eq
    intro i hi
    rw [BitVec.getLsbD_and, getLsbD_page a hi, hoff i hi]
    by_cases h : i < 12
    · simp [h]
    · simp [h]
  rw [BitVec.add_eq_or_of_and_eq_zero _ _ hdisj]
  apply BitVec.eq_of_getLsbD_eq
  intro i hi
  rw [BitVec.getLsbD_or, getLsbD_page a hi, hoff i hi]
  by_cases h : i < 12
  · simp [h]
  · simp [h, Nat.not_lt.mp h]

/-- The address of an `Immediate` operand. -/
def immediateOffset (lk : Link) (op : IROperand) : BitVec 64 :=
  lk.address (fixupTarget op) + if op.hasBase then 0 else op.value

theorem addRuntime_triple {r : Nat} (hf : InPool f) (hne : r ≠ 31)
    (hown : f.getLsbD r = false) :
    Triple (At lk m0 f m) (addRuntime w op r)
      (fun _ s => ∃ m', (m'.reg r = (if op.hasBase then m.reg r
            else Arm.narrow w (m.reg r + op.value))
          ∧ Arm.Keeps (fun q => f.getLsbD q = true ∨ q = r) m m')
        ∧ At lk m0 f m' s) Exhausted := by
  unfold addRuntime
  by_cases hb : op.hasBase = true
  · rw [if_pos hb, if_pos hb]
    exact Triple.pure fun s h => ⟨m, ⟨rfl, Arm.Keeps.refl m⟩, h⟩
  · rw [if_neg hb, if_neg hb]
    refine Triple.bind alloc_free_gpr_triple fun a => ?_
    refine Triple.exists fun f' ht => ?_
    have ha := ht.bounds hf
    have hane : a ≠ 31 := by omega
    have har : r ≠ a := by
      rintro rfl
      rw [ht.was] at hown
      cases hown
    refine Triple.bind (emit_load_immediate_no_xzr_triple hane) fun _ => ?_
    refine Triple.bind (emit_triple _) fun _ => ?_
    refine (free_gpr_pool (F := Exhausted) ht hf).conseq (fun _ h => h)
      (fun _ s h => ⟨_, ⟨?_, ?_⟩, h⟩) fun _ h => h
    · rw [step_add, Arm.reg_set_self hne, Arm.reg_set_self hane,
        Arm.reg_set_of_ne har]
      rfl
    · exact ((Arm.Keeps.refl m).set (.inl ht.was)).set (.inr rfl)

/-- An address that fixups complete, and an addend. -/
theorem immediateAddress_yields (hf : InPool f) (hdst : Hint f dst) :
    Yields lk m0 dst f m (Arm.narrow w (immediateOffset lk op))
      (immediateAddress w op dst) := by
  have hbody : ∀ r f', r ≠ 31 → InPool f' → f'.getLsbD r = false →
      Triple (At lk m0 f' m) (do
          emitFixed .arm64Page21 (fixupTarget op) (.adrp r)
          emitFixed .arm64PageOffset12 (fixupTarget op)
            (.insn (.addSubImm w false false 0 r r))
          addRuntime w op r)
        (fun _ s => ∃ m', (m'.reg r = Arm.narrow w (immediateOffset lk op)
            ∧ Arm.Keeps (fun q => f'.getLsbD q = true ∨ q = r) m m')
          ∧ At lk m0 f' m' s) Exhausted := by
    intro r f' hne hf' hown
    refine Triple.bind adrp_triple fun _ => ?_
    refine Triple.bind pageOffset_triple fun _ => ?_
    have hstep : Arm.step (m.set r (page (lk.address (fixupTarget op))))
        (.addSubImm w false false
          ((lk.address (fixupTarget op)).setWidth 12) r r)
        = m.set r (Arm.narrow w (lk.address (fixupTarget op))) := by
      rw [Arm.step, Arm.setSp_of_ne hne, Arm.regSp_of_ne hne,
        Arm.reg_set_self hne, Arm.set_set]
      simp [Arm.addSub, page_add_offset]
    rw [hstep]
    refine (addRuntime_triple hf' hne hown).conseq (fun _ h => h)
      ?_ fun _ h => h
    rintro _ s ⟨m', ⟨hv, hk⟩, h⟩
    refine ⟨m', ⟨?_, ?_⟩, h⟩
    · rw [hv, Arm.reg_set_self hne]
      unfold immediateOffset
      by_cases hb : op.hasBase = true
      · rw [if_pos hb, if_pos hb]
        simp
      · rw [if_neg hb, if_neg hb, Arm.narrow_add_left]
    · exact ((Arm.Keeps.refl m).set (.inr rfl)).trans hk
  exact resultReg_body hf hdst hbody

-- ============================================= the offset of an operand

/-- The offset an operand names: base, scaled index and displacement, an
absolute address, or an address fixed up and an addend. -/
def operandOffset (lk : Link) (regs : Nat → BitVec 64) (op : IROperand) :
    BitVec 64 :=
  match op.kind with
  | .memRef =>
      (if op.hasBase then regs (regIndex op.baseReg) else 0)
        + (if op.hasIndex then
            regs (regIndex op.indexReg) <<< op.shiftAmount.toNat
           else 0)
        + op.value
  | .immediate => immediateOffset lk op
  | _ => op.value

/-- The kinds of operand that have an address. -/
def HasAddress (op : IROperand) : Prop :=
  op.kind = .memRef ∨ op.kind = .absMem ∨ op.kind = .immediate

/-- The offset of an operand of any kind, at the width of the address. -/
theorem kindAddress_yields (hf : InPool f) (hdst : Hint f dst)
    (hs : Scaled op) (hk : HasAddress op) :
    Yields lk m0 dst f m (Arm.narrow w (operandOffset lk m.reg op))
      (kindAddress w op dst) := by
  unfold kindAddress operandOffset
  rcases hk with hk | hk | hk
  · rw [hk]
    dsimp only
    unfold compute_mem_operand_address
    cases hb : op.hasBase <;> cases hi : op.hasIndex <;>
      simp only [Bool.false_eq_true, if_false, if_true]
    · simpa using dispAddress_yields hf hdst
    · simpa using indexAddress_yields hf hdst hs
    · simpa using baseAddress_yields hf hdst
    · exact baseIndexAddress_yields hf hdst hs
  · rw [hk]
    exact absoluteAddress_yields hf hdst
  · rw [hk]
    exact immediateAddress_yields hf hdst

end Asm

end X87Sidecar
