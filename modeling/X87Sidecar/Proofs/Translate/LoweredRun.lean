/-
From a run of instructions down to memory.

A run's units are lowered piece by piece behind the code that sets up the
base. What memory holds when the run is over is what the machine that puts
nothing off holds.
-/
import X87Sidecar.Proofs.Translate.Lowered
import X87Sidecar.Proofs.Translate.DeferredRun

namespace X87Sidecar.Helpers

open Lib Lib.Cpu Lines

variable {ρ : Regs} {G : Guest → Cpu → Prop} {P : Places} {m : Machine}
  {c : Cpu} {env : Env}

-- ============================================================== the base

/-- What the allocator guarantees of the registers that stay, and the
offset fits its two immediates. -/
structure Regs.Sound (ρ : Regs) : Prop where
  nodup : ρ.reserved.Nodup
  base : ρ.base ∈ ρ.pool
  st : ∀ s ∈ ρ.st, s ∈ ρ.pool
  offset : ρ.offset < 2 ^ 24

/-- `emit_x87_base` adds the offset, in one instruction or two. -/
theorem run_x87_base {offset Xd : Nat} (h31 : Xd ≠ 31)
    (h : offset < 2 ^ 24) :
    run (lines (emit_x87_base offset Xd)) c
      = c.set Xd (c.reg kX87ThreadReg + BitVec.ofNat 64 offset) := by
  have h18 : kX87ThreadReg ≠ 31 := by decide
  have hlow : ∀ n, n < 2 ^ 12 →
      (BitVec.ofNat 12 n).setWidth 64 = BitVec.ofNat 64 n := by
    intro n hn
    apply BitVec.eq_of_toNat_eq
    simp only [BitVec.toNat_setWidth, BitVec.toNat_ofNat]
    omega
  have hhigh : ∀ n, n < 2 ^ 12 →
      (BitVec.ofNat 12 n).setWidth 64 <<< 12
        = BitVec.ofNat 64 (0x1000 * n) := by
    intro n hn
    apply BitVec.eq_of_toNat_eq
    simp only [BitVec.toNat_setWidth, BitVec.toNat_ofNat,
      BitVec.toNat_shiftLeft, Nat.shiftLeft_eq]
    omega
  have hdiv : offset / 0x1000 < 2 ^ 12 := by omega
  have hmod : offset % 0x1000 < 2 ^ 12 := by omega
  have hsum : 0x1000 * (offset / 0x1000) + offset % 0x1000 = offset :=
    Nat.div_add_mod _ _
  unfold emit_x87_base
  split
  · rename_i hle
    simp only [emit_add_imm, lines_insn, lines_nil, runCode_cons,
      runCode_nil, step, step_addSubImm h18 h31, Bool.false_eq_true,
      if_false, BitVec.shiftLeft_zero, hlow _ (by omega : offset < 2 ^ 12)]
    rfl
  · split
    · rename_i hz
      simp only [emit_add_imm, lines_insn, lines_nil, runCode_cons,
        runCode_nil, step, step_addSubImm h18 h31, Bool.false_eq_true,
        if_false, if_true, hhigh _ hdiv]
      rw [show 0x1000 * (offset / 0x1000) = offset by omega]
      rfl
    · simp only [emit_add_imm, lines_insn, lines_nil, runCode_cons,
        runCode_nil, step, step_addSubImm h18 h31, step_addSubImm h31 h31,
        if_true, Bool.false_eq_true, if_false, BitVec.shiftLeft_zero,
        hhigh _ hdiv, hlow _ hmod, reg_set_self h31, set_set]
      congr 1
      show c.reg kX87ThreadReg + BitVec.ofNat 64 _ + BitVec.ofNat 64 _ = _
      rw [add_assoc, ← BitVec.ofNat_add, hsum]

/-- The pinned address of the slots. -/
theorem run_base (hρ : ρ.Sound) :
    run (lines (emit_base ρ)) c
      = ρ.st.toList.foldl (fun c s => c.set s (c.reg ρ.base
          + BitVec.ofNat 64 (if ρ.native then 6 else 8)))
        (c.set ρ.base (c.reg kX87ThreadReg
          + BitVec.ofNat 64 ρ.offset)) := by
  obtain ⟨hb, -, -, hs31⟩ := Regs.apart hρ.nodup
  rw [emit_base, run_lines_append, run_x87_base hb hρ.offset]
  cases hst : ρ.st with
  | none => rfl
  | some s =>
      simp only [Option.toList_some, List.map_cons, List.map_nil,
        List.foldl_cons, List.foldl_nil, emit_add_imm, lines_insn,
        lines_nil, runCode_cons, runCode_nil, step, Bool.false_eq_true,
        if_false, step_addSubImm hb (hs31 s hst), BitVec.shiftLeft_zero]
      cases ρ.native <;> rfl

/-- What the code that sets up the base leaves. -/
theorem base_spec (hρ : ρ.Sound) :
    ∃ c₁, run (lines (emit_base ρ)) c = c₁
      ∧ c₁.reg ρ.base = c.reg kX87ThreadReg + BitVec.ofNat 64 ρ.offset
      ∧ (∀ s ∈ ρ.st, c₁.reg s
        = c₁.reg ρ.base + BitVec.ofNat 64 (if ρ.native then 6 else 8))
      ∧ Wrote (ρ.base :: ρ.st.toList) [] c c₁ ∧ c₁.mem = c.mem := by
  obtain ⟨hb, -, -, hs31⟩ := Regs.apart hρ.nodup
  have hst : ∀ s ∈ ρ.st, ρ.base ≠ s := by
    rintro s hs rfl
    have hnd := hρ.nodup
    unfold Regs.reserved at hnd
    exact List.disjoint_of_nodup_append hnd (by simp)
      (Option.mem_toList.mpr hs)
  refine ⟨_, rfl, ?_⟩
  rw [run_base hρ]
  cases h : ρ.st with
  | none =>
      refine ⟨reg_set_self hb, fun s hs => ?_, ?_, mem_set⟩
      · cases hs
      · exact ⟨fun r hr => reg_set_of_ne (by simpa using hr),
          fun _ _ => rfl, rfl, rfl⟩
  | some s =>
      have hne := hst s h
      simp only [Option.toList_some, List.foldl_cons, List.foldl_nil,
        reg_set_self hb]
      refine ⟨?_, ?_, ?_, ?_⟩
      · rw [reg_set_of_ne hne, reg_set_self hb]
      · rintro r hr
        obtain rfl : s = r := Option.some.inj hr
        rw [reg_set_self (hs31 s h), reg_set_of_ne hne, reg_set_self hb]
      · refine ⟨fun r hr => ?_, fun _ _ => rfl, rfl, rfl⟩
        simp only [List.mem_cons, List.not_mem_nil, or_false, not_or] at hr
        rw [reg_set_of_ne hr.2, reg_set_of_ne hr.1]
      · rw [mem_set, mem_set]

/-- Behind the code that sets up the base the state is where the base
says, and no value has a register. -/
theorem holds_base (hρ : ρ.Sound) (hG : Apart ρ G)
    (hs : State ρ.native c.mem
      (c.reg kX87ThreadReg + BitVec.ofNat 64 ρ.offset) m)
    (hg : G m.guest.hideSw c) :
    Holds ρ G .empty m (run (lines (emit_base ρ)) c)
      ∧ (run (lines (emit_base ρ)) c).reg ρ.base
        = c.reg kX87ThreadReg + BitVec.ofNat 64 ρ.offset := by
  obtain ⟨c₁, hrun, hbase, hst, hw, hmem⟩ := base_spec hρ (c := c)
  have hthread : c₁.reg kX87ThreadReg = c.reg kX87ThreadReg := by
    refine hw.reg _ fun hm => ?_
    have hnd := hρ.nodup
    unfold Regs.reserved at hnd
    simp only [List.cons_append, List.nil_append, List.nodup_cons,
      List.mem_cons, not_or] at hnd hm
    rcases hm with hm | hm
    · exact hnd.2.1.1 hm
    · exact hnd.2.1.2.2 hm
  rw [hrun]
  refine ⟨?_, hbase⟩
  exact
    { state := by
        rw [hbase, hmem]
        exact hs
      thread := by rw [hthread, hbase]
      st := hst
      top := fun h => absurd h Bool.false_ne_true
      x := Assign.holds_none
      cc := fun _ h => absurd h Bool.false_ne_true
      d := Assign.holds_none
      key := Assign.holds_none
      q := Assign.holds_none
      hold := fun _ _ h => nomatch h
      guest := by
        refine hG _ c c₁ ⟨?_, fun r hr => hw.reg r fun hm => hr ?_,
          fun r _ => hw.d r List.not_mem_nil, hw.flags, hw.flush⟩ hg
        · rw [hmem]
          exact .refl _ _
        · rcases List.mem_cons.mp hm with rfl | hm
          · exact hρ.base
          · exact hρ.st r (Option.mem_toList.mp hm) }

/-- A stretch behind the code that sets up the base: memory and the guest
are those of the machine of the units. -/
theorem stretch_lowered (hρ : ρ.Sound) (hG : Apart ρ G)
    {pieces : List Piece} {body : Cpu → Cpu}
    (hlower : lowerAll ρ pieces .empty = some (body, P))
    (hp : ∀ p ∈ pieces, p.Right ρ G)
    (hs : State ρ.native c.mem
      (c.reg kX87ThreadReg + BitVec.ofNat 64 ρ.offset) m)
    (hg : G m.guest.hideSw c) :
    State ρ.native (body (run (lines (emit_base ρ)) c)).mem
        ((body (run (lines (emit_base ρ)) c)).reg kX87ThreadReg
          + BitVec.ofNat 64 ρ.offset)
        (exec (pieces.map Piece.insn) m)
      ∧ G (exec (pieces.map Piece.insn) m).guest.hideSw
        (body (run (lines (emit_base ρ)) c)) := by
  have hall := holds_lowerAll pieces (holds_base hρ hG hs hg).1 hG hp hlower
  refine ⟨?_, hall.guest⟩
  rw [hall.thread]
  exact hall.state

/-- Registers as the allocators hand them out. -/
def handedRegs : Regs where
  native := false
  offset := 0x338
  base := 22
  top := 23
  st := some 28
  pool := [22, 23, 24, 25, 26, 27, 28]
  fpool := [24, 25, 26, 27, 28]

/-- The registers of a unit; TOP moves by one. -/
def handedTemps (is_sub : Bool) : Temps where
  tmp := 24
  tmp2 := 25
  tagw := 26
  dSave := 24
  hSave := 26
  dChain := 25
  hChain := 27
  dst := 28
  image := .fp 24 25
  sub := is_sub
  amount := 1

theorem handedTemps_apart (is_sub : Bool) :
    (handedTemps is_sub).Apart handedRegs := by
  cases is_sub <;>
    exact ⟨by decide, by decide, ⟨by decide, by decide, by decide⟩,
      by decide, by decide⟩

/-- A stack of zeros. -/
def restingCpu : Cpu where
  x _ := 0
  sp := 0
  mem := fun _ => 0
  d _ := 0
  flags := ⟨false, false, false, false⟩
  flush := 0

/-- Two images exchanged and a push, in Rosetta's layout. -/
def exchangeImages : List Piece :=
  [.loadTop, .save true 0, .move true 0 1, .restore true 1, .addTop (-1),
    .storeTop, .tagClear].map fun i => .unit i (handedTemps true)

theorem stretch_lowered_exchangeImages :
    ∃ body P, lowerAll { handedRegs with native := true } exchangeImages
        .empty = some (body, P)
      ∧ State true
        (body (run (lines (emit_base { handedRegs with native := true }))
          restingCpu)).mem
        ((body (run (lines (emit_base { handedRegs with native := true }))
          restingCpu)).reg kX87ThreadReg
          + BitVec.ofNat 64 handedRegs.offset)
        (exec (exchangeImages.map Piece.insn) (.blank 0)) := by
  refine ⟨_, _, rfl, (@stretch_lowered { handedRegs with native := true }
    (fun _ _ => True) _ (Machine.blank 0) restingCpu
    ⟨by decide, by decide, by decide, by decide⟩ (fun _ _ _ _ _ => trivial)
    exchangeImages _ rfl ?_ ⟨rfl, rfl, by decide, fun _ => by decide⟩
    trivial).1⟩
  intro p hp
  obtain ⟨i, -, rfl⟩ := List.mem_map.mp hp
  exact { handedTemps_apart true with }

-- ============================================================ the run

/-- A script's units are its steps, one after the other. -/
theorem run_script (s : Script) (st : X87Cache × Machine) :
    s.emit.run Insn.exec st = s.run st := by
  induction s generalizing st with
  | nil => rfl
  | cons a s ih =>
      show (Emit.all (a.emit :: s.map Act.emit)).run Insn.exec st = _
      rw [Emit.run_all_cons]
      exact ih _

/-- A run's units are its requests, one after the other. -/
theorem run_callsEmit (calls : List Call) (st : X87Cache × Machine) :
    (callsEmit env calls).run Insn.exec st = runCalls env calls st := by
  induction calls generalizing st with
  | nil => rfl
  | cons call calls ih =>
      have hcall : (call.emit env).run Insn.exec st = call.run env st := by
        cases hs : call.script env st.1 with
        | none =>
            have hemit : call.emit env st.1 = (st.1, []) := by
              unfold Call.emit
              rw [hs]
            have hrun : call.run env st = st := by
              unfold Call.run
              rw [hs]
            rw [hrun, Emit.run, hemit]
            rfl
        | some s =>
            have hemit : call.emit env st.1
                = ((s.emit st.1).1.tick, (s.emit st.1).2) := by
              unfold Call.emit
              rw [hs]
            have hrun : call.run env st
                = ((s.run st).1.tick, (s.run st).2) := by
              unfold Call.run
              rw [hs]
            rw [hrun, ← run_script, Emit.run, hemit]
            rfl
      show (Emit.all (call.emit env :: calls.map (Call.emit env))).run
        Insn.exec st = _
      rw [Emit.run_all_cons, hcall]
      exact ih _

/-- A run that never uses TOP is one of control word moves. -/
theorem freshRun_topUnused {transport slots : Bool}
    {fmt : Depth → X87SlotFmt} {calls : List Call}
    (h : (X87Cache.freshRun transport slots fmt calls).topUnused = true) :
    ∀ call ∈ calls,
      call.instr.opcode = .fnstcw ∨ call.instr.opcode = .fldcw := by
  have honly : (slots && onlyCw (calls.map (·.instr))) = true := by
    unfold X87Cache.freshRun X87Cache.setRun at h
    split at h
    · exact h
    · exact h
  intro call hc
  have hall := List.all_eq_true.mp (Bool.and_eq_true_iff.mp honly).2
  exact of_decide_eq_true (hall call.instr (List.mem_map_of_mem hc))

/-- `ST(0)` and `ST(2)` exchanged, and the new `ST(0)` popped into
`ST(1)`. -/
def exchangePop : List Call :=
  [⟨{ opcode := .fxch, numOperands := 2, op0 := .st 0, op1 := .st 2 },
    false⟩,
   ⟨{ opcode := .fstp_stack, numOperands := 1, op0 := .st 1 }, false⟩]

/-- The cache the exchange starts with. -/
abbrev exchangeFresh : X87Cache :=
  X87Cache.freshRun false false (fun _ => .f64) exchangePop

/-- Its units, each with the same registers. -/
def exchangePieces : List Piece :=
  (callsEmit .blank exchangePop exchangeFresh).2.map
    fun i => .unit i (handedTemps false)

end X87Sidecar.Helpers
