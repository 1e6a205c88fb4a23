/-
Entering and leaving the compact layout preserve the register file.

One slot is read from where it stands and written to where it goes
(`enter_slot_run`, `exit_slot_run`); by the order of the slots no write
reaches what is still to be read (`enter_apart`, `exit_apart`), so that
each direction is as if all slots had been read first
(`Lib.moveAll_moves`).
-/
import X87Sidecar.Lib.Repack
import X87Sidecar.Translate.Boundary
import X87Sidecar.Proofs.Translate.NativeLoad

namespace X87Sidecar.F80

open Lib Lib.Cpu Lib.Word Lines

-- ================================================== the register file

/-- The tag of a slot. -/
def tagOf (mem : Mem 64) (base : BitVec 64) (i : Nat) : Nat :=
  (mem.load (base + 4) 2).toNat / 2 ^ (2 * i) % 4

/-- The ten bytes of a slot in Rosetta's layout. -/
def nativeSlot (mem : Mem 64) (base : BitVec 64) (i : Nat) : Extended :=
  ⟨mem.load (base + BitVec.ofNat 64 (6 + 10 * i)) 8,
   mem.load (base + BitVec.ofNat 64 (14 + 10 * i)) 2⟩

/-- The double of a slot in the compact layout. -/
def compactSlot (mem : Mem 64) (base : BitVec 64) (i : Nat) : BitVec 64 :=
  mem.load (base + BitVec.ofNat 64 (8 + 8 * i)) 8

/-- What the way in reads of a slot: nothing where it is empty. -/
def enterGet (base : BitVec 64) (i : Nat) (mem : Mem 64) :
    Option (BitVec 64) :=
  if tagOf mem base i = 3 then none
  else some ((nativeSlot mem base i).toDouble false)

/-- What it writes. -/
def enterPut (base : BitVec 64) (i : Nat) : Option (BitVec 64) → Mem 64 →
    Mem 64
  | none, mem => mem
  | some b, mem => mem.store (base + BitVec.ofNat 64 (8 + 8 * i)) 8 b

/-- What the way out reads of a slot. -/
def exitGet (base : BitVec 64) (i : Nat) (mem : Mem 64) : Option Extended :=
  if tagOf mem base i = 3 then none
  else some (Double.toExtended (compactSlot mem base i))

/-- What it writes. -/
def exitPut (base : BitVec 64) (i : Nat) : Option Extended → Mem 64 →
    Mem 64
  | none, mem => mem
  | some x, mem => x.store mem (base + BitVec.ofNat 64 (6 + 10 * i))

-- ======================================================= one slot's code

theorem exec_patched {test : Test} {body : Code} {c : Cpu} :
    Cpu.exec (patched test body) (.on, c)
      = if holds c test then (.on, c) else Cpu.exec body (.on, c) := by
  unfold patched
  rw [Cpu.exec, Forward.exec_branch]
  split
  · exact Forward.exec_skip_size body 0 c
  · rfl

section
variable {c : Cpu} {base flags mant exp sign aux tmp fp i : Nat}

theorem slot_imms (hi : i < 8) :
    (BitVec.ofNat 6 (2 * i)).toNat = 2 * i
      ∧ (BitVec.ofNat 6 (2 * i + 1)).toNat = 2 * i + 1
      ∧ (BitVec.ofNat 9 (6 + 10 * i)).signExtend 64
        = BitVec.ofNat 64 (6 + 10 * i)
      ∧ (BitVec.ofNat 12 ((14 + 10 * i) / 2)).setWidth 64 * 2#64
        = BitVec.ofNat 64 (14 + 10 * i)
      ∧ (BitVec.ofNat 12 (1 + i)).setWidth 64 * 8#64
        = BitVec.ofNat 64 (8 + 8 * i)
      ∧ (BitVec.ofNat 12 (6 + 10 * i)).setWidth 64
        = BitVec.ofNat 64 (6 + 10 * i) := by
  have h : ∀ i : Fin 8, (BitVec.ofNat 6 (2 * i.val)).toNat = 2 * i.val
      ∧ (BitVec.ofNat 6 (2 * i.val + 1)).toNat = 2 * i.val + 1
      ∧ (BitVec.ofNat 9 (6 + 10 * i.val)).signExtend 64
        = BitVec.ofNat 64 (6 + 10 * i.val)
      ∧ (BitVec.ofNat 12 ((14 + 10 * i.val) / 2)).setWidth 64 * 2#64
        = BitVec.ofNat 64 (14 + 10 * i.val)
      ∧ (BitVec.ofNat 12 (1 + i.val)).setWidth 64 * 8#64
        = BitVec.ofNat 64 (8 + 8 * i.val)
      ∧ (BitVec.ofNat 12 (6 + 10 * i.val)).setWidth 64
        = BitVec.ofNat 64 (6 + 10 * i.val) := by
    decide
  exact h ⟨i, hi⟩

/-- The flags tell an empty slot. -/
theorem run_tag (hb : base ≠ 31) (he : exp ≠ 31) (hi : i < 8) :
    ∃ c', Cpu.exec (boundary_tag base exp i) (.on, c) = (.on, c')
      ∧ c'.mem = c.mem ∧ c'.flush = c.flush ∧ c'.d = c.d
      ∧ (∀ r, r ≠ exp → c'.reg r = c.reg r)
      ∧ holds c' (.cond .eq) = decide (tagOf c.mem (c.reg base) i = 3) := by
  obtain ⟨h1, h2, -, -, -, -⟩ := slot_imms hi
  have hlt := (c.mem.load (c.reg base + 4) 2).isLt
  have htag : Arm.bitfieldEval 32 false (2 * i) (2 * i + 1)
      (c.load 1 (c.reg base + 4#64))
      = word (tagOf c.mem (c.reg base) i) := by
    have hword : c.load 1 (c.reg base + 4#64)
        = word (c.mem.load (c.reg base + 4) 2).toNat := by
      apply BitVec.eq_of_toNat_eq
      exact BitVec.toNat_setWidth _ _
    rw [hword, ubfm_down (by omega) (by omega) (by omega)]
    unfold tagOf
    rw [show 2 * i + 1 - 2 * i + 1 = 2 by omega]
    rfl
  have htag' : tagOf c.mem (c.reg base) i < 4 := Nat.mod_lt _ (by decide)
  have hz := zero_cmpW (a := tagOf c.mem (c.reg base) i) (b := 3)
    (by omega) (by decide)
  have hnarrow : Arm.narrow false (word (tagOf c.mem (c.reg base) i))
      = word (tagOf c.mem (c.reg base) i) := narrow_word (by omega)
  simp [Cpu.exec, boundary_tag, hb, he, h1, h2, htag, hnarrow]
  exact ⟨fun r hr => reg_set_of_ne hr, hz⟩

/-- Code between the two flag moves: what it does to memory, and that it
keeps the rest but some registers. -/
structure Moves (regs : List Nat) (f : Mem 64 → Mem 64) (c c' : Cpu) :
    Prop where
  mem : c'.mem = f c.mem
  flush : c'.flush = c.flush
  reg : ∀ r, r ∉ regs → c'.reg r = c.reg r

/-- The conversion writes neither memory nor the register of the flush
bits, and only its own registers. -/
theorem convert_quiet (j : Cpu.Op)
    (hj : .insn j ∈ emit_f80_to_f64_convert mant exp sign aux tmp) :
    j.stores = false ∧ j.setsFlush = false
      ∧ ∀ r, j.dest = some r → r ∈ [31, mant, exp, sign, aux, tmp] := by
  revert j
  simp [emit_f80_to_f64_convert, maskOp, Cpu.Op.stores, Cpu.Op.setsFlush,
    Cpu.Op.dest]

/-- Code that binds its labels and writes neither memory nor the register
of the flush bits moves nothing. -/
theorem quiet_moves {regs : List Nat} {code : Code}
    (hclosed : Forward.closed code = true)
    (hquiet : ∀ j, .insn j ∈ code →
      j.stores = false ∧ j.setsFlush = false
      ∧ ∀ r, j.dest = some r → r ∈ 31 :: regs) :
    Cpu.exec code (.on, c) = (.on, Cpu.run code c)
      ∧ Moves regs id c (Cpu.run code c) := by
  refine ⟨Forward.exec_closed hclosed (Nat.zero_le _) c, ?_, ?_, ?_⟩
  · exact run_mem fun j hj => (hquiet j hj).1
  · exact run_flush fun j hj => (hquiet j hj).2.1
  · intro r hr
    by_cases h31 : r = 31
    · subst h31
      rw [reg_zero, reg_zero]
    · refine run_reg_of_ne fun j hj hdest => ?_
      rcases List.mem_cons.mp ((hquiet j hj).2.2 r hdest) with h | h
      · exact h31 h
      · exact hr h

/-- One slot on the way in. -/
theorem enter_slot_run (h : [31, base, mant, exp, sign, aux, tmp].Nodup)
    (hi : i < 8) :
    ∃ c', Cpu.exec (boundary_enter_slot base mant exp sign aux tmp i)
        (.on, c) = (.on, c')
      ∧ Moves [mant, exp, sign, aux, tmp] (fun mem => enterPut (c.reg base)
        i (enterGet (c.reg base) i mem) mem) c c' := by
  have h' : [31, mant, exp, sign, aux, tmp].Nodup :=
    h.sublist (.cons_cons _ (.cons _ (List.Sublist.refl _)))
  simp only [List.nodup_cons, List.mem_cons, not_or] at h
  obtain ⟨⟨h31b, h31m, h31e, -⟩, ⟨hbm, hbe, hbs, hba, hbt, -⟩,
    ⟨hme, -⟩, -⟩ := h
  have hb : base ≠ 31 := Ne.symm h31b
  have hm : mant ≠ 31 := Ne.symm h31m
  have he : exp ≠ 31 := Ne.symm h31e
  have hbase : base ∉ [mant, exp, sign, aux, tmp] := by
    simp [hbm, hbe, hbs, hba, hbt]
  obtain ⟨-, -, h3, h4, h5, -⟩ := slot_imms hi
  obtain ⟨c₁, htag, hmem₁, hflush₁, -, hreg₁, hz⟩ :=
    @run_tag c base exp i
    hb he hi
  have hbase₁ := hreg₁ base hbe
  unfold boundary_enter_slot
  rw [Cpu.exec_append, htag, exec_patched, hz]
  by_cases hempty : tagOf c.mem (c.reg base) i = 3
  · rw [decide_eq_true hempty, if_pos rfl]
    refine ⟨c₁, rfl, ?_, hflush₁, fun r hr => hreg₁ r ?_⟩
    · unfold enterGet
      rw [hmem₁, if_pos hempty]
      rfl
    · rintro rfl
      simp at hr
  · obtain ⟨x, hx⟩ : ∃ x, nativeSlot c.mem (c.reg base) i = x :=
      ⟨_, rfl⟩
    obtain ⟨c₂, hc₂⟩ : ∃ c₂,
        (c₁.set mant x.mant).set exp (x.se.setWidth 64) = c₂ := ⟨_, rfl⟩
    have hload : Cpu.exec
        ([emit_ldur 3 (BitVec.ofNat 9 (6 + 10 * i)) base mant,
          emit_ldr_imm 1 exp base (BitVec.ofNat 12 ((14 + 10 * i) / 2))]
          : Code) (.on, c₁) = (.on, c₂) := by
      rw [← hc₂, ← hx]
      simp [Cpu.exec, hb, hbm, h3, h4, hbase₁, Cpu.load, hmem₁, nativeSlot]
    have hreg₂ : ∀ r, r ≠ mant → r ≠ exp →
        c₂.reg r = c₁.reg r := by
      intro r hr hr'
      rw [← hc₂, reg_set_of_ne hr', reg_set_of_ne hr]
    have hmem₂ : c₂.mem = c.mem := by
      rw [← hc₂, mem_set, mem_set, hmem₁]
    have hflush₂ : c₂.flush = c.flush := by
      rw [← hc₂, flush_set, flush_set, hflush₁]
    obtain ⟨hconv, hmem₃, hflush₃, hreg₃⟩ := @quiet_moves c₂
      [mant, exp, sign, aux, tmp]
      (emit_f80_to_f64_convert mant exp sign aux tmp) rfl convert_quiet
    have hvalue : (Cpu.run (emit_f80_to_f64_convert mant exp sign aux tmp)
        c₂).reg mant = x.toDouble false := by
      apply Extended.convert_toDouble h'
      · rw [← hc₂, reg_set_of_ne hme, reg_set_self hm]
      · rw [← hc₂, reg_set_self he]
    have hbase₃ := (hreg₃ base hbase).trans ((hreg₂ base hbm hbe).trans
      hbase₁)
    rw [decide_eq_false hempty, if_neg Bool.false_ne_true, Cpu.exec_append,
      Cpu.exec_append, hload, hconv]
    generalize Cpu.run (emit_f80_to_f64_convert mant exp sign aux tmp) c₂
      = c₃ at *
    refine ⟨c₃.setMem (enterPut (c.reg base) i (some (x.toDouble false))
      c.mem), ?_, ?_, ?_, ?_⟩
    · simp [Cpu.exec, hb, hbase₃, h5, hvalue, hmem₃, hmem₂, enterPut]
    · unfold enterGet
      rw [if_neg hempty, hx]
      rfl
    · exact hflush₃.trans hflush₂
    · intro r hr
      have hr' : r ≠ mant ∧ r ≠ exp := by
        constructor
        · rintro rfl
          simp at hr
        · rintro rfl
          simp at hr
      rw [reg_setMem, hreg₃ r hr, hreg₂ r hr'.1 hr'.2, hreg₁ r hr'.2]

/-- The other conversion keeps all but its own registers. -/
theorem widen_keeps (j : Cpu.Op)
    (hj : .insn j ∈ emit_f64_to_f80 sign fp mant exp tmp) :
    j.setsFlush = false
      ∧ ∀ r, j.dest = some r → r ∈ [31, mant, exp, tmp] := by
  revert j
  simp [emit_f64_to_f80, maskOp, Cpu.Op.setsFlush, Cpu.Op.dest]

/-- One slot on the way out. -/
theorem exit_slot_run (h : [31, base, mant, exp, sign, tmp].Nodup)
    (hi : i < 8) :
    ∃ c', Cpu.exec (boundary_exit_slot base mant exp sign tmp fp i)
        (.on, c) = (.on, c')
      ∧ Moves [mant, exp, sign, tmp] (fun mem => exitPut (c.reg base)
        i (exitGet (c.reg base) i mem) mem) c c' := by
  have h' : [31, sign, mant, exp, tmp].Nodup := by
    simp only [List.nodup_cons, List.mem_cons, not_or] at h ⊢
    simp [h, eq_comm]
  simp only [List.nodup_cons, List.mem_cons, not_or] at h
  obtain ⟨⟨h31b, h31m, h31e, h31s, -⟩, ⟨hbm, hbe, hbs, hbt, -⟩,
    ⟨hme, hms, -⟩, ⟨hes, -⟩, -⟩ := h
  have hb : base ≠ 31 := Ne.symm h31b
  have hs : sign ≠ 31 := Ne.symm h31s
  obtain ⟨-, -, -, -, h5, h6⟩ := slot_imms hi
  obtain ⟨c₁, htag, hmem₁, hflush₁, -, hreg₁, hz⟩ :=
    @run_tag c base exp i
    hb (Ne.symm h31e) hi
  have hbase₁ := hreg₁ base hbe
  unfold boundary_exit_slot
  rw [Cpu.exec_append, htag, exec_patched, hz]
  by_cases hempty : tagOf c.mem (c.reg base) i = 3
  · rw [decide_eq_true hempty, if_pos rfl]
    refine ⟨c₁, rfl, ?_, hflush₁, fun r hr => hreg₁ r ?_⟩
    · unfold exitGet
      rw [hmem₁, if_pos hempty]
      rfl
    · rintro rfl
      simp at hr
  · obtain ⟨b, hb'⟩ : ∃ b, compactSlot c.mem (c.reg base) i = b :=
      ⟨_, rfl⟩
    obtain ⟨c₂, hc₂⟩ : ∃ c₂, (c₁.set sign (c.reg base
        + BitVec.ofNat 64 (6 + 10 * i))).setD fp b = c₂ := ⟨_, rfl⟩
    have hload : Cpu.exec
        ([emit_add_imm true false false false (BitVec.ofNat 12 (6 + 10 * i))
            base sign,
          emit_fldr_imm fp base (BitVec.ofNat 12 (1 + i))] : Code)
        (.on, c₁) = (.on, c₂) := by
      rw [← hc₂, ← hb']
      simp [Cpu.exec, hb, hs, hbs, h5, h6, hbase₁, Cpu.load, hmem₁,
        compactSlot]
    have hmem₂ : c₂.mem = c.mem := by
      rw [← hc₂, mem_setD, mem_set, hmem₁]
    have hstored := @f64_to_f80_stores c₂ sign fp mant exp tmp b h' (by
      rw [← hc₂, d_setD_self])
    have hsign : c₂.reg sign = c.reg base + BitVec.ofNat 64 (6 + 10 * i) := by
      rw [← hc₂, reg_setD, reg_set_self hs]
    rw [decide_eq_false hempty, if_neg Bool.false_ne_true, Cpu.exec_append,
      hload]
    refine ⟨Cpu.run (emit_f64_to_f80 sign fp mant exp tmp) c₂,
      Forward.exec_closed rfl (Nat.zero_le _) c₂, ?_, ?_, ?_⟩
    · rw [hstored, hsign, hmem₂]
      unfold exitGet
      rw [if_neg hempty, hb']
      rfl
    · refine (run_flush fun j hj => (widen_keeps j hj).1).trans ?_
      rw [← hc₂, flush_setD, flush_set, hflush₁]
    · intro r hr
      by_cases h31 : r = 31
      · subst h31
        rw [reg_zero, reg_zero]
      · simp only [List.mem_cons, not_or] at hr
        rw [run_reg_of_ne fun j hj hdest => by
          have := (widen_keeps j hj).2 r hdest
          simp [h31, hr] at this, ← hc₂, reg_setD, reg_set_of_ne hr.2.2.1,
          hreg₁ r hr.2.1]

end

-- ============================================================ all slots

section
variable {c : Cpu} {base flags mant exp sign aux tmp fp : Nat}

/-- Slot after slot. -/
theorem slots_run {V : Type} {regs : List Nat} {code : Nat → Code}
    {get : BitVec 64 → Nat → Mem 64 → V}
    {put : BitVec 64 → Nat → V → Mem 64 → Mem 64} (hb : base ∉ regs)
    (l : List Nat)
    (hcode : ∀ i ∈ l, ∀ c : Cpu, ∃ c',
      Cpu.exec (code i) (.on, c) = (.on, c')
      ∧ Moves regs (fun mem => put (c.reg base) i (get (c.reg base) i mem)
        mem) c c') (c : Cpu) :
    ∃ c', Cpu.exec (l.flatMap code) (.on, c) = (.on, c')
      ∧ Moves regs (moveAll (get (c.reg base)) (put (c.reg base)) l)
        c c' := by
  induction l generalizing c with
  | nil => exact ⟨c, rfl, rfl, rfl, fun _ _ => rfl⟩
  | cons i l ih =>
      obtain ⟨c₁, hexec, hmem, hflush, hreg⟩ :=
        hcode i List.mem_cons_self c
      obtain ⟨c₂, hexec', hmem', hflush', hreg'⟩ := ih
        (fun j hj => hcode j (List.mem_cons_of_mem _ hj)) c₁
      refine ⟨c₂, ?_, ?_, hflush'.trans hflush,
        fun r hr => (hreg' r hr).trans (hreg r hr)⟩
      · rw [List.flatMap_cons, Cpu.exec_append, hexec, hexec']
      · rw [hmem', hmem, hreg base hb, moveAll_cons]

/-- Between the flag moves. -/
theorem parked_run {regs : List Nat} {code : Code} {f : Mem 64 → Mem 64}
    (hf : flags ≠ 31) (hfr : flags ∉ regs) (hb : base ∉ flags :: regs)
    (hcode : ∀ c₁ : Cpu, c₁.reg base = c.reg base →
      ∃ c', Cpu.exec code (.on, c₁) = (.on, c') ∧ Moves regs f c₁ c') :
    ∃ c', Cpu.exec ([emit_mrs_nzcv flags] ++ code ++ [emit_msr_nzcv flags])
        (.on, c) = (.on, c')
      ∧ Moves (flags :: regs) f c c' ∧ c'.flags = c.flags := by
  obtain ⟨hbf, hbr⟩ := not_or.mp (mt List.mem_cons.mpr hb)
  obtain ⟨c₁, hc₁⟩ : ∃ c₁,
      c.set flags (Flags.word c.flags) = c₁ := ⟨_, rfl⟩
  obtain ⟨c₂, hexec, hmem, hflush, hreg⟩ := hcode c₁ (by
    rw [← hc₁, reg_set_of_ne hbf])
  refine ⟨c₂.setFlags c.flags, ?_, ⟨?_, ?_, ?_⟩, flags_setFlags⟩
  · have hpark : Cpu.exec ([emit_mrs_nzcv flags] : Code) (.on, c)
        = (.on, c₁) := by
      rw [← hc₁]
      rfl
    have hword : c₂.reg flags = Flags.word c.flags := by
      rw [hreg flags hfr, ← hc₁, reg_set_self hf]
    have hunpark : Cpu.exec ([emit_msr_nzcv flags] : Code) (.on, c₂)
        = (.on, c₂.setFlags c.flags) := by
      simp only [Cpu.exec, emit_msr_nzcv, Forward.exec_insn,
        Forward.exec_nil, step_msrNzcv, hword, Flags.ofWord_word]
    rw [Cpu.exec_append, Cpu.exec_append, hpark, hexec, hunpark]
  · rw [mem_setFlags, hmem, ← hc₁, mem_set]
  · rw [flush_setFlags, hflush, ← hc₁, flush_set]
  · intro r hr
    obtain ⟨hrf, hrr⟩ := not_or.mp (mt List.mem_cons.mpr hr)
    rw [reg_setFlags, hreg r hrr, ← hc₁, reg_set_of_ne hrf]

/-- The whole conversion in. -/
theorem enter_slots_run
    (h : [31, base, flags, mant, exp, sign, aux, tmp].Nodup) :
    ∃ c', Cpu.exec (boundary_enter_slots base flags mant exp sign aux tmp)
        (.on, c) = (.on, c')
      ∧ Moves [flags, mant, exp, sign, aux, tmp]
        (moveAll (enterGet (c.reg base)) (enterPut (c.reg base))
          (List.range 8)) c c'
      ∧ c'.flags = c.flags := by
  have h' : [31, base, mant, exp, sign, aux, tmp].Nodup :=
    h.sublist (.cons_cons _ (.cons_cons _ (.cons _ (List.Sublist.refl _))))
  simp only [List.nodup_cons, List.mem_cons, not_or] at h
  have hb : base ∉ [mant, exp, sign, aux, tmp] := by simp [h]
  refine @parked_run c base flags _ _ _ (Ne.symm h.1.2.1) (by simp [h])
    (by simp [h]) fun c₁ hbase => ?_
  have hrun := slots_run hb (List.range 8) (fun i hi c =>
    @enter_slot_run c base mant exp sign aux tmp i h'
      (List.mem_range.mp hi)) c₁
  rwa [hbase] at hrun

/-- The whole conversion out. -/
theorem exit_slots_run (h : [31, base, flags, mant, exp, sign, tmp].Nodup) :
    ∃ c', Cpu.exec (boundary_exit_slots base flags mant exp sign tmp fp)
        (.on, c) = (.on, c')
      ∧ Moves [flags, mant, exp, sign, tmp]
        (moveAll (exitGet (c.reg base)) (exitPut (c.reg base))
          ((List.range 8).map (7 - ·))) c c'
      ∧ c'.flags = c.flags := by
  have h' : [31, base, mant, exp, sign, tmp].Nodup :=
    h.sublist (.cons_cons _ (.cons_cons _ (.cons _ (List.Sublist.refl _))))
  simp only [List.nodup_cons, List.mem_cons, not_or] at h
  have hb : base ∉ [mant, exp, sign, tmp] := by simp [h]
  refine @parked_run c base flags _ _ _ (Ne.symm h.1.2.1) (by simp [h])
    (by simp [h]) fun c₁ hbase => ?_
  have hrun := slots_run hb ((List.range 8).map (7 - ·)) (fun i hi c =>
    @exit_slot_run c base mant exp sign tmp fp i h' (by
      obtain ⟨j, hj, rfl⟩ := List.mem_map.mp hi
      omega)) c₁
  rwa [hbase] at hrun

end

-- ==================================================== no slot overlaps

section
variable {base : BitVec 64} {i j : Nat} {mem : Mem 64}

/-- What a store leaves alone. -/
theorem load_store_offsets {a b n k : Nat} {v : BitVec (8 * n)}
    (h : a + n ≤ b ∨ b + k ≤ a) (ha : a + n ≤ 2 ^ 64)
    (hb : b + k ≤ 2 ^ 64) :
    (mem.store (base + BitVec.ofNat 64 a) n v).load
        (base + BitVec.ofNat 64 b) k
      = mem.load (base + BitVec.ofNat 64 b) k :=
  Mem.load_store_of_disjoint (Mem.disjoint_offsets h ha hb)

theorem enterPut_load {b k : Nat} (v : Option (BitVec 64)) (hi : i < 8)
    (h : 16 + 8 * i ≤ b ∨ b + k ≤ 8 + 8 * i) (hb : b + k ≤ 2 ^ 64) :
    (enterPut base i v mem).load (base + BitVec.ofNat 64 b) k
      = mem.load (base + BitVec.ofNat 64 b) k := by
  cases v with
  | none => rfl
  | some v => exact load_store_offsets (by omega) (by omega) hb

theorem exitPut_load {b k : Nat} (v : Option Extended) (hi : i < 8)
    (h : 16 + 10 * i ≤ b ∨ b + k ≤ 6 + 10 * i) (hb : b + k ≤ 2 ^ 64) :
    (exitPut base i v mem).load (base + BitVec.ofNat 64 b) k
      = mem.load (base + BitVec.ofNat 64 b) k := by
  cases v with
  | none => rfl
  | some x =>
      have hsum : base + BitVec.ofNat 64 (6 + 10 * i) + 8
          = base + BitVec.ofNat 64 (14 + 10 * i) := by
        rw [BitVec.add_assoc, show (8 : BitVec 64) = BitVec.ofNat 64 8
          from rfl, ← BitVec.ofNat_add]
        congr 2
        omega
      show ((mem.store _ 8 x.mant).store (_ + 8) 2 x.se).load _ k = _
      rw [hsum, load_store_offsets (by omega) (by omega) hb,
        load_store_offsets (by omega) (by omega) hb]

theorem tagOf_enterPut (v : Option (BitVec 64)) (hi : i < 8) :
    tagOf (enterPut base i v mem) base j = tagOf mem base j := by
  have hload := @enterPut_load base i mem 4 2 v hi (by omega) (by decide)
  unfold tagOf
  exact congrArg (fun t => BitVec.toNat t / 2 ^ (2 * j) % 4) hload

theorem tagOf_exitPut (v : Option Extended) (hi : i < 8) :
    tagOf (exitPut base i v mem) base j = tagOf mem base j := by
  have hload := @exitPut_load base i mem 4 2 v hi (by omega) (by decide)
  unfold tagOf
  exact congrArg (fun t => BitVec.toNat t / 2 ^ (2 * j) % 4) hload

/-- On the way in a slot is written below every one still to be read. -/
theorem enter_apart (hij : i < j) (hj : j < 8) (v : Option (BitVec 64)) :
    enterGet base j (enterPut base i v mem) = enterGet base j mem := by
  unfold enterGet nativeSlot
  rw [tagOf_enterPut v (by omega),
    enterPut_load v (by omega) (by omega) (by omega),
    enterPut_load v (by omega) (by omega) (by omega)]

/-- On the way out a slot is written above every one still to be read. -/
theorem exit_apart (hij : j < i) (hi : i < 8) (v : Option Extended) :
    exitGet base j (exitPut base i v mem) = exitGet base j mem := by
  unfold exitGet compactSlot
  rw [tagOf_exitPut v hi, exitPut_load v hi (by omega) (by omega)]

/-- All slots arrive in the compact layout. -/
theorem enter_moves (hi : i < 8) (h : tagOf mem base i ≠ 3) :
    compactSlot (moveAll (enterGet base) (enterPut base) (List.range 8) mem)
        base i
      = (nativeSlot mem base i).toDouble false := by
  obtain ⟨m', hm'⟩ := moveAll_moves (enterGet base) (enterPut base)
    (fun i mem => compactSlot mem base i)
    (l := List.range 8) (by
      refine List.pairwise_lt_range.imp_of_mem fun hi hj hij v m => ?_
      exact enter_apart hij (List.mem_range.mp hj) v) (by
      refine List.pairwise_lt_range.imp_of_mem fun hi hj hij v m => ?_
      have := List.mem_range.mp hj
      exact enterPut_load v (by omega) (by omega) (by omega))
    (List.mem_range.mpr hi) mem
  rw [hm']
  unfold enterGet
  rw [if_neg h]
  exact Mem.load_store_self (by decide)

/-- A slot written is there. -/
theorem nativeSlot_exitPut (x : Extended) :
    nativeSlot (exitPut base i (some x) mem) base i = x := by
  have hsum : base + BitVec.ofNat 64 (14 + 10 * i)
      = base + BitVec.ofNat 64 (6 + 10 * i) + 8 := by
    rw [BitVec.add_assoc, show (8 : BitVec 64) = BitVec.ofNat 64 8
      from rfl, ← BitVec.ofNat_add]
    congr 2
    omega
  unfold nativeSlot
  rw [hsum]
  unfold exitPut
  rw [(Extended.load_store _ _ _).1, (Extended.load_store _ _ _).2]

/-- All slots arrive in Rosetta's layout. -/
theorem exit_moves (hi : i < 8) (h : tagOf mem base i ≠ 3) :
    nativeSlot (moveAll (exitGet base) (exitPut base)
        ((List.range 8).map (7 - ·)) mem) base i
      = Double.toExtended (compactSlot mem base i) := by
  have hmem : i ∈ (List.range 8).map (7 - ·) :=
    List.mem_map.mpr ⟨7 - i, List.mem_range.mpr (by omega), by omega⟩
  have hdown : ((List.range 8).map (7 - ·)).Pairwise fun i j =>
      j < i ∧ i < 8 := by decide
  obtain ⟨m', hm'⟩ := moveAll_moves (exitGet base) (exitPut base)
    (fun i mem => nativeSlot mem base i)
    (l := (List.range 8).map (7 - ·)) (by
      refine hdown.imp fun hij v m => ?_
      exact exit_apart hij.1 hij.2 v) (by
      refine hdown.imp fun hij v m => ?_
      unfold nativeSlot
      rw [exitPut_load v (by omega) (by omega) (by omega),
        exitPut_load v (by omega) (by omega) (by omega)])
    hmem mem
  rw [hm']
  unfold exitGet
  rw [if_neg h, nativeSlot_exitPut]

end

-- ======================================================= the flush bits

theorem narrow_bit (v : BitVec 64) {k : Nat} (hk : k < 64) :
    (Arm.narrow false v).getLsbD k
      = (decide (k < 32) && v.getLsbD k) := by
  show ((v.setWidth 32).setWidth 64).getLsbD k = _
  rw [BitVec.getLsbD_setWidth, BitVec.getLsbD_setWidth, decide_eq_true hk,
    Bool.true_and]

/-- One bit of a register moved into a register of 32 bits. -/
theorem bfi_bit {lsb : Nat} (h : lsb < 32) (src dst : BitVec 64) {k : Nat}
    (hk : k < 64) :
    (Arm.narrow false (bfmEval 32 ((32 - lsb) % 32) 0 src dst)).getLsbD k
      = (decide (k < 32)
        && if k = lsb then src.getLsbD 0 else dst.getLsbD k) := by
  have hone : ∀ i, (1#64).getLsbD i = decide (i = 0) := by
    intro i
    rw [BitVec.getLsbD_one]
    simp
  rw [narrow_bit _ hk]
  congr 1
  unfold bfmEval
  dsimp only
  rcases Nat.eq_zero_or_pos lsb with rfl | hpos
  · rw [if_pos (by decide)]
    show (dst &&& ~~~(1#64) ||| (src >>> 0) &&& 1#64).getLsbD k = _
    rw [BitVec.getLsbD_or, BitVec.getLsbD_and, BitVec.getLsbD_and,
      BitVec.getLsbD_not, hone, decide_eq_true hk, BitVec.ushiftRight_zero]
    by_cases h0 : k = 0
    · subst h0
      simp
    · simp [h0]
  · have hmod : (32 - lsb) % 32 = 32 - lsb := Nat.mod_eq_of_lt (by omega)
    rw [hmod, if_neg (by omega), show 32 - (32 - lsb) = lsb by omega]
    show (dst &&& ~~~(1#64 <<< lsb) ||| (src <<< lsb) &&& 1#64 <<< lsb).getLsbD
      k = _
    rw [BitVec.getLsbD_or, BitVec.getLsbD_and, BitVec.getLsbD_and,
      BitVec.getLsbD_not, BitVec.getLsbD_shiftLeft, BitVec.getLsbD_shiftLeft,
      hone, decide_eq_true hk]
    rcases Nat.lt_trichotomy k lsb with hlt | rfl | hgt
    · simp [hlt, hlt.ne]
    · simp
    · simp [hgt.ne', Nat.not_lt_of_gt hgt, Nat.sub_ne_zero_of_lt hgt]

/-- One bit of a register alone. -/
theorem ubfm_bit {k : Nat} (h : k < 32) (v : BitVec 64) :
    Arm.narrow false (Arm.bitfieldEval 32 false k k v)
      = word (v.getLsbD k).toNat := by
  have hv : v = word v.toNat := by
    rw [show word v.toNat = BitVec.ofNat 64 v.toNat from rfl,
      BitVec.ofNat_toNat, BitVec.setWidth_eq]
  have hbit := getLsbD_word v.isLt k
  rw [← hv] at hbit
  rw [hbit]
  nth_rewrite 1 [hv]
  rw [ubfm_down (Nat.le_refl k) (by omega) v.isLt,
    show k - k + 1 = 1 by omega, pow_one]
  rcases Nat.mod_two_eq_zero_or_one (v.toNat / 2 ^ k) with h0 | h1
  · rw [h0]
    rfl
  · rw [h1]
    rfl

/-- Both flush bits side by side. -/
theorem bfi_one (f : Bool) (v : BitVec 64) :
    Arm.narrow false (bfmEval 32 31 0 v (word f.toNat))
      = word (f.toNat + 2 * (v.getLsbD 0).toNat) := by
  have hbits : ∀ f d : Bool, ∀ k : Fin 64,
      (decide (k.val < 32)
        && if k.val = 1 then d else (word f.toNat).getLsbD k.val)
      = (word (f.toNat + 2 * d.toNat)).getLsbD k.val := by
    decide
  apply BitVec.eq_of_getLsbD_eq
  intro k hk
  exact (@bfi_bit 1 (by decide) v _ _ hk).trans
    (hbits f (v.getLsbD 0) ⟨k, hk⟩)

/-- The masks that clear a flush bit have encodings. -/
theorem allBut_encodes :
    (Asm.is_bitmask_immediate false (allBut 24)).isSome = true
      ∧ (Asm.is_bitmask_immediate false (allBut 1)).isSome = true
      ∧ (Asm.is_bitmask_immediate false (allBut 0)).isSome = true
      ∧ (Asm.is_bitmask_immediate false 1#64).isSome = true := by
  decide

theorem allBut_bit {b k : Nat} (hb : b < 32) (hk : k < 64) :
    (allBut b).getLsbD k = (decide (k < 32) && decide (k ≠ b)) := by
  have hbits : ∀ b : Fin 32, ∀ k : Fin 64, (allBut b.val).getLsbD k.val
      = (decide (k.val < 32) && decide (k.val ≠ b.val)) := by
    decide
  exact hbits ⟨b, hb⟩ ⟨k, hk⟩

/-- What the stash says of a register of flush bits: nothing to restore,
or the bits themselves. -/
def stashOf (r : FlushReg) (v : BitVec 64) : BitVec 16 :=
  if v.getLsbD r.ftz || v.getLsbD r.daz then
    BitVec.ofNat 16 (1 + 2 * (v.getLsbD r.ftz).toNat
      + 4 * (v.getLsbD r.daz).toNat)
  else 0

/-- Memory with the stash behind the tag word. -/
def stashed : Option FlushReg → BitVec 64 → BitVec 64 → Mem 64 → Mem 64
  | none, _, _, mem => mem
  | some r, B, v, mem => mem.store (B + 6) 2 (stashOf r v)

/-- The register without its flush bits, as far as it reaches. -/
structure Cleared (r : FlushReg) (v v' : BitVec 64) : Prop where
  bits : ∀ k, k < 32 → v'.getLsbD k
    = (v.getLsbD k && decide (k ≠ r.ftz) && decide (k ≠ r.daz))

/-- The flush bits are cleared where there is a register of them. -/
def ClearedBy : Option FlushReg → BitVec 64 → BitVec 64 → Prop
  | none, v, v' => v' = v
  | some r, v, v' => Cleared r v v'

section
variable {c : Cpu} {base Xfpcr Wbits : Nat} {r : FlushReg}

theorem enter_slow_run (hr : r = kFpcrReg ∨ r = kAfpcrReg)
    (h : [31, base, Xfpcr, Wbits].Nodup) (stash : BitVec 12) :
    ∃ c', Cpu.exec (emit_fpcr_enter_slow r base Xfpcr Wbits stash
        ++ fpcr_quiet base stash) (.on, c) = (.on, c')
      ∧ c'.mem = c.mem.store (c.reg base + stash.setWidth 64 * 2) 2
        (stashOf r c.flush)
      ∧ Cleared r c.flush c'.flush ∧ c'.flags = c.flags
      ∧ ∀ q, q ≠ Xfpcr → q ≠ Wbits → c'.reg q = c.reg q := by
  simp only [List.nodup_cons, List.mem_cons, not_or] at h
  obtain ⟨⟨h31b, h31x, h31w, -⟩, ⟨hbx, hbw, -⟩,
    ⟨hxw, -⟩, -⟩ := h
  have hb : base ≠ 31 := Ne.symm h31b
  have hx : Xfpcr ≠ 31 := Ne.symm h31x
  have hw : Wbits ≠ 31 := Ne.symm h31w
  have hwx : Wbits ≠ Xfpcr := Ne.symm hxw
  obtain ⟨c₁, hc₁⟩ : ∃ c₁, (c.set Xfpcr c.flush).set Wbits
      (word ((c.flush.getLsbD r.ftz).toNat
        + 2 * (c.flush.getLsbD r.daz).toNat)) = c₁ := ⟨_, rfl⟩
  have hhead : Cpu.exec ([emit_mrs_flush Xfpcr,
      emit_bitfield false .ubfm (BitVec.ofNat 6 r.ftz)
        (BitVec.ofNat 6 r.ftz) Xfpcr Wbits,
      emit_bitfield false .bfm 31 0 Xfpcr Wbits] : Code) (.on, c)
      = (.on, c₁) := by
    rw [← hc₁]
    rcases hr with rfl | rfl
    · simp [Cpu.exec, hx, hw, hxw, kFpcrReg, ubfm_bit, bfi_one]
    · simp [Cpu.exec, hx, hw, hxw, kAfpcrReg, ubfm_bit, bfi_one]
  obtain ⟨a, ha⟩ : ∃ a, (c.flush.getLsbD r.ftz).toNat
      + 2 * (c.flush.getLsbD r.daz).toNat = a := ⟨_, rfl⟩
  have ha4 : a < 4 := by
    have := Bool.toNat_lt (c.flush.getLsbD r.ftz)
    have := Bool.toNat_lt (c.flush.getLsbD r.daz)
    omega
  rw [ha] at hc₁
  have hw₁ : c₁.reg Wbits = word a := by rw [← hc₁, reg_set_self hw]
  have hx₁ : c₁.reg Xfpcr = c.flush := by
    rw [← hc₁, reg_set_of_ne hxw, reg_set_self hx]
  have hb₁ : c₁.reg base = c.reg base := by
    rw [← hc₁, reg_set_of_ne hbw, reg_set_of_ne hbx]
  have hkeep : c₁.mem = c.mem ∧ c₁.flush = c.flush
      ∧ c₁.flags = c.flags := by
    rw [← hc₁]
    exact ⟨by simp, by simp, by simp⟩
  have htest : holds c₁ (.cbz false false Wbits) = decide (a = 0) := by
    rw [holds_cbz, hw₁, narrow_word (by omega)]
    simp [word_eq_zero (show a < 2 ^ 64 by omega)]
  unfold emit_fpcr_enter_slow
  rw [Cpu.exec_append, Cpu.exec_append, hhead, exec_patched, htest]
  by_cases h0 : a = 0
  · have hf : c.flush.getLsbD r.ftz = false
        ∧ c.flush.getLsbD r.daz = false :=
      by
        cases hf : c.flush.getLsbD r.ftz <;>
          cases hd : c.flush.getLsbD r.daz <;> simp_all
    rw [decide_eq_true h0, if_pos rfl]
    refine ⟨c₁.setMem (c.mem.store (c.reg base + stash.setWidth 64 * 2) 2
      0), ?_, ?_, ⟨fun k hk => ?_⟩, ?_, ?_⟩
    · simp [Cpu.exec, fpcr_quiet, hb, hb₁, hkeep.1]
    · unfold stashOf
      rw [hf.1, hf.2]
      rfl
    · rw [flush_setMem, hkeep.2.1]
      by_cases h1 : k = r.ftz
      · rw [h1, hf.1]
        simp
      · by_cases h2 : k = r.daz
        · rw [h2, hf.2]
          simp
        · simp [h1, h2]
    · exact hkeep.2.2
    · intro q hq hq'
      rw [reg_setMem, ← hc₁, reg_set_of_ne hq', reg_set_of_ne hq]
  · rw [decide_eq_false h0, if_neg Bool.false_ne_true]
    obtain ⟨x, hxdef⟩ : ∃ x, Arm.narrow false (Arm.narrow false
        (c.flush &&& allBut r.ftz) &&& allBut r.daz) = x := ⟨_, rfl⟩
    obtain ⟨c₂, hc₂⟩ : ∃ c₂,
        ((((c₁.set Wbits (word (2 * a + 1))).setMem
        (c.mem.store (c.reg base + stash.setWidth 64 * 2) 2
          (BitVec.ofNat 16 (2 * a + 1)))).set Xfpcr x).setFlush x) = c₂ :=
      ⟨_, rfl⟩
    have hshift : Arm.narrow false
        (Arm.bitfieldEval 32 false 31 30 (word a)) = word (a * 2) := by
      rw [ubfm_up (by decide) (by omega), narrow_word (by omega)]
      apply word_congr
      omega
    have hor : Arm.narrow false (word (a * 2) ||| 1#64)
        = word (2 * a + 1) := by
      have hlow : word (a * 2 ^ 1) ||| word 1 = word (1 + a * 2 ^ 1) :=
        or_low 1 (by decide)
      refine (congrArg (Arm.narrow false) hlow).trans ?_
      rw [narrow_word (by omega)]
      apply word_congr
      omega
    have hmask : ∀ b, b = r.ftz ∨ b = r.daz → ∀ c : Cpu,
        step c (maskOp false .and Xfpcr Xfpcr (allBut b))
          = c.set Xfpcr (Arm.narrow false (c.reg Xfpcr &&& allBut b)) := by
      intro b hb c
      refine step_maskOp ?_ hx
      obtain ⟨h24, h1, h0, -⟩ := allBut_encodes
      rcases hr with rfl | rfl <;> rcases hb with rfl | rfl
      · exact h24
      · exact h0
      · exact h1
      · exact h0
    have hone : ∀ c : Cpu, step c (maskOp false .orr Wbits Wbits 1#64)
        = c.set Wbits (Arm.narrow false (c.reg Wbits ||| 1#64)) :=
      fun c => step_maskOp allBut_encodes.2.2.2 hw
    have hstash : Cpu.exec (fpcr_stash r base Xfpcr Wbits stash) (.on, c₁)
        = (.skip 1, c₂) := by
      rw [← hc₂, ← hxdef]
      simp [Cpu.exec, fpcr_stash, hmask, hone, hb, hx, hw, hbw, hxw, hw₁,
        hx₁, hb₁, hshift, hor, hkeep.1]
    have hquiet : Cpu.exec (fpcr_quiet base stash) (.skip 1, c₂)
        = (.on, c₂) := rfl
    rw [hstash, hquiet]
    refine ⟨c₂, rfl, ?_, ⟨fun k hk => ?_⟩, ?_, ?_⟩
    · have hset : (c.flush.getLsbD r.ftz || c.flush.getLsbD r.daz)
          = true := by
        cases hf : c.flush.getLsbD r.ftz <;>
          cases hd : c.flush.getLsbD r.daz <;> simp_all
      have hstash : stashOf r c.flush = BitVec.ofNat 16 (2 * a + 1) := by
        unfold stashOf
        rw [if_pos hset, ← ha]
        congr 1
        omega
      rw [← hc₂, hstash, mem_setFlush, mem_set, mem_setMem]
    · have hlt : r.ftz < 32 ∧ r.daz < 32 := by
        rcases hr with rfl | rfl <;> decide
      rw [← hc₂, flush_setFlush, ← hxdef, narrow_bit _ (by omega),
        BitVec.getLsbD_and, narrow_bit _ (by omega), BitVec.getLsbD_and,
        allBut_bit hlt.1 (by omega), allBut_bit hlt.2 (by omega),
        decide_eq_true hk]
      simp only [Bool.true_and]
    · rw [← hc₂]
      exact hkeep.2.2
    · intro q hq hq'
      rw [← hc₂, reg_setFlush, reg_set_of_ne hq, reg_setMem,
        reg_set_of_ne hq', ← hc₁, reg_set_of_ne hq', reg_set_of_ne hq]

/-- The bits of a stash put back. -/
theorem restore_run (hr : r = kFpcrReg ∨ r = kAfpcrReg)
    (hx : Xfpcr ≠ 31) (hw : Wbits ≠ 31) (hxw : Xfpcr ≠ Wbits) {f d : Bool}
    (hs : c.reg Wbits = word (1 + 2 * f.toNat + 4 * d.toNat)) :
    ∃ c', Cpu.exec (emit_fpcr_restore r Xfpcr Wbits) (.on, c) = (.on, c')
      ∧ c'.mem = c.mem ∧ c'.flags = c.flags
      ∧ (∀ k, k < 32 → c'.flush.getLsbD k = if k = r.daz then d
        else if k = r.ftz then f else c.flush.getLsbD k)
      ∧ ∀ q, q ≠ Xfpcr → q ≠ Wbits → c'.reg q = c.reg q := by
  have hf2 := Bool.toNat_lt f
  have hd2 := Bool.toNat_lt d
  have hlt : r.ftz < 32 ∧ r.daz < 32 := by
    rcases hr with rfl | rfl <;> decide
  obtain ⟨x, hxdef⟩ : ∃ x, Arm.narrow false (bfmEval 32
      ((32 - r.ftz) % 32) 0 (word (f.toNat + 2 * d.toNat)) c.flush) = x :=
    ⟨_, rfl⟩
  obtain ⟨y, hydef⟩ : ∃ y, Arm.narrow false (bfmEval 32
      ((32 - r.daz) % 32) 0 (word d.toNat) x) = y := ⟨_, rfl⟩
  have h1 : Arm.narrow false (Arm.bitfieldEval 32 false 1 31
      (word (1 + 2 * f.toNat + 4 * d.toNat)))
      = word (f.toNat + 2 * d.toNat) := by
    rw [ubfm_down (by decide) (by decide) (by omega),
      narrow_word (by omega)]
    apply word_congr
    omega
  have h2 : Arm.narrow false (Arm.bitfieldEval 32 false 1 31
      (word (f.toNat + 2 * d.toNat))) = word d.toNat := by
    rw [ubfm_down (by decide) (by decide) (by omega),
      narrow_word (by omega)]
    apply word_congr
    omega
  refine ⟨(((((c.set Xfpcr c.flush).set Wbits (word (f.toNat
    + 2 * d.toNat))).set Xfpcr x).set Wbits (word d.toNat)).set Xfpcr
      y).setFlush y, ?_, ?_, ?_, ?_, ?_⟩
  · rcases hr with rfl | rfl
    · have hx' : Arm.narrow false (bfmEval 32 8 0
          (word (f.toNat + 2 * d.toNat)) c.flush) = x := hxdef
      have hy' : Arm.narrow false (bfmEval 32 0 0 (word d.toNat) x) = y :=
        hydef
      simp [Cpu.exec, emit_fpcr_restore, kFpcrReg, hx, hw, hxw, hxw.symm,
        hs, h1, h2, hx', hy']
    · have hx' : Arm.narrow false (bfmEval 32 31 0
          (word (f.toNat + 2 * d.toNat)) c.flush) = x := hxdef
      have hy' : Arm.narrow false (bfmEval 32 0 0 (word d.toNat) x) = y :=
        hydef
      simp [Cpu.exec, emit_fpcr_restore, kAfpcrReg, hx, hw, hxw, hxw.symm,
        hs, h1, h2, hx', hy']
  · simp
  · simp
  · intro k hk
    have hbit : ∀ b : Bool, (word b.toNat).getLsbD 0 = b := by decide
    have hbit' : ∀ f d : Bool,
        (word (f.toNat + 2 * d.toNat)).getLsbD 0 = f := by
      decide
    rw [flush_setFlush, ← hydef, bfi_bit hlt.2 _ _ (by omega),
      decide_eq_true hk, Bool.true_and, hbit, ← hxdef,
      bfi_bit hlt.1 _ _ (by omega), decide_eq_true hk, Bool.true_and, hbit']
  · intro q hq hq'
    simp [hq, hq']

end

-- ========================================================= the boundary

section
variable {c : Cpu} {base flags mant exp sign aux tmp fp : Nat}

theorem moveAll_empty {B : BitVec 64} {mem : Mem 64} {V : Type}
    {get : BitVec 64 → Nat → Mem 64 → Option V}
    {put : BitVec 64 → Nat → Option V → Mem 64 → Mem 64}
    (hget : ∀ i, tagOf mem B i = 3 → get B i mem = none)
    (hput : ∀ i m, put B i none m = m) (l : List Nat)
    (h : ∀ i ∈ l, tagOf mem B i = 3) :
    moveAll (get B) (put B) l mem = mem := by
  induction l with
  | nil => rfl
  | cons i l ih =>
      rw [moveAll_cons, hget i (h i List.mem_cons_self), hput]
      exact ih fun j hj => h j (List.mem_cons_of_mem _ hj)

/-- Bit 16 of the tag word plus one: every slot is empty. -/
theorem all_empty {mem : Mem 64} {B : BitVec 64}
    (h : (word ((mem.load (B + 4) 2).toNat + 1)).getLsbD 16 = true)
    {i : Nat} (hi : i < 8) : tagOf mem B i = 3 := by
  have hlt := (mem.load (B + 4) 2).isLt
  have hbit := getLsbD_word
    (show (mem.load (B + 4) 2).toNat + 1 < 2 ^ 64 by omega) 16
  rw [h] at hbit
  have hall : (mem.load (B + 4) 2).toNat = 2 ^ 16 - 1 := by
    have := of_decide_eq_true hbit.symm
    omega
  have hfields : ∀ i : Fin 8, (2 ^ 16 - 1) / 2 ^ (2 * i.val) % 4 = 3 := by
    decide
  unfold tagOf
  rw [hall]
  exact hfields ⟨i, hi⟩

theorem run_tags (hb : base ≠ 31) (he : exp ≠ 31) {t : Nat}
    (ht : (c.mem.load (c.reg base + 4) 2).toNat = t) :
    Cpu.exec (boundary_tags base exp) (.on, c)
      = (.on, c.set exp (word (t + 1))) := by
  have hlt := (c.mem.load (c.reg base + 4) 2).isLt
  have hword : c.load 1 (c.reg base + 4#64) = word t := by
    rw [← ht]
    apply BitVec.eq_of_toNat_eq
    exact BitVec.toNat_setWidth _ _
  have hadd : Arm.narrow false (word t + 1#64) = word (t + 1) := by
    rw [show (1#64) = word 1 from rfl, narrow_add (by omega)]
  simp [Cpu.exec, boundary_tags, hb, he, hword, hadd]

/-- The conversions, skipped when every slot is empty. -/
theorem enter_convert
    (h : [31, base, flags, mant, exp, sign, aux, tmp].Nodup) {t : Nat}
    (ht : (c.mem.load (c.reg base + 4) 2).toNat = t)
    (he : c.reg exp = word (t + 1)) :
    ∃ c', Cpu.exec (patched (.tbz true exp 16)
        (boundary_enter_slots base flags mant exp sign aux tmp)) (.on, c)
        = (.on, c')
      ∧ Moves [flags, mant, exp, sign, aux, tmp]
        (moveAll (enterGet (c.reg base)) (enterPut (c.reg base))
          (List.range 8)) c c'
      ∧ c'.flags = c.flags := by
  rw [exec_patched, holds_tbz, he]
  cases hbit : (word (t + 1)).getLsbD 16 with
  | false => exact enter_slots_run h
  | true =>
      rw [← ht] at hbit
      refine ⟨c, rfl, ⟨?_, rfl, fun _ _ => rfl⟩, rfl⟩
      exact (moveAll_empty (fun i hi => if_pos hi) (fun _ _ => rfl) _
        fun i hi => all_empty hbit (List.mem_range.mp hi)).symm

theorem exit_convert
    (h : [31, base, flags, mant, exp, sign, tmp].Nodup) {t : Nat}
    (ht : (c.mem.load (c.reg base + 4) 2).toNat = t)
    (he : c.reg exp = word (t + 1)) :
    ∃ c', Cpu.exec (patched (.tbz true exp 16)
        (boundary_exit_slots base flags mant exp sign tmp fp)) (.on, c)
        = (.on, c')
      ∧ Moves [flags, mant, exp, sign, tmp]
        (moveAll (exitGet (c.reg base)) (exitPut (c.reg base))
          ((List.range 8).map (7 - ·))) c c'
      ∧ c'.flags = c.flags := by
  rw [exec_patched, holds_tbz, he]
  cases hbit : (word (t + 1)).getLsbD 16 with
  | false => exact exit_slots_run h
  | true =>
      rw [← ht] at hbit
      refine ⟨c, rfl, ⟨?_, rfl, fun _ _ => rfl⟩, rfl⟩
      refine (moveAll_empty (fun i hi => if_pos hi) (fun _ _ => rfl) _
        fun i hi => all_empty hbit ?_).symm
      obtain ⟨j, hj, rfl⟩ := List.mem_map.mp hi
      omega

/-- The quiet test of the way in: nothing on the stack and no flush bit
set. -/
theorem quiet_entry_bit {r : FlushReg} (hr : r = kFpcrReg ∨ r = kAfpcrReg)
    (ha : aux ≠ 31) (hne : mant ≠ aux) {F : BitVec 64} {t : Nat}
    (hm : c.reg mant = F) (he : c.reg exp = word (t + 1)) :
    ∃ v, Cpu.exec (emit_quiet_entry_test r exp mant aux) (.on, c)
        = (.on, c.set aux v)
      ∧ v.getLsbD 16 = ((word (t + 1)).getLsbD 16 && !F.getLsbD r.daz
        && !F.getLsbD r.ftz) := by
  rcases hr with rfl | rfl
  · refine ⟨Arm.narrow false (Arm.narrow false
        (word (t + 1) &&& ~~~(F <<< 16))
      &&& ~~~(Arm.narrow false F >>> 8)), ?_, ?_⟩
    · simp [Cpu.exec, emit_quiet_entry_test, kFpcrReg, ha, hne, hm, he,
        Arm.Logical.eval, Shift.eval]
    · rw [narrow_bit _ (by decide), BitVec.getLsbD_and,
        narrow_bit _ (by decide), BitVec.getLsbD_and, BitVec.getLsbD_not,
        BitVec.getLsbD_not, BitVec.getLsbD_shiftLeft,
        BitVec.getLsbD_ushiftRight, narrow_bit _ (by decide)]
      simp [kFpcrReg, -BitVec.getLsbD_eq_getElem]
  · refine ⟨Arm.narrow false (Arm.narrow false
        (word (t + 1) &&& ~~~(F <<< 16))
      &&& ~~~(F <<< 15)), ?_, ?_⟩
    · simp [Cpu.exec, emit_quiet_entry_test, kAfpcrReg, ha, hne, hm, he,
        Arm.Logical.eval, Shift.eval]
    · rw [narrow_bit _ (by decide), BitVec.getLsbD_and,
        narrow_bit _ (by decide), BitVec.getLsbD_and, BitVec.getLsbD_not,
        BitVec.getLsbD_not, BitVec.getLsbD_shiftLeft,
        BitVec.getLsbD_shiftLeft]
      simp [kAfpcrReg, -BitVec.getLsbD_eq_getElem]

/-- Entering: every slot is converted, the stash says which bits are
cleared, and they are. -/
theorem enter_run (flush : Option FlushReg)
    (hr : ∀ r ∈ flush, r = kFpcrReg ∨ r = kAfpcrReg)
    (h : [31, base, flags, mant, exp, sign, aux, tmp].Nodup) :
    ∃ c', Cpu.exec
        (emit_native_state_enter flush base flags mant exp sign aux tmp)
        (.on, c) = (.on, c')
      ∧ c'.mem = stashed flush (c.reg base) c.flush
          (moveAll (enterGet (c.reg base)) (enterPut (c.reg base))
            (List.range 8) c.mem)
      ∧ ClearedBy flush c.flush c'.flush
      ∧ c'.flags = c.flags
      ∧ ∀ q, q ∉ [flags, mant, exp, sign, aux, tmp] →
        c'.reg q = c.reg q := by
  have hall := h
  simp only [List.nodup_cons, List.mem_cons, not_or] at hall
  obtain ⟨⟨h31b, h31f, h31m, h31e, h31s, h31a, h31t, -⟩,
    ⟨hbf, hbm, hbe, hbs, hba, hbt, -⟩, -, ⟨hme, hms, hma, hmt, -⟩,
    ⟨hes, hea, het, -⟩, ⟨hsa, -⟩, -⟩ := hall
  obtain ⟨t, ht⟩ : ∃ t, (c.mem.load (c.reg base + 4) 2).toNat = t :=
    ⟨_, rfl⟩
  cases flush with
  | none =>
      obtain ⟨c', hexec, hmoves, hflags⟩ := @enter_convert
        (c.set exp (word (t + 1))) base flags mant exp sign aux tmp h t
        (by simpa [hbe] using ht) (reg_set_self (Ne.symm h31e))
      refine ⟨c', ?_, ?_, ?_, ?_, ?_⟩
      · show Cpu.exec (_ ++ _) _ = _
        rw [Cpu.exec_append, run_tags (Ne.symm h31b) (Ne.symm h31e) ht,
          hexec]
      · have hmem := hmoves.mem
        rw [reg_set_of_ne hbe, mem_set] at hmem
        exact hmem
      · have hflush := hmoves.flush
        rw [flush_set] at hflush
        exact hflush
      · rw [hflags, flags_set]
      · intro q hq
        rw [hmoves.reg q hq, reg_set_of_ne]
        rintro rfl
        simp at hq
  | some r =>
      have hr := hr r rfl
      obtain ⟨c₁, hc₁⟩ : ∃ c₁,
          (c.set mant c.flush).set exp (word (t + 1)) = c₁ := ⟨_, rfl⟩
      have hm₁ : c₁.reg mant = c.flush := by
        rw [← hc₁, reg_set_of_ne hme, reg_set_self (Ne.symm h31m)]
      have he₁ : c₁.reg exp = word (t + 1) := by
        rw [← hc₁, reg_set_self (Ne.symm h31e)]
      obtain ⟨v, hquiet, hbit⟩ := @quiet_entry_bit c₁ mant exp aux r hr
        (Ne.symm h31a) hma _ t hm₁ he₁
      obtain ⟨c₂, hc₂⟩ : ∃ c₂, c₁.set aux v = c₂ := ⟨_, rfl⟩
      rw [hc₂] at hquiet
      have hreg₂ : ∀ q, q ∉ [flags, mant, exp, sign, aux, tmp] →
          c₂.reg q = c.reg q := by
        intro q hq
        simp only [List.mem_cons, not_or] at hq
        rw [← hc₂, reg_set_of_ne hq.2.2.2.2.1, ← hc₁,
          reg_set_of_ne hq.2.2.1, reg_set_of_ne hq.2.1]
      have hb₂ : c₂.reg base = c.reg base :=
        hreg₂ base (by simp [hbf, hbm, hbe, hbs, hba, hbt])
      have he₂ : c₂.reg exp = word (t + 1) := by
        rw [← hc₂, reg_set_of_ne hea, he₁]
      have hmem₂ : c₂.mem = c.mem := by
        rw [← hc₂, mem_set, ← hc₁, mem_set, mem_set]
      have hflush₂ : c₂.flush = c.flush := by
        rw [← hc₂, flush_set, ← hc₁, flush_set, flush_set]
      have hflags₂ : c₂.flags = c.flags := by
        rw [← hc₂, flags_set, ← hc₁, flags_set, flags_set]
      have haux : holds c₂ (.tbz true aux 16) = v.getLsbD 16 := by
        rw [holds_tbz, ← hc₂, reg_set_self (Ne.symm h31a), beq_true]
      have hhead : Cpu.exec ([emit_mrs_flush mant] ++ boundary_tags base exp
          ++ emit_quiet_entry_test r exp mant aux) (.on, c) = (.on, c₂) := by
        have htags := @run_tags (c.set mant c.flush) base exp
          (Ne.symm h31b) (Ne.symm h31e) t
          (by simpa [hbm] using ht)
        rw [hc₁] at htags
        rw [Cpu.exec_append, Cpu.exec_append]
        show Cpu.exec _ (Cpu.exec _ (.on, c.set mant c.flush)) = _
        rw [htags, hquiet]
      show ∃ c', Cpu.exec (([emit_mrs_flush mant] ++ boundary_tags base exp
          ++ emit_quiet_entry_test r exp mant aux) ++ _ ++ _) (.on, c)
        = (.on, c') ∧ _
      rw [Cpu.exec_append, Cpu.exec_append, hhead, exec_patched, haux]
      have hoff : c.reg base + kFpcrStashHalfword.setWidth 64 * 2
          = c.reg base + 6 := rfl
      cases hv : v.getLsbD 16 with
      | true =>
          -- nothing to convert, no bit set
          rw [hv] at hbit
          have hbits := Bool.and_eq_true_iff.mp hbit.symm
          have hbits' := Bool.and_eq_true_iff.mp hbits.1
          have hd : c.flush.getLsbD r.daz = false := by
            simpa using hbits'.2
          have hf : c.flush.getLsbD r.ftz = false := by
            simpa using hbits.2
          have hempty := hbits'.1
          rw [← ht] at hempty
          have hsame : moveAll (enterGet (c.reg base)) (enterPut (c.reg base))
              (List.range 8) c.mem = c.mem :=
            moveAll_empty (fun i hi => if_pos hi) (fun _ _ => rfl) _
              fun i hi => all_empty hempty (List.mem_range.mp hi)
          refine ⟨c₂.setMem (c.mem.store (c.reg base + 6) 2 0), ?_, ?_, ?_,
            hflags₂, hreg₂⟩
          · rw [if_pos rfl, ← hoff]
            simp [Cpu.exec, fpcr_quiet, Ne.symm h31b, hb₂, hmem₂]
          · have hzero : stashOf r c.flush = 0 := by
              unfold stashOf
              rw [hf, hd]
              rfl
            show _ = Mem.store _ (c.reg base + 6) 2 (stashOf r c.flush)
            rw [hsame, hzero, mem_setMem]
          · refine ⟨fun k hk => ?_⟩
            rw [flush_setMem, hflush₂]
            by_cases h1 : k = r.ftz
            · rw [h1, hf, Bool.false_and, Bool.false_and]
            · by_cases h2 : k = r.daz
              · rw [h2, hd, Bool.false_and, Bool.false_and]
              · simp [h1, h2]
      | false =>
          obtain ⟨c₃, hconv, hmoves, hflags⟩ :=
            @enter_convert c₂ base flags
            mant exp sign aux tmp h t (by rw [hmem₂, hb₂]; exact ht) he₂
          have hb₃ : c₃.reg base = c.reg base := (hmoves.reg base
            (by simp [hbf, hbm, hbe, hbs, hba, hbt])).trans hb₂
          obtain ⟨c₄, hslow, hmem₄, hcleared, hflags₄, hreg₄⟩ :=
            @enter_slow_run c₃ base mant sign r hr
              (by simp [hbm, hbs, h31b, h31m, h31s, hms])
              kFpcrStashHalfword
          refine ⟨c₄, ?_, ?_, ?_, ?_, ?_⟩
          · rw [if_neg Bool.false_ne_true, Cpu.exec_append, hconv,
              ← Cpu.exec_append]
            exact hslow
          · rw [hmem₄, hb₃, hmoves.mem, hmoves.flush,
            hb₂, hmem₂, hflush₂]
            rfl
          · rw [hmoves.flush, hflush₂] at hcleared
            exact hcleared
          · rw [hflags₄, hflags, hflags₂]
          · intro q hq
            have hq' := hq
            simp only [List.mem_cons, not_or] at hq'
            rw [hreg₄ q hq'.2.1 hq'.2.2.2.1, hmoves.reg q hq, hreg₂ q hq]

/-- The stash as a number. -/
theorem stashOf_word (r : FlushReg) (F : BitVec 64) :
    (stashOf r F).setWidth 64
      = word (if F.getLsbD r.ftz || F.getLsbD r.daz then
          1 + 2 * (F.getLsbD r.ftz).toNat + 4 * (F.getLsbD r.daz).toNat
        else 0) := by
  unfold stashOf
  cases F.getLsbD r.ftz <;> cases F.getLsbD r.daz <;> rfl

/-- With nothing to restore, the register was never changed. -/
theorem Cleared.same {r : FlushReg} {F v : BitVec 64} (h : Cleared r F v)
    (hset : (F.getLsbD r.ftz || F.getLsbD r.daz) = false) :
    v.setWidth 32 = F.setWidth 32 := by
  obtain ⟨hf, hd⟩ := Bool.or_eq_false_iff.mp hset
  apply BitVec.eq_of_getLsbD_eq
  intro k hk
  rw [BitVec.getLsbD_setWidth, BitVec.getLsbD_setWidth, decide_eq_true hk,
    Bool.true_and, Bool.true_and, h.bits k hk]
  by_cases h1 : k = r.ftz
  · rw [h1, hf, Bool.false_and, Bool.false_and]
  · by_cases h2 : k = r.daz
    · rw [h2, hd, Bool.false_and, Bool.false_and]
    · simp [h1, h2]

/-- Put back, the flush bits complete what was left of the register. -/
theorem Cleared.restored {r : FlushReg} {F v v' : BitVec 64}
    (h : Cleared r F v)
    (h' : ∀ k, k < 32 → v'.getLsbD k = if k = r.daz then F.getLsbD r.daz
      else if k = r.ftz then F.getLsbD r.ftz else v.getLsbD k) :
    v'.setWidth 32 = F.setWidth 32 := by
  apply BitVec.eq_of_getLsbD_eq
  intro k hk
  rw [BitVec.getLsbD_setWidth, BitVec.getLsbD_setWidth, decide_eq_true hk,
    Bool.true_and, Bool.true_and, h' k hk]
  split_ifs with h1 h2
  · rw [h1]
  · rw [h2]
  · rw [h.bits k hk]
    simp [h1, h2]

/-- What the way out does before it converts. -/
theorem exit_restore {r : FlushReg} (hr : r = kFpcrReg ∨ r = kAfpcrReg)
    (hm : mant ≠ 31) (hs : sign ≠ 31) (hms : mant ≠ sign) {F : BitVec 64}
    (hsign : c.reg sign = (stashOf r F).setWidth 64)
    (hcleared : Cleared r F c.flush) :
    ∃ c', Cpu.exec (patched (.cbz false false sign)
        (emit_fpcr_restore r mant sign)) (.on, c) = (.on, c')
      ∧ c'.mem = c.mem ∧ c'.flags = c.flags
      ∧ c'.flush.setWidth 32 = F.setWidth 32
      ∧ ∀ q, q ≠ mant → q ≠ sign → c'.reg q = c.reg q := by
  rw [stashOf_word] at hsign
  rw [exec_patched, holds_cbz, hsign]
  cases hset : F.getLsbD r.ftz || F.getLsbD r.daz with
  | false =>
      refine ⟨c, ?_, rfl, rfl, hcleared.same hset, fun _ _ _ => rfl⟩
      rw [if_neg Bool.false_ne_true]
      rfl
  | true =>
      rw [hset, if_pos rfl] at hsign
      obtain ⟨c', hexec, hmem, hflags, hbits, hreg⟩ := @restore_run c mant
        sign r hr hm hs hms _ _ hsign
      refine ⟨c', ?_, hmem, hflags, hcleared.restored hbits, hreg⟩
      have hne : decide (Arm.narrow false (word (1
          + 2 * (F.getLsbD r.ftz).toNat + 4 * (F.getLsbD r.daz).toNat)) = 0)
          = false := by
        cases F.getLsbD r.ftz <;> cases F.getLsbD r.daz <;> rfl
      rw [if_pos rfl, hne]
      exact hexec

/-- The quiet test of the way out: nothing on the stack and nothing to
restore. -/
theorem quiet_exit_bit {S : BitVec 64} {t : Nat}
    (hs : c.reg sign = S) (he : c.reg exp = word (t + 1)) :
    ∃ v, Cpu.exec ([emit_logical_shifted_reg false .and true .lsl sign 16
        exp aux] : Code) (.on, c) = (.on, c.set aux v)
      ∧ v.getLsbD 16 = ((word (t + 1)).getLsbD 16 && !S.getLsbD 0) := by
  refine ⟨Arm.narrow false (word (t + 1) &&& ~~~(S <<< 16)), ?_, ?_⟩
  · simp [Cpu.exec, hs, he, Arm.Logical.eval, Shift.eval]
  · rw [narrow_bit _ (by decide), BitVec.getLsbD_and, BitVec.getLsbD_not,
      BitVec.getLsbD_shiftLeft]
    simp [-BitVec.getLsbD_eq_getElem]

/-- Leaving, from a stash that says what was cleared: every slot is
converted and the flush bits are back. -/
theorem exit_run (flush : Option FlushReg)
    (hr : ∀ r ∈ flush, r = kFpcrReg ∨ r = kAfpcrReg)
    (h : [31, base, flags, mant, exp, sign, aux, tmp].Nodup)
    {F : BitVec 64} (hstash : ∀ r ∈ flush,
      c.mem.load (c.reg base + 6) 2 = stashOf r F)
    (hcleared : ClearedBy flush F c.flush) :
    ∃ c', Cpu.exec
        (emit_native_state_exit flush base flags mant exp sign aux tmp fp)
        (.on, c) = (.on, c')
      ∧ c'.mem = moveAll (exitGet (c.reg base)) (exitPut (c.reg base))
          ((List.range 8).map (7 - ·)) c.mem
      ∧ c'.flush.setWidth 32 = F.setWidth 32
      ∧ c'.flags = c.flags
      ∧ ∀ q, q ∉ [flags, mant, exp, sign, aux, tmp] →
        c'.reg q = c.reg q := by
  have hall := h
  have h' : [31, base, flags, mant, exp, sign, tmp].Nodup := by
    simp only [List.nodup_cons, List.mem_cons, not_or] at h ⊢
    simp [h]
  simp only [List.nodup_cons, List.mem_cons, not_or] at hall
  obtain ⟨⟨h31b, h31f, h31m, h31e, h31s, h31a, h31t, -⟩,
    ⟨hbf, hbm, hbe, hbs, hba, hbt, -⟩, -, ⟨hme, hms, hma, hmt, -⟩,
    ⟨hes, hea, het, -⟩, ⟨hsa, -⟩, -⟩ := hall
  obtain ⟨t, ht⟩ : ∃ t, (c.mem.load (c.reg base + 4) 2).toNat = t :=
    ⟨_, rfl⟩
  have hweak : ∀ q, q ∉ [flags, mant, exp, sign, aux, tmp] →
      q ∉ [flags, mant, exp, sign, tmp] := by
    intro q hq
    simp only [List.mem_cons, not_or] at hq ⊢
    simp [hq]
  cases flush with
  | none =>
      obtain ⟨c', hexec, hmoves, hflags⟩ := @exit_convert
        (c.set exp (word (t + 1))) base flags mant exp sign tmp fp h' t
        (by simpa [hbe] using ht) (reg_set_self (Ne.symm h31e))
      refine ⟨c', ?_, ?_, ?_, ?_, ?_⟩
      · show Cpu.exec (_ ++ _) _ = _
        rw [Cpu.exec_append, run_tags (Ne.symm h31b) (Ne.symm h31e) ht,
          hexec]
      · have hmem := hmoves.mem
        rw [reg_set_of_ne hbe, mem_set] at hmem
        exact hmem
      · have hflush := hmoves.flush
        rw [flush_set] at hflush
        rw [hflush, show c.flush = F from hcleared]
      · rw [hflags, flags_set]
      · intro q hq
        rw [hmoves.reg q (hweak q hq), reg_set_of_ne]
        rintro rfl
        simp at hq
  | some r =>
      have hr := hr r rfl
      have hstash := hstash r rfl
      have hcleared : Cleared r F c.flush := hcleared
      obtain ⟨S, hS⟩ : ∃ S, (stashOf r F).setWidth 64 = S := ⟨_, rfl⟩
      obtain ⟨c₁, hc₁⟩ : ∃ c₁,
          (c.set sign S).set exp (word (t + 1)) = c₁ := ⟨_, rfl⟩
      have hs₁ : c₁.reg sign = S := by
        rw [← hc₁, reg_set_of_ne (Ne.symm hes), reg_set_self (Ne.symm h31s)]
      have he₁ : c₁.reg exp = word (t + 1) := by
        rw [← hc₁, reg_set_self (Ne.symm h31e)]
      obtain ⟨v, hquiet, hbit⟩ := @quiet_exit_bit c₁ exp sign aux S t
        hs₁ he₁
      obtain ⟨c₂, hc₂⟩ : ∃ c₂, c₁.set aux v = c₂ := ⟨_, rfl⟩
      rw [hc₂] at hquiet
      have hreg₂ : ∀ q, q ∉ [flags, mant, exp, sign, aux, tmp] →
          c₂.reg q = c.reg q := by
        intro q hq
        simp only [List.mem_cons, not_or] at hq
        rw [← hc₂, reg_set_of_ne hq.2.2.2.2.1, ← hc₁,
          reg_set_of_ne hq.2.2.1, reg_set_of_ne hq.2.2.2.1]
      have hb₂ : c₂.reg base = c.reg base :=
        hreg₂ base (by simp [hbf, hbm, hbe, hbs, hba, hbt])
      have he₂ : c₂.reg exp = word (t + 1) := by
        rw [← hc₂, reg_set_of_ne hea, he₁]
      have hs₂ : c₂.reg sign = (stashOf r F).setWidth 64 := by
        rw [← hc₂, reg_set_of_ne hsa, hs₁, hS]
      have hmem₂ : c₂.mem = c.mem := by
        rw [← hc₂, mem_set, ← hc₁, mem_set, mem_set]
      have hflush₂ : c₂.flush = c.flush := by
        rw [← hc₂, flush_set, ← hc₁, flush_set, flush_set]
      have hflags₂ : c₂.flags = c.flags := by
        rw [← hc₂, flags_set, ← hc₁, flags_set, flags_set]
      have haux : holds c₂ (.tbz true aux 16) = v.getLsbD 16 := by
        rw [holds_tbz, ← hc₂, reg_set_self (Ne.symm h31a), beq_true]
      have hhead : Cpu.exec ([emit_ldr_imm 1 sign base kFpcrStashHalfword]
          ++ boundary_tags base exp
          ++ [emit_logical_shifted_reg false .and true .lsl sign 16 exp aux])
          (.on, c) = (.on, c₂) := by
        have hload : Cpu.exec
            ([emit_ldr_imm 1 sign base kFpcrStashHalfword] : Code) (.on, c)
            = (.on, c.set sign S) := by
          have haddr : c.load 1 (c.reg base + 6#64) = S := by
            rw [← hS, ← hstash]
            rfl
          simp [Cpu.exec, Ne.symm h31b, kFpcrStashHalfword, haddr]
        have htags := @run_tags (c.set sign S) base exp
          (Ne.symm h31b) (Ne.symm h31e) t
          (by simpa [hbs] using ht)
        rw [hc₁] at htags
        rw [Cpu.exec_append, Cpu.exec_append, hload, htags, hquiet]
      show ∃ c', Cpu.exec (([emit_ldr_imm 1 sign base kFpcrStashHalfword]
          ++ boundary_tags base exp
          ++ [emit_logical_shifted_reg false .and true .lsl sign 16 exp aux])
          ++ _) (.on, c) = (.on, c') ∧ _
      rw [Cpu.exec_append, hhead, exec_patched, haux]
      cases hv : v.getLsbD 16 with
      | true =>
          -- nothing to convert, nothing to restore
          rw [hv] at hbit
          have hbits := Bool.and_eq_true_iff.mp hbit.symm
          have hempty := hbits.1
          rw [← ht] at hempty
          have hset : (F.getLsbD r.ftz || F.getLsbD r.daz) = false := by
            have hzero : S.getLsbD 0 = false := by simpa using hbits.2
            rw [← hS, stashOf_word] at hzero
            revert hzero
            cases F.getLsbD r.ftz <;> cases F.getLsbD r.daz <;> decide
          have hsame := @moveAll_empty (c.reg base) c.mem _
            exitGet exitPut (fun i hi => if_pos hi)
            (fun _ _ => rfl) ((List.range 8).map (7 - ·)) (fun i hi => by
              obtain ⟨j, hj, rfl⟩ := List.mem_map.mp hi
              exact all_empty hempty (by omega))
          refine ⟨c₂, by rw [if_pos rfl], ?_, ?_, hflags₂, hreg₂⟩
          · rw [hsame, hmem₂]
          · rw [hflush₂]
            exact hcleared.same hset
      | false =>
          obtain ⟨c₃, hrestore, hmem₃, hflags₃, hflush₃, hreg₃⟩ :=
            @exit_restore c₂ mant sign r hr (Ne.symm h31m) (Ne.symm h31s) hms
              F hs₂ (by rw [hflush₂]; exact hcleared)
          have hb₃ : c₃.reg base = c.reg base :=
            (hreg₃ base hbm hbs).trans hb₂
          have he₃ : c₃.reg exp = word (t + 1) :=
            (hreg₃ exp (Ne.symm hme) hes).trans he₂
          obtain ⟨c₄, hconv, hmoves, hflags⟩ :=
            @exit_convert c₃ base flags
            mant exp sign tmp fp h' t
            (by rw [hmem₃, hmem₂, hb₃]; exact ht) he₃
          refine ⟨c₄, ?_, ?_, ?_, ?_, ?_⟩
          · rw [if_neg Bool.false_ne_true, Cpu.exec_append, hrestore, hconv]
          · rw [hmoves.mem, hb₃, hmem₃, hmem₂]
          · rw [hmoves.flush, hflush₃]
          · rw [hflags, hflags₃, hflags₂]
          · intro q hq
            have hq' := hq
            simp only [List.mem_cons, not_or] at hq'
            rw [hmoves.reg q (hweak q hq), hreg₃ q hq'.2.1 hq'.2.2.2.1,
              hreg₂ q hq]

end

-- =========================================== what the boundary leaves

section
variable {B : BitVec 64} {mem : Mem 64} {x : BitVec 64}

/-- A store leaves the bytes before and behind it. -/
theorem store_byte {k n : Nat} {v : BitVec (8 * n)}
    (h : Mem.offset B x < k ∨ k + n ≤ Mem.offset B x)
    (hk : k + n ≤ 2 ^ 64) :
    (mem.store (B + BitVec.ofNat 64 k) n v) x = mem x := by
  apply Mem.store_of_le
  have hlt : Mem.offset B x < 2 ^ 64 := (x - B).isLt
  have hoff : Mem.offset (B + BitVec.ofNat 64 k) x
      = (2 ^ 64 - k % 2 ^ 64 + Mem.offset B x) % 2 ^ 64 := by
    unfold Mem.offset
    rw [← sub_sub, BitVec.toNat_sub, BitVec.toNat_ofNat]
  rw [hoff]
  omega

theorem enterPut_byte {i : Nat} (v : Option (BitVec 64)) (hi : i < 8)
    (h : Mem.offset B x < 6 ∨ 86 ≤ Mem.offset B x) :
    enterPut B i v mem x = mem x := by
  cases v with
  | none => rfl
  | some v => exact store_byte (by omega) (by omega)

theorem exitPut_byte {i : Nat} (v : Option Extended) (hi : i < 8)
    (h : Mem.offset B x < 6 ∨ 86 ≤ Mem.offset B x) :
    exitPut B i v mem x = mem x := by
  cases v with
  | none => rfl
  | some v =>
      have hsum : B + BitVec.ofNat 64 (6 + 10 * i) + 8
          = B + BitVec.ofNat 64 (14 + 10 * i) := by
        rw [BitVec.add_assoc, show (8 : BitVec 64) = BitVec.ofNat 64 8
          from rfl, ← BitVec.ofNat_add]
        congr 2
        omega
      show ((mem.store _ 8 v.mant).store (_ + 8) 2 v.se) x = _
      rw [hsum, store_byte (by omega) (by omega),
        store_byte (by omega) (by omega)]

/-- The stash stands where no slot of the compact layout does. -/
theorem stashed_slot {flush : Option FlushReg} {v : BitVec 64} {i : Nat}
    (hi : i < 8) :
    compactSlot (stashed flush B v mem) B i = compactSlot mem B i := by
  cases flush with
  | none => rfl
  | some r =>
      exact load_store_offsets (a := 6) (by omega) (by decide) (by omega)

/-- Nor where the tags are, and no slot does: the way in leaves them. -/
theorem tagOf_entered (flush : Option FlushReg) (v : BitVec 64) (i : Nat) :
    tagOf (stashed flush B v (moveAll (enterGet B) (enterPut B)
      (List.range 8) mem)) B i = tagOf mem B i := by
  have hstash : ∀ m, tagOf (stashed flush B v m) B i = tagOf m B i := by
    intro m
    cases flush with
    | none => rfl
    | some r =>
        exact congrArg (fun t => BitVec.toNat t / 2 ^ (2 * i) % 4)
          (load_store_offsets (a := 6) (b := 4) (by omega) (by decide)
            (by decide))
  rw [hstash]
  exact moveAll_keeps (fun mem => tagOf mem B i)
    (fun j hj v m => tagOf_enterPut v (List.mem_range.mp hj)) mem

theorem stashed_byte {flush : Option FlushReg} {v : BitVec 64}
    (h : Mem.offset B x < 6 ∨ 86 ≤ Mem.offset B x) :
    stashed flush B v mem x = mem x := by
  cases flush with
  | none => rfl
  | some r => exact store_byte (k := 6) (by omega) (by decide)

end

section
variable {c d : Cpu} {flush : Option FlushReg}
variable {base flags mant exp sign aux tmp : Nat}
variable {base' flags' mant' exp' sign' aux' tmp' fp : Nat}

/-- A reply on the compact layout. On the way in every slot that is not
empty arrives as its nearest double, the flush bits are cleared and the
guest's flags are kept; on the way out every slot that is then not empty
takes the double the reply left there, and the flush bits are back. The
three words and all that stands behind the slots are the reply's alone. -/
theorem native_state_reply
    (hr : ∀ r ∈ flush, r = kFpcrReg ∨ r = kAfpcrReg)
    (h : [31, base, flags, mant, exp, sign, aux, tmp].Nodup)
    (h' : [31, base', flags', mant', exp', sign', aux', tmp'].Nodup)
    (hbase : d.reg base' = c.reg base)
    (hstash : d.mem.load (c.reg base + 6) 2
      = (run (emit_native_state_enter flush base flags mant exp sign aux
        tmp) c).mem.load (c.reg base + 6) 2)
    (hflush : d.flush = (run (emit_native_state_enter flush base flags mant
      exp sign aux tmp) c).flush) :
    let B := c.reg base
    let c₁ := run (emit_native_state_enter flush base flags mant exp sign
      aux tmp) c
    let d₁ := run (emit_native_state_exit flush base' flags' mant' exp'
      sign' aux' tmp' fp) d
    (∀ i < 8, tagOf c.mem B i ≠ 3 →
        compactSlot c₁.mem B i = (nativeSlot c.mem B i).toDouble false)
      ∧ (∀ i < 8, tagOf d.mem B i ≠ 3 →
        nativeSlot d₁.mem B i = Double.toExtended (compactSlot d.mem B i))
      ∧ (∀ x, Mem.offset B x < 6 ∨ 86 ≤ Mem.offset B x →
        c₁.mem x = c.mem x ∧ d₁.mem x = d.mem x)
      ∧ ClearedBy flush c.flush c₁.flush
      ∧ d₁.flush.setWidth 32 = c.flush.setWidth 32
      ∧ c₁.flags = c.flags ∧ d₁.flags = d.flags := by
  obtain ⟨c₁, henter, hmem, hcleared, hflags, -⟩ :=
    @enter_run c base flags
    mant exp sign aux tmp flush hr h
  have hc₁ : run (emit_native_state_enter flush base flags mant exp sign aux
      tmp) c = c₁ := congrArg Prod.snd henter
  rw [hc₁] at hstash hflush
  have hread : ∀ r ∈ flush,
      d.mem.load (d.reg base' + 6) 2 = stashOf r c.flush := by
    intro r hr'
    obtain rfl : flush = some r := hr'
    rw [hbase, hstash, hmem]
    exact Mem.load_store_self (by decide)
  obtain ⟨d₁, hexit, hmem', hflush', hflags', -⟩ :=
    @exit_run d base' flags'
    mant' exp' sign' aux' tmp' fp flush hr h' c.flush hread
    (by rw [hflush]; exact hcleared)
  have hd₁ : run (emit_native_state_exit flush base' flags' mant' exp' sign'
      aux' tmp' fp) d = d₁ := congrArg Prod.snd hexit
  dsimp only
  rw [hc₁, hd₁]
  rw [hbase] at hmem'
  refine ⟨?_, ?_, ?_, hcleared, hflush', hflags, hflags'⟩
  · intro i hi htag
    rw [hmem, stashed_slot hi, enter_moves hi htag]
  · intro i hi htag
    rw [hmem', exit_moves hi htag]
  · intro x hx
    constructor
    · rw [hmem, stashed_byte hx]
      exact moveAll_keeps (fun mem => mem x) (fun i hi v m =>
        enterPut_byte v (List.mem_range.mp hi) hx) c.mem
    · rw [hmem']
      refine moveAll_keeps (fun mem => mem x) (fun i hi v m =>
        exitPut_byte v ?_ hx) d.mem
      obtain ⟨j, hj, rfl⟩ := List.mem_map.mp hi
      omega

/-- In and out again: a slot that is not empty holds its nearest double,
widened; so what a double represents, and is no signalling NaN, is as it
was, bit for bit. Control, status and tag words are kept. -/
theorem native_state_round_trip
    (hr : ∀ r ∈ flush, r = kFpcrReg ∨ r = kAfpcrReg)
    (h : [31, base, flags, mant, exp, sign, aux, tmp].Nodup) :
    let B := c.reg base
    let c₂ := run (emit_native_state_exit flush base flags mant exp sign
      aux tmp fp) (run (emit_native_state_enter flush base flags mant exp
        sign aux tmp) c)
    (∀ i < 8, tagOf c.mem B i ≠ 3 → nativeSlot c₂.mem B i
        = Double.toExtended ((nativeSlot c.mem B i).toDouble false))
      ∧ (∀ i < 8, ∀ b, tagOf c.mem B i ≠ 3 → Double.quieted b = b →
        nativeSlot c.mem B i = Double.toExtended b →
        nativeSlot c₂.mem B i = nativeSlot c.mem B i)
      ∧ c₂.mem.load B 6 = c.mem.load B 6
      ∧ c₂.flush.setWidth 32 = c.flush.setWidth 32
      ∧ c₂.flags = c.flags
      ∧ ∀ q, q ∉ [flags, mant, exp, sign, aux, tmp] →
        c₂.reg q = c.reg q := by
  obtain ⟨c₁, henter, hmem, hcleared, hflags, hreg⟩ := @enter_run c base
    flags mant exp sign aux tmp flush hr h
  have hc₁ : run (emit_native_state_enter flush base flags mant exp sign aux
      tmp) c = c₁ := congrArg Prod.snd henter
  have hbase : c₁.reg base = c.reg base := by
    apply hreg
    simp only [List.nodup_cons, List.mem_cons, not_or] at h
    simp [h]
  have hread : ∀ r ∈ flush,
      c₁.mem.load (c₁.reg base + 6) 2 = stashOf r c.flush := by
    intro r hr'
    obtain rfl : flush = some r := hr'
    rw [hbase, hmem]
    exact Mem.load_store_self (by decide)
  obtain ⟨c₂, hexit, hmem', hflush', hflags', hreg'⟩ :=
    @exit_run c₁ base
    flags mant exp sign aux tmp fp flush hr h c.flush hread hcleared
  have hc₂ : run (emit_native_state_exit flush base flags mant exp sign
      aux tmp fp) c₁ = c₂ := congrArg Prod.snd hexit
  rw [hbase] at hmem'
  have htag : ∀ i, tagOf c₁.mem (c.reg base) i
      = tagOf c.mem (c.reg base) i := by
    intro i
    rw [hmem, tagOf_entered]
  have hslot : ∀ i < 8, tagOf c.mem (c.reg base) i ≠ 3 →
      nativeSlot c₂.mem (c.reg base) i = Double.toExtended
        ((nativeSlot c.mem (c.reg base) i).toDouble false) := by
    intro i hi hfull
    rw [hmem', exit_moves hi (by rw [htag]; exact hfull), hmem,
      stashed_slot hi, enter_moves hi hfull]
  have hbyte : ∀ x, Mem.offset (c.reg base) x < 6 →
      c₂.mem x = c.mem x := by
    intro x hx
    have hout := @moveAll_keeps _ _ _ (exitGet (c.reg base))
      (exitPut (c.reg base)) ((List.range 8).map (7 - ·)) _
      (fun mem => mem x) (fun i hi v m => exitPut_byte v (by
        obtain ⟨j, hj, rfl⟩ := List.mem_map.mp hi
        omega) (.inl hx)) c₁.mem
    have hin := @moveAll_keeps _ _ _ (enterGet (c.reg base))
      (enterPut (c.reg base)) (List.range 8) _ (fun mem => mem x)
      (fun i hi v m => enterPut_byte v (List.mem_range.mp hi) (.inl hx))
      c.mem
    rw [hmem']
    refine hout.trans ?_
    rw [hmem, stashed_byte (.inl hx)]
    exact hin
  dsimp only
  rw [hc₁, hc₂]
  refine ⟨hslot, ?_, ?_, hflush', hflags'.trans hflags,
    fun q hq => (hreg' q hq).trans (hreg q hq)⟩
  · intro i hi b hfull hquiet hb
    rw [hslot i hi hfull, hb, toDouble_toExtended, hquiet]
  · apply Mem.load_congr
    intro i hi
    apply hbyte
    unfold Mem.offset
    rw [add_sub_cancel_left, BitVec.toNat_ofNat]
    omega

/-- A reply on Rosetta's own slots stashes behind them: neither a slot nor
a word is touched, and the flush bits are cleared in between and back in
the end. -/
theorem native_slots_flush {r : FlushReg} {fpcr bits fpcr' bits' : Nat}
    (hr : r = kFpcrReg ∨ r = kAfpcrReg)
    (h : [31, base, fpcr, bits].Nodup) (h' : [31, base', fpcr', bits'].Nodup)
    (hbase : d.reg base' = c.reg base)
    (hstash : d.mem.load (c.reg base + 86) 2
      = (run (emit_native_slots_fpcr_enter r base fpcr bits) c).mem.load
        (c.reg base + 86) 2)
    (hflush : d.flush
      = (run (emit_native_slots_fpcr_enter r base fpcr bits) c).flush) :
    let c₁ := run (emit_native_slots_fpcr_enter r base fpcr bits) c
    let d₁ := run (emit_native_slots_fpcr_exit r base' fpcr' bits') d
    Cleared r c.flush c₁.flush
      ∧ d₁.flush.setWidth 32 = c.flush.setWidth 32
      ∧ (∀ x, Mem.offset (c.reg base) x < 86
        ∨ 88 ≤ Mem.offset (c.reg base) x → c₁.mem x = c.mem x)
      ∧ d₁.mem = d.mem ∧ c₁.flags = c.flags
      ∧ d₁.flags = d.flags := by
  obtain ⟨c₁, henter, hmem, hcleared, hflags, -⟩ := @enter_slow_run c base
    fpcr bits r hr h kNativeSlotsStashHalfword
  have hc₁ : run (emit_native_slots_fpcr_enter r base fpcr bits) c = c₁ :=
    congrArg Prod.snd henter
  have hoff : c.reg base + kNativeSlotsStashHalfword.setWidth 64 * 2
      = c.reg base + BitVec.ofNat 64 86 := rfl
  rw [hoff] at hmem
  rw [hc₁] at hstash hflush
  simp only [List.nodup_cons, List.mem_cons, not_or] at h'
  obtain ⟨⟨h31b, h31f, h31s, -⟩, ⟨hbf, hbs, -⟩,
    ⟨hfs, -⟩, -⟩ := h'
  have hword : d.load 1 (d.reg base' + 86#64)
      = (stashOf r c.flush).setWidth 64 := by
    have hload : d.mem.load (c.reg base + BitVec.ofNat 64 86) 2
        = stashOf r c.flush := by
      refine hstash.trans ?_
      rw [hmem]
      exact Mem.load_store_self (by decide)
    rw [hbase, ← hload]
    rfl
  obtain ⟨d₁, hexit, hmem₁, hflags₁, hback, -⟩ := @exit_restore
    (d.set bits' ((stashOf r c.flush).setWidth 64)) fpcr' bits' r hr
    (Ne.symm h31f) (Ne.symm h31s) hfs c.flush
    (reg_set_self (Ne.symm h31s)) (by rw [flush_set, hflush]; exact hcleared)
  have hd₁ : run (emit_native_slots_fpcr_exit r base' fpcr' bits') d
      = d₁ := by
    have hload : Cpu.exec
        ([emit_ldr_imm 1 bits' base' kNativeSlotsStashHalfword] : Code)
        (.on, d) = (.on, d.set bits' ((stashOf r c.flush).setWidth 64)) := by
      simp [Cpu.exec, Ne.symm h31b, kNativeSlotsStashHalfword, hword]
    have hexec : Cpu.exec (emit_native_slots_fpcr_exit r base' fpcr' bits')
        (.on, d) = (.on, d₁) := by
      unfold emit_native_slots_fpcr_exit
      rw [Cpu.exec_append, hload, hexit]
    exact congrArg Prod.snd hexec
  dsimp only
  rw [hc₁, hd₁]
  refine ⟨hcleared, hback, fun x hx => ?_, ?_, hflags, ?_⟩
  · rw [hmem]
    exact store_byte (by omega) (by decide)
  · rw [hmem₁, mem_set]
  · rw [hflags₁, flags_set]

end

/-- Eight zeros on the stack, both flush bits set; the registers that are
not zero are 256, where the state is. -/
def flushing : Cpu where
  x r := if r = 0 then 0 else 256
  sp := 0
  mem := fun _ => 0
  d _ := 0
  flags := ⟨true, false, true, false⟩
  flush := 0x1000001

/-- 1.5 in slot 3 of it, as 80 bits. -/
def oneAndHalf : Cpu :=
  flushing.setMem
    (exitPut 256 3 (some ⟨0xC000000000000000, 0x3FFF⟩) flushing.mem)

theorem nativeSlot_oneAndHalf :
    nativeSlot oneAndHalf.mem 256 3 = ⟨0xC000000000000000, 0x3FFF⟩ :=
  nativeSlot_exitPut _

theorem reg_oneAndHalf : oneAndHalf.reg 1 = 256 := rfl

theorem tagOf_oneAndHalf : tagOf oneAndHalf.mem 256 3 ≠ 3 := by
  have hzero : tagOf oneAndHalf.mem 256 3 = tagOf flushing.mem 256 3 :=
    tagOf_exitPut _ (by decide)
  rw [hzero]
  decide

/-- The way into a reply. -/
def entered : Cpu :=
  run (emit_native_state_enter (some kFpcrReg) 1 2 3 4 5 6 7) oneAndHalf

theorem run_enter_oneAndHalf :
    run (emit_native_state_enter (some kFpcrReg) 1 2 3 4 5 6 7) oneAndHalf
      = entered := rfl

/-- A reply that puts -2 into slot 3 of the compact layout. -/
def replied : Cpu :=
  entered.setMem (entered.mem.store 288 8 (0xC000000000000000#64))

/-- 1.5 comes back as it was, and both bits are set again. -/
theorem native_state_round_trip_oneAndHalf :
    nativeSlot (run (emit_native_state_exit (some kFpcrReg) 1 2 3 4 5 6 7 0)
        entered).mem 256 3 = ⟨0xC000000000000000, 0x3FFF⟩
      ∧ (run (emit_native_state_exit (some kFpcrReg) 1 2 3 4 5 6 7 0)
        entered).flush.setWidth 32 = 0x1000001#32 := by
  have h := @native_state_round_trip oneAndHalf (some kFpcrReg) 1 2 3 4 5 6
    7 0 (fun r hr => .inl (Option.some.inj hr).symm) (by decide)
  dsimp only at h
  rw [reg_oneAndHalf, run_enter_oneAndHalf] at h
  have hdouble : (⟨0xC000000000000000, 0x3FFF⟩ : Extended)
      = Double.toExtended 0x3FF8000000000000 := by decide
  have hslot := h.2.1 3 (by decide) 0x3FF8000000000000 tagOf_oneAndHalf
    (by decide) (nativeSlot_oneAndHalf.trans hdouble)
  rw [nativeSlot_oneAndHalf] at hslot
  exact ⟨hslot, h.2.2.2.1⟩

/-- The reply finds 1.5, and its -2 comes out as 80 bits. -/
theorem native_state_reply_oneAndHalf :
    compactSlot entered.mem 256 3 = 0x3FF8000000000000#64
      ∧ nativeSlot (run (emit_native_state_exit (some kFpcrReg) 1 2 3 4 5 6
        7 0) replied).mem 256 3 = ⟨0x8000000000000000, 0xC000⟩ := by
  obtain ⟨c₁, henter, hmem, -, -, hreg⟩ := @enter_run oneAndHalf 1 2 3 4 5
    6 7 (some kFpcrReg) (fun r hr => .inl (Option.some.inj hr).symm)
    (by decide)
  have hc₁ : entered = c₁ := congrArg Prod.snd henter
  rw [reg_oneAndHalf] at hmem
  have hbase : replied.reg 1 = oneAndHalf.reg 1 := by
    unfold replied
    rw [reg_setMem, hc₁]
    exact hreg 1 (by decide)
  -- the reply's slot stands behind the words and the stash
  have hload : ∀ b, b + 2 ≤ 32 →
      replied.mem.load (256 + BitVec.ofNat 64 b) 2
        = entered.mem.load (256 + BitVec.ofNat 64 b) 2 := fun b hb =>
    @load_store_offsets 256 _ 32 b 8 2 _ (.inr hb) (by decide) (by omega)
  have hstash : replied.mem.load (256 + 6) 2
      = entered.mem.load (256 + 6) 2 := hload 6 (by decide)
  have htag : tagOf replied.mem 256 3 ≠ 3 := by
    have hword : replied.mem.load (256 + 4) 2
        = entered.mem.load (256 + 4) 2 := hload 4 (by decide)
    unfold tagOf
    rw [hword]
    show tagOf entered.mem 256 3 ≠ 3
    rw [hc₁, hmem, tagOf_entered]
    exact tagOf_oneAndHalf
  have hslot : compactSlot replied.mem 256 3 = 0xC000000000000000#64 :=
    Mem.load_store_self (by decide)
  have h := @native_state_reply oneAndHalf replied (some kFpcrReg) 1 2 3 4 5
    6 7 1 2 3 4 5 6 7 0 (fun r hr => .inl (Option.some.inj hr).symm)
    (by decide) (by decide) hbase
    (by rw [reg_oneAndHalf, run_enter_oneAndHalf, hstash])
    (by rw [run_enter_oneAndHalf, replied, flush_setMem])
  dsimp only at h
  rw [reg_oneAndHalf, run_enter_oneAndHalf] at h
  have hdouble : (⟨0xC000000000000000, 0x3FFF⟩ : Extended).toDouble false
      = 0x3FF8000000000000#64 := by decide
  refine ⟨(h.1 3 (by decide) tagOf_oneAndHalf).trans
    ((congrArg _ nativeSlot_oneAndHalf).trans hdouble), ?_⟩
  rw [h.2.1 3 (by decide) htag, hslot]
  decide

/-- Both bits are set again after a reply that does nothing. -/
theorem native_slots_flush_both :
    (run (emit_native_slots_fpcr_exit kAfpcrReg 1 2 3)
      (run (emit_native_slots_fpcr_enter kAfpcrReg 1 2 3)
        { flushing with flush := 3 })).flush.setWidth 32 = 3#32 :=
  (@native_slots_flush { flushing with flush := 3 } _ 1 1 kAfpcrReg 2 3 2 3
    (.inr rfl) (by decide) (by decide) (by decide) rfl rfl).2.1

end X87Sidecar.F80
