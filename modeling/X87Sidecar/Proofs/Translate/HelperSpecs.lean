/-
The stack helpers: of each, what it may write, which is read off its
instructions; what it stores; and what it leaves in the register it is
called for.
-/
import X87Sidecar.Proofs.Translate.Helpers

namespace X87Sidecar.Helpers

open Lib Lib.Cpu Lines

-- ========================================================== TOP's word

section
variable {c : Cpu} {Xbase Wd_top Wd_tmp : Nat} {t : BitVec 3}

theorem withTop_bfm (sw : BitVec 16) (t : BitVec 3) :
    (Arm.narrow false (bfmEval 32 21 2 (slotWord t)
      (sw.setWidth 64))).setWidth 16 = withTop sw t := by
  apply BitVec.eq_of_getLsbD_eq
  intro i hi
  rw [BitVec.getLsbD_setWidth, decide_eq_true hi, Bool.true_and,
    @getLsbD_bfi 11 2 (by decide) (by decide) _ _ _ (by omega)]
  unfold withTop topMask
  simp only [BitVec.getLsbD_or, BitVec.getLsbD_and, BitVec.getLsbD_not,
    BitVec.getLsbD_shiftLeft, BitVec.getLsbD_setWidth]
  interval_cases i <;> simp

theorem mem_store_top (hb : Xbase ≠ 31) (ht : Wd_tmp ≠ 31)
    (htb : Xbase ≠ Wd_tmp) (htt : Wd_top ≠ Wd_tmp) {sw : BitVec 16}
    (hsw : c.mem.load (c.reg Xbase + BitVec.ofNat 64 2) 2 = sw)
    (htop : c.reg Wd_top = slotWord t) :
    (run (lines (emit_store_top Xbase Wd_top Wd_tmp)) c).mem
      = c.mem.store (c.reg Xbase + BitVec.ofNat 64 2) 2 (withTop sw t) := by
  have haddr : (kX87StatusWordImm12.setWidth 64 : BitVec 64)
      * BitVec.ofNat 64 (2 ^ 1) = BitVec.ofNat 64 2 := rfl
  simp only [emit_store_top, emit_ldr_imm, emit_bitfield, emit_str_imm,
    lines_insn, lines_nil, runCode_cons, runCode_nil, step, step_ldr hb,
    step_str hb, step_bfm, reg_set_of_ne htb, reg_set_of_ne htt,
    reg_set_self ht, mem_set, mem_setMem, haddr, htop]
  have hload : c.load 1 (c.reg Xbase + BitVec.ofNat 64 2)
      = sw.setWidth 64 := by
    rw [← hsw]
    rfl
  rw [hload]
  exact congrArg (c.mem.store _ 2) (withTop_bfm sw t)

/-- The TOP field of a status word in a register. -/
theorem ubfm_top (v : BitVec 64) :
    Arm.narrow false (Arm.bitfieldEval 32 false 11 13 v)
      = slotWord (topOf (v.setWidth 16)) := by
  apply BitVec.eq_of_getLsbD_eq
  intro i hi
  show (((((v >>> 11).setWidth 3).setWidth 64).setWidth 32).setWidth
    64).getLsbD i = _
  simp only [slotWord, topOf, BitVec.getLsbD_setWidth,
    BitVec.getLsbD_ushiftRight, BitVec.getLsbD_extractLsb']
  by_cases h : i < 3
  · simp [hi, h, show i < 32 by omega, show 11 + i < 16 by omega]
  · simp [h]

theorem reg_load_top {offset : Nat} (hb : Xbase ≠ 31) (ht : Wd_top ≠ 31)
    (hthread : c.reg kX87ThreadReg + BitVec.ofNat 64 offset
      = c.reg Xbase) {sw : BitVec 16}
    (hsw : c.mem.load (c.reg Xbase + BitVec.ofNat 64 2) 2 = sw) :
    (run (lines (emit_load_top offset Xbase Wd_top)) c).reg Wd_top
      = slotWord (topOf sw) := by
  have hload : c.load 1 (c.reg Xbase + BitVec.ofNat 64 2)
      = sw.setWidth 64 := by
    rw [← hsw]
    rfl
  have hfield : slotWord (topOf ((sw.setWidth 64).setWidth 16))
      = slotWord (topOf sw) := by
    rw [BitVec.setWidth_setWidth_of_le _ (by decide), BitVec.setWidth_eq]
  unfold emit_load_top
  cases hdirect : useX18Direct offset with
  | false =>
      have haddr : (kX87StatusWordImm12.setWidth 64 : BitVec 64)
          * BitVec.ofNat 64 (2 ^ 1) = BitVec.ofNat 64 2 := rfl
      simp only [Bool.false_eq_true, if_false, emit_ldr_imm, emit_bitfield,
        lines_insn, lines_nil, runCode_cons, runCode_nil, step,
        step_ldr hb, step_bitfield, reg_set_self ht, haddr, hload]
      exact (ubfm_top _).trans hfield
  | true =>
      have h18 : kX87ThreadReg ≠ 31 := by decide
      obtain ⟨heven, hle⟩ : (offset + 2) % 2 = 0 ∧ offset + 2 ≤ 0x1FFE := by
        simpa [useX18Direct] using hdirect
      have haddr : c.reg kX87ThreadReg
          + (BitVec.ofNat 12 ((offset + 2) / 2)).setWidth 64
            * BitVec.ofNat 64 (2 ^ 1)
          = c.reg Xbase + BitVec.ofNat 64 2 := by
        rw [← hthread, add_assoc, ← BitVec.ofNat_add]
        congr 1
        apply BitVec.eq_of_toNat_eq
        simp only [BitVec.toNat_mul, BitVec.toNat_setWidth,
          BitVec.toNat_ofNat]
        omega
      simp only [if_true, emit_ldr_imm, emit_bitfield, lines_insn,
        lines_nil, runCode_cons, runCode_nil, step, step_ldr h18,
        step_bitfield, reg_set_self ht, haddr, hload]
      exact (ubfm_top _).trans hfield

/-- TOP moved. -/
theorem run_top_step (h31 : Wd_top ≠ 31) (htop : c.reg Wd_top = slotWord t)
    (is_sub : Bool) (n : BitVec 12) :
    run (lines (emit_top_step is_sub n Wd_top)) c
      = c.set Wd_top (slotWord (if is_sub then t - n.setWidth 3
          else t + n.setWidth 3)) := by
  have hn : (n.setWidth 64).setWidth 3 = n.setWidth 3 :=
    BitVec.setWidth_setWidth_of_le _ (by decide)
  simp only [emit_top_step, emit_add_imm, emit_logical_imm,
    Bool.false_eq_true, if_false, lines_insn, lines_nil, runCode_cons,
    runCode_nil, step, step_addSubImm h31 h31, step_logicalImm h31,
    reg_set_self h31, set_set, htop, BitVec.shiftLeft_zero]
  congr 1
  cases is_sub with
  | false => exact (top_add t _).trans (by rw [hn]; rfl)
  | true => exact (top_sub t _).trans (by rw [hn]; rfl)

end

-- =============================================================== tags

section
variable {c : Cpu} {Xbase Wd_top Wd_pos Wd_mask Wd_tw : Nat}
  {t p : BitVec 3}

/-- The bit position of a slot's tag. -/
theorem reg_tag_position (h31 : Wd_pos ≠ 31) (ht31 : Wd_top ≠ 31)
    (htop : c.reg Wd_top = slotWord t) (n : BitVec 12) :
    (run (lines (emit_tag_position Wd_top n Wd_pos)) c).reg Wd_pos
      = BitVec.ofNat 64 (2 * (t + n.setWidth 3).toNat) := by
  have hn : (n.setWidth 64).setWidth 3 = n.setWidth 3 :=
    BitVec.setWidth_setWidth_of_le _ (by decide)
  unfold emit_tag_position
  by_cases h0 : n = 0
  · subst h0
    simp only [if_true, emit_bitfield, lines_insn, lines_nil, runCode_cons,
      runCode_nil, step, step_bitfield, reg_set_self h31, htop]
    exact (tag_position t).trans (by
      rw [show (0 : BitVec 12).setWidth 3 = 0 from rfl, add_zero])
  · simp only [h0, if_false, emit_add_imm, emit_logical_imm, emit_bitfield,
      Bool.false_eq_true, lines_insn, lines_nil, runCode_cons, runCode_nil,
      step, step_addSubImm ht31 h31, step_logicalImm h31, step_bitfield,
      reg_set_self h31, set_set, htop, BitVec.shiftLeft_zero]
    have hphys := top_add t (n.setWidth 64)
    rw [hn] at hphys
    exact (congrArg (fun v => Arm.narrow false
      (Arm.bitfieldEval 32 false 31 30 v)) hphys).trans (tag_position _)

/-- The mask of a slot's tag. -/
theorem reg_tag_mask (h31 : Wd_mask ≠ 31) (hne : Wd_pos ≠ Wd_mask)
    (hpos : c.reg Wd_pos = BitVec.ofNat 64 (2 * p.toNat)) :
    (run (lines (emit_tag_mask Wd_pos Wd_mask)) c).reg Wd_mask
      = (tagMask p).setWidth 64 := by
  simp only [emit_tag_mask, emit_movz, emit_lslv, lines_insn, lines_nil,
    runCode_cons, runCode_nil, step, step_moveWide, step_shiftBy,
    reg_set_self h31, reg_set_of_ne hne, hpos]
  exact tag_mask p

/-- The tag word with a mask cleared or set. -/
theorem mem_tag_rmw (clear : Bool) (hb : Xbase ≠ 31) (h31 : Wd_tw ≠ 31)
    (hbt : Xbase ≠ Wd_tw) (hmt : Wd_mask ≠ Wd_tw) {tw : BitVec 16}
    (htw : c.mem.load (c.reg Xbase + BitVec.ofNat 64 4) 2 = tw)
    {mask : BitVec 16} (hmask : c.reg Wd_mask = mask.setWidth 64) :
    (run (lines (emit_tag_rmw clear Xbase Wd_mask Wd_tw)) c).mem
      = c.mem.store (c.reg Xbase + BitVec.ofNat 64 4) 2
        (if clear then tw &&& ~~~mask else tw ||| mask) := by
  have haddr : (kX87TagWordImm12.setWidth 64 : BitVec 64)
      * BitVec.ofNat 64 (2 ^ 1) = BitVec.ofNat 64 4 := rfl
  have hload : c.load 1 (c.reg Xbase + BitVec.ofNat 64 4)
      = tw.setWidth 64 := by
    rw [← htw]
    rfl
  have hlow : ∀ v : BitVec 64, (Arm.narrow false v).setWidth 16
      = v.setWidth 16 := by
    intro v
    show ((v.setWidth 32).setWidth 64).setWidth 16 = _
    rw [BitVec.setWidth_setWidth_of_le _ (by decide),
      BitVec.setWidth_setWidth_of_le _ (by decide)]
  have hback : ∀ w : BitVec 16, (w.setWidth 64).setWidth 16 = w := by
    intro w
    rw [BitVec.setWidth_setWidth_of_le _ (by decide), BitVec.setWidth_eq]
  simp only [emit_tag_rmw, emit_ldr_imm, emit_str_imm,
    emit_logical_shifted_reg, lines_insn, lines_nil, runCode_cons,
    runCode_nil, step, step_ldr hb, step_str hb, step_logical,
    reg_set_of_ne hbt, reg_set_of_ne hmt, reg_set_self h31, set_set,
    mem_set, mem_setMem, haddr, hload, hmask]
  cases clear with
  | true =>
      refine congrArg (c.mem.store _ 2) ((hlow _).trans ?_)
      show (tw.setWidth 64 &&& ~~~(mask.setWidth 64 <<< 0)).setWidth 16
        = tw &&& ~~~mask
      rw [BitVec.shiftLeft_zero, BitVec.setWidth_and,
        BitVec.setWidth_not (by decide), hback, hback]
  | false =>
      refine congrArg (c.mem.store _ 2) ((hlow _).trans ?_)
      show (tw.setWidth 64 ||| mask.setWidth 64 <<< 0).setWidth 16
        = tw ||| mask
      rw [BitVec.shiftLeft_zero, BitVec.setWidth_or, hback, hback]

theorem run_lines_append (a b : List (Line Fist.NoLabel)) :
    run (lines (a ++ b)) c = run (lines b) (run (lines a) c) := by
  rw [lines_append]
  exact runCode_append _ _ _ _

theorem run_snoc (code : Code) (i : Instr) :
    run (code ++ [i]) c = step (run code c) i :=
  runCode_append _ _ _ _

theorem wrote_tag_position (n : BitVec 12) :
    Wrote [Wd_pos] [] c (run (lines (emit_tag_position Wd_top n Wd_pos)) c)
    := by
  apply wrote_run
  unfold emit_tag_position
  split <;> simp [Instr.Writes, Op.dest, Op.destD, Op.setsFlags,
    Op.setsFlush]

theorem wrote_tag_mask :
    Wrote [Wd_mask] [] c (run (lines (emit_tag_mask Wd_pos Wd_mask)) c) :=
  wrote_run (by simp [emit_tag_mask, Instr.Writes, Op.dest, Op.destD,
    Op.setsFlags, Op.setsFlush])

theorem mem_tag_position (n : BitVec 12) :
    (run (lines (emit_tag_position Wd_top n Wd_pos)) c).mem = c.mem := by
  apply mem_run
  unfold emit_tag_position
  split <;> simp [Instr.stores, Op.stores]

theorem mem_tag_mask :
    (run (lines (emit_tag_mask Wd_pos Wd_mask)) c).mem = c.mem :=
  mem_run (by simp [emit_tag_mask, Instr.stores, Op.stores])

/-- A slot's tag set empty, or cleared, once its bit position is in a
register: the position's register takes the tag word. -/
theorem mem_tag_at (clear : Bool) (hb : Xbase ≠ 31) (hp : Wd_pos ≠ 31)
    (hm : Wd_mask ≠ 31) (hbp : Xbase ≠ Wd_pos) (hbm : Xbase ≠ Wd_mask)
    (hpm : Wd_pos ≠ Wd_mask) {tw : BitVec 16}
    (htw : c.mem.load (c.reg Xbase + BitVec.ofNat 64 4) 2 = tw)
    (hpos : c.reg Wd_pos = BitVec.ofNat 64 (2 * p.toNat)) :
    (run (lines (emit_tag_mask Wd_pos Wd_mask
        ++ emit_tag_rmw clear Xbase Wd_mask Wd_pos)) c).mem
      = c.mem.store (c.reg Xbase + BitVec.ofNat 64 4) 2
        (if clear then tagClear tw p else tagSetEmpty tw p) := by
  have hbase : (run (lines (emit_tag_mask Wd_pos Wd_mask)) c).reg Xbase
      = c.reg Xbase :=
    wrote_tag_mask.reg _ (by simpa using hbm)
  rw [run_lines_append, mem_tag_rmw clear hb hp hbp (Ne.symm hpm)
    (by rw [mem_tag_mask, hbase, htw]) (reg_tag_mask hm hpm hpos),
    mem_tag_mask, hbase]
  cases clear <;> rfl

theorem mem_tag_set_empty (hb : Xbase ≠ 31) (ht : Wd_top ≠ 31)
    (hp : Wd_pos ≠ 31) (hm : Wd_mask ≠ 31) (hbp : Xbase ≠ Wd_pos)
    (hbm : Xbase ≠ Wd_mask) (hpm : Wd_pos ≠ Wd_mask) {tw : BitVec 16}
    (htw : c.mem.load (c.reg Xbase + BitVec.ofNat 64 4) 2 = tw)
    (htop : c.reg Wd_top = slotWord t) (n : BitVec 12) :
    (run (lines (emit_tag_set_empty Xbase Wd_top n Wd_mask Wd_pos)) c).mem
      = c.mem.store (c.reg Xbase + BitVec.ofNat 64 4) 2
        (tagSetEmpty tw (t + n.setWidth 3)) := by
  have hbase : (run (lines (emit_tag_position Wd_top n Wd_pos)) c).reg Xbase
      = c.reg Xbase :=
    (wrote_tag_position n).reg _ (by simpa using hbp)
  rw [emit_tag_set_empty, List.append_assoc, run_lines_append,
    mem_tag_at false hb hp hm hbp hbm hpm
      (by rw [mem_tag_position, hbase, htw])
      (reg_tag_position hp ht htop n), mem_tag_position, hbase]
  rfl

theorem mem_tag_clear (hb : Xbase ≠ 31) (hp : Wd_pos ≠ 31)
    (hm : Wd_mask ≠ 31) (hbp : Xbase ≠ Wd_pos) (hbm : Xbase ≠ Wd_mask)
    (hpm : Wd_pos ≠ Wd_mask) {tw : BitVec 16}
    (htw : c.mem.load (c.reg Xbase + BitVec.ofNat 64 4) 2 = tw)
    (htop : c.reg Wd_top = slotWord t) :
    (run (lines (emit_x87_tag_clear Xbase Wd_top Wd_mask Wd_pos)) c).mem
      = c.mem.store (c.reg Xbase + BitVec.ofNat 64 4) 2
        (tagClear tw t) := by
  have hpos : run (lines [emit_bitfield false .ubfm 31 30 Wd_top Wd_pos]) c
      = c.set Wd_pos (BitVec.ofNat 64 (2 * t.toNat)) := by
    simp only [emit_bitfield, lines_insn, lines_nil, runCode_cons,
      runCode_nil, step, step_bitfield, htop]
    exact congrArg (c.set Wd_pos) (tag_position t)
  rw [emit_x87_tag_clear, List.append_assoc, run_lines_append, hpos,
    mem_tag_at true hb hp hm hbp hbm hpm
      (by rw [mem_set, reg_set_of_ne hbp, htw]) (reg_set_self hp),
    mem_set, reg_set_of_ne hbp]
  rfl

end

-- ============================================= the loops over popped slots

section
variable {c : Cpu} {Xbase Wd_top Wd_tmp Wd_tmp2 Wd_tagw : Nat}
  {t : BitVec 3} {native : Bool} {m : Machine}

theorem wrote_tag_batch_round (n : BitVec 12) :
    Wrote [Wd_tmp, Wd_tmp2, Wd_tagw] [] c
      (run (lines (emit_tag_batch_round Wd_top n Wd_tmp Wd_tmp2 Wd_tagw)) c)
    := by
  apply wrote_run
  simp [emit_tag_batch_round, emit_tag_mask, Instr.Writes, Op.dest,
    Op.destD, Op.setsFlags, Op.setsFlush]

theorem reg_tag_batch_round (h1 : Wd_tmp ≠ 31) (h2 : Wd_tmp2 ≠ 31)
    (h3 : Wd_tagw ≠ 31) (ht : Wd_top ≠ 31) (h12 : Wd_tmp ≠ Wd_tmp2)
    (h13 : Wd_tagw ≠ Wd_tmp) (h23 : Wd_tagw ≠ Wd_tmp2) {tw : BitVec 16}
    (htw : c.reg Wd_tagw = tw.setWidth 64)
    (htop : c.reg Wd_top = slotWord t) (n : BitVec 12) :
    (run (lines (emit_tag_batch_round Wd_top n Wd_tmp Wd_tmp2 Wd_tagw))
        c).reg Wd_tagw
      = (tagSetEmpty tw (t - n.setWidth 3)).setWidth 64 := by
  have hn : (n.setWidth 64).setWidth 3 = n.setWidth 3 :=
    BitVec.setWidth_setWidth_of_le _ (by decide)
  have hphys := top_sub t (n.setWidth 64)
  rw [hn] at hphys
  simp only [emit_tag_batch_round, emit_tag_mask, emit_add_imm,
    emit_logical_imm, emit_bitfield, emit_movz, emit_lslv,
    emit_logical_shifted_reg, Bool.false_eq_true, if_false, List.cons_append,
    List.nil_append, lines_insn, lines_nil, runCode_cons, runCode_nil, step,
    step_addSubImm ht h1, step_logicalImm h1, step_bitfield, step_moveWide,
    step_shiftBy, step_logical, reg_set_self h1, reg_set_self h2,
    reg_set_self h3, reg_set_of_ne h12, reg_set_of_ne h13,
    reg_set_of_ne h23, set_set, htop, htw, BitVec.shiftLeft_zero]
  have hpos := (congrArg (fun v => Arm.narrow false
    (Arm.bitfieldEval 32 false 31 30 v)) hphys).trans (tag_position _)
  have hmask := (congrArg (fun v : BitVec 64 => Arm.narrow false
    ((3#64) <<< (v.toNat % 32))) hpos).trans (tag_mask _)
  have hor : ∀ a b : BitVec 16, Arm.narrow false
      (a.setWidth 64 ||| b.setWidth 64 <<< 0) = (a ||| b).setWidth 64 := by
    intro a b
    rw [BitVec.shiftLeft_zero, ← BitVec.setWidth_or]
    show (((a ||| b).setWidth 64).setWidth 32).setWidth 64 = _
    apply BitVec.eq_of_toNat_eq
    simp only [BitVec.toNat_setWidth]
    have := (a ||| b).isLt
    omega
  exact (congrArg (fun v : BitVec 64 => Arm.narrow false
    (tw.setWidth 64 ||| v <<< 0)) hmask).trans (hor tw _)

/-- The rounds of the batch: the tag word gathers the slots, and nothing is
stored. -/
theorem tag_batch_rounds (h1 : Wd_tmp ≠ 31) (h2 : Wd_tmp2 ≠ 31)
    (h3 : Wd_tagw ≠ 31) (ht : Wd_top ≠ 31) (h12 : Wd_tmp ≠ Wd_tmp2)
    (h13 : Wd_tagw ≠ Wd_tmp) (h23 : Wd_tagw ≠ Wd_tmp2)
    (htop' : Wd_top ∉ [Wd_tmp, Wd_tmp2, Wd_tagw]) (offset : Nat → BitVec 12)
    (l : List Nat) {tw : BitVec 16} (htw : c.reg Wd_tagw = tw.setWidth 64)
    (htop : c.reg Wd_top = slotWord t) :
    (run (lines (l.flatMap fun i => emit_tag_batch_round Wd_top (offset i)
        Wd_tmp Wd_tmp2 Wd_tagw)) c).reg Wd_tagw
      = ((l.map fun i => t - (offset i).setWidth 3).foldl tagSetEmpty
        tw).setWidth 64
      ∧ Wrote [Wd_tmp, Wd_tmp2, Wd_tagw] [] c
        (run (lines (l.flatMap fun i => emit_tag_batch_round Wd_top
          (offset i) Wd_tmp Wd_tmp2 Wd_tagw)) c)
      ∧ (run (lines (l.flatMap fun i => emit_tag_batch_round Wd_top
        (offset i) Wd_tmp Wd_tmp2 Wd_tagw)) c).mem = c.mem := by
  induction l generalizing c tw with
  | nil => exact ⟨htw, .refl, rfl⟩
  | cons i l ih =>
      have hw := @wrote_tag_batch_round c Wd_top Wd_tmp Wd_tmp2 Wd_tagw
        (offset i)
      have hreg := reg_tag_batch_round h1 h2 h3 ht h12 h13 h23 htw htop
        (offset i)
      have hmem : (run (lines (emit_tag_batch_round Wd_top (offset i) Wd_tmp
          Wd_tmp2 Wd_tagw)) c).mem = c.mem :=
        mem_run (by simp [emit_tag_batch_round, emit_tag_mask, Instr.stores,
          Op.stores])
      rw [List.flatMap_cons, run_lines_append, List.map_cons,
        List.foldl_cons]
      obtain ⟨h, hw', hmem'⟩ := ih hreg ((hw.reg _ htop').trans htop)
      exact ⟨h, hw.trans hw', hmem'.trans hmem⟩

theorem mem_tag_set_empty_batch (hb : Xbase ≠ 31) (h1 : Wd_tmp ≠ 31)
    (h2 : Wd_tmp2 ≠ 31) (h3 : Wd_tagw ≠ 31) (ht : Wd_top ≠ 31)
    (h12 : Wd_tmp ≠ Wd_tmp2) (h13 : Wd_tagw ≠ Wd_tmp)
    (h23 : Wd_tagw ≠ Wd_tmp2)
    (htop' : Wd_top ∉ [Wd_tmp, Wd_tmp2, Wd_tagw])
    (hbase : Xbase ∉ [Wd_tmp, Wd_tmp2, Wd_tagw]) {tw : BitVec 16}
    (htw : c.mem.load (c.reg Xbase + BitVec.ofNat 64 4) 2 = tw)
    (htop : c.reg Wd_top = slotWord t) (count : Nat) :
    (run (lines (emit_x87_tag_set_empty_batch Xbase Wd_top Wd_tmp Wd_tmp2
        Wd_tagw count)) c).mem
      = c.mem.store (c.reg Xbase + BitVec.ofNat 64 4) 2
        (tagSetEmptyBatch tw t count) := by
  have haddr : (kX87TagWordImm12.setWidth 64 : BitVec 64)
      * BitVec.ofNat 64 (2 ^ 1) = BitVec.ofNat 64 4 := rfl
  have hload : c.load 1 (c.reg Xbase + BitVec.ofNat 64 4)
      = tw.setWidth 64 := by
    rw [← htw]
    rfl
  simp only [List.mem_cons, not_or, List.not_mem_nil, not_false_eq_true,
    and_true] at hbase htop'
  have hfirst : run (lines [emit_ldr_imm 1 Wd_tagw Xbase kX87TagWordImm12])
      c = c.set Wd_tagw (tw.setWidth 64) := by
    simp only [emit_ldr_imm, lines_insn, lines_nil, runCode_cons,
      runCode_nil, step, step_ldr hb, haddr, hload]
  obtain ⟨hreg, hw, hmem⟩ := @tag_batch_rounds
    (c.set Wd_tagw (tw.setWidth 64)) Wd_top Wd_tmp Wd_tmp2 Wd_tagw t h1 h2
    h3 ht h12 h13 h23 (by simp [htop']) (fun i => BitVec.ofNat 12
      (count - i)) (List.range count) tw (reg_set_self h3)
    ((reg_set_of_ne htop'.2.2).trans htop)
  have hslots : ((List.range count).map fun i =>
      t - (BitVec.ofNat 12 (count - i)).setWidth 3)
      = poppedSlots t count := by
    unfold poppedSlots
    apply List.map_congr_left
    intro i _
    congr 1
    apply BitVec.eq_of_toNat_eq
    simp only [BitVec.toNat_setWidth, BitVec.toNat_ofNat]
    omega
  have hlast : ∀ c : Cpu, (run (lines [emit_str_imm 1 Wd_tagw Xbase
      kX87TagWordImm12]) c).mem
      = c.mem.store (c.reg Xbase + BitVec.ofNat 64 4) 2
        ((c.reg Wd_tagw).setWidth 16) := by
    intro c
    simp only [emit_str_imm, lines_insn, lines_nil, runCode_cons,
      runCode_nil, step, step_str hb, mem_setMem, haddr]
    rfl
  have hbase' := (hw.reg Xbase (by simp [hbase])).trans
    (reg_set_of_ne hbase.2.2)
  rw [emit_x87_tag_set_empty_batch, run_lines_append, run_lines_append,
    hfirst, hlast, hreg, hmem, hbase', mem_set, hslots,
    BitVec.setWidth_setWidth_of_le _ (by decide), BitVec.setWidth_eq]
  rfl

theorem wrote_tag_set_empty_batch (count : Nat) :
    Wrote [Wd_tmp, Wd_tmp2, Wd_tagw] [] c
      (run (lines (emit_x87_tag_set_empty_batch Xbase Wd_top Wd_tmp Wd_tmp2
        Wd_tagw count)) c) := by
  have hrounds : ∀ (l : List Nat) (c : Cpu),
      Wrote [Wd_tmp, Wd_tmp2, Wd_tagw] [] c
        (run (lines (l.flatMap fun i => emit_tag_batch_round Wd_top
          (BitVec.ofNat 12 (count - i)) Wd_tmp Wd_tmp2 Wd_tagw)) c) := by
    intro l
    induction l with
    | nil => exact fun _ => .refl
    | cons i l ih =>
        intro c
        rw [List.flatMap_cons, run_lines_append]
        exact (wrote_tag_batch_round _).trans (ih _)
  rw [emit_x87_tag_set_empty_batch, run_lines_append, run_lines_append]
  refine (Wrote.trans (wrote_run ?_) (hrounds _ _)).trans (wrote_run ?_)
    <;> simp [Instr.Writes, Op.dest, Op.destD, Op.setsFlags, Op.setsFlush]

theorem wrote_tag_set_empty (n : BitVec 12) :
    Wrote [Wd_tmp, Wd_tmp2] [] c
      (run (lines (emit_tag_set_empty Xbase Wd_top n Wd_tmp Wd_tmp2)) c)
    := by
  apply wrote_run
  unfold emit_tag_set_empty emit_tag_position
  split <;> simp [emit_tag_mask, emit_tag_rmw, Instr.Writes, Op.dest,
    Op.destD, Op.setsFlags, Op.setsFlush]

/-- The tag updates of a pop of several, each of them stored. -/
theorem tag_set_empty_next (hb : Xbase ≠ 31) (ht : Wd_top ≠ 31)
    (h1 : Wd_tmp ≠ 31) (h2 : Wd_tmp2 ≠ 31)
    (hbase : Xbase ∉ [Wd_tmp, Wd_tmp2])
    (htop' : Wd_top ∉ [Wd_tmp, Wd_tmp2]) (h12 : Wd_tmp2 ≠ Wd_tmp)
    (l : List Nat) (hm : State native c.mem (c.reg Xbase) m)
    (htop : c.reg Wd_top = slotWord t) :
    State native (run (lines (l.flatMap fun i => emit_tag_set_empty Xbase
        Wd_top (BitVec.ofNat 12 i) Wd_tmp Wd_tmp2)) c).mem (c.reg Xbase)
        { m with
          tw := (l.map fun i => t + BitVec.ofNat 3 i).foldl tagSetEmpty
            m.tw }
      ∧ Wrote [Wd_tmp, Wd_tmp2] [] c (run (lines (l.flatMap fun i =>
        emit_tag_set_empty Xbase Wd_top (BitVec.ofNat 12 i) Wd_tmp
          Wd_tmp2)) c)
      ∧ Within (c.reg Xbase) c.mem (run (lines (l.flatMap fun i =>
        emit_tag_set_empty Xbase Wd_top (BitVec.ofNat 12 i) Wd_tmp
          Wd_tmp2)) c).mem := by
  simp only [List.mem_cons, not_or, List.not_mem_nil, not_false_eq_true,
    and_true] at hbase htop'
  induction l generalizing c m with
  | nil => exact ⟨hm, .refl, .refl _ _⟩
  | cons i l ih =>
      have hw := @wrote_tag_set_empty c Xbase Wd_top Wd_tmp Wd_tmp2
        (BitVec.ofNat 12 i)
      have hmem := mem_tag_set_empty hb ht h2 h1 hbase.2 hbase.1 h12 hm.tw
        htop (BitVec.ofNat 12 i)
      have hslot : (BitVec.ofNat 12 i).setWidth 3 = BitVec.ofNat 3 i := by
        apply BitVec.eq_of_toNat_eq
        simp only [BitVec.toNat_setWidth, BitVec.toNat_ofNat]
        omega
      rw [hslot] at hmem
      have hreg : ∀ r, r ∉ [Wd_tmp, Wd_tmp2] → _ := hw.reg
      have hbase' := hreg Xbase (by simp [hbase])
      obtain ⟨hs, hw', hin⟩ := @ih (run (lines (emit_tag_set_empty Xbase
          Wd_top (BitVec.ofNat 12 i) Wd_tmp Wd_tmp2)) c)
        { m with tw := tagSetEmpty m.tw (t + BitVec.ofNat 3 i) }
        (by rw [hmem, hbase']; exact hm.storeTw _)
        ((hreg Wd_top (by simp [htop'])).trans htop)
      rw [hbase'] at hs hin
      rw [List.flatMap_cons, run_lines_append, List.map_cons,
        List.foldl_cons]
      refine ⟨hs, hw.trans hw', Within.trans ?_ hin⟩
      rw [hmem]
      exact within_store 4 2 _ (by decide) (by decide)

end

-- ============================================================= slots

section
variable {c : Cpu} {Xbase Wd_top Wd_tmp : Nat} {t d : BitVec 3}
  {native : Bool} {st : Option Nat} {m : Machine}

theorem depth_word (d : BitVec 3) :
    ((d.setWidth 12).setWidth 64).setWidth 3 = d := by
  rw [BitVec.setWidth_setWidth_of_le _ (by decide),
    BitVec.setWidth_setWidth_of_le _ (by decide), BitVec.setWidth_eq]

theorem run_phys_index (ht : Wd_top ≠ 31) (h1 : Wd_tmp ≠ 31)
    (hne : Wd_tmp ≠ Wd_top) (htop : c.reg Wd_top = slotWord t) :
    run (lines (emit_phys_index Wd_top d Wd_tmp)) c
      = c.set Wd_tmp (slotWord (t + d)) := by
  unfold emit_phys_index
  by_cases h0 : d = 0
  · subst h0
    have hzero : c.reg XZR = 0#64 := rfl
    have hor : Arm.narrow false (0#64 ||| slotWord t <<< 0) = slotWord t := by
      rw [BitVec.shiftLeft_zero, BitVec.zero_or]
      show ((slotWord t).setWidth 32).setWidth 64 = _
      apply BitVec.eq_of_toNat_eq
      simp only [slotWord, BitVec.toNat_setWidth]
      have := t.isLt
      omega
    rw [if_pos rfl, if_pos hne, add_zero]
    simp only [emit_mov_reg, emit_logical_shifted_reg, lines_insn,
      lines_nil, runCode_cons, runCode_nil, step, step_logical,
      Bool.false_eq_true, if_false, hzero, htop]
    exact congrArg (c.set Wd_tmp) hor
  · rw [if_neg h0]
    simp only [emit_add_imm, emit_logical_imm, Bool.false_eq_true, if_false,
      lines_insn, lines_nil, runCode_cons, runCode_nil, step,
      step_addSubImm ht h1, step_logicalImm h1, reg_set_self h1, set_set,
      htop, BitVec.shiftLeft_zero]
    exact congrArg (c.set Wd_tmp) ((top_add t _).trans (by
      rw [depth_word]))

theorem reg_native_slot_key (ht : Wd_top ≠ 31) (h1 : Wd_tmp ≠ 31)
    (htop : c.reg Wd_top = slotWord t) :
    (run (lines (emit_native_slot_key Wd_top d Wd_tmp)) c).reg Wd_tmp
      = BitVec.ofNat 64 (10 * (t + d).toNat) := by
  have hsum : ((Arm.narrow false (slotWord t
      + (d.setWidth 12).setWidth 64)).setWidth 3) = t + d := by
    rw [setWidth_narrow, BitVec.setWidth_add _ _ (by decide), depth_word,
      BitVec.setWidth_setWidth_of_le _ (by decide), BitVec.setWidth_eq]
  have htop3 : (slotWord t).setWidth 3 = t := by
    rw [BitVec.setWidth_setWidth_of_le _ (by decide), BitVec.setWidth_eq]
  unfold emit_native_slot_key
  by_cases h0 : d = 0
  · subst h0
    simp only [ne_eq, not_true_eq_false, if_false, List.nil_append,
      emit_bitfield, emit_add_sub_shifted_reg, lines_insn, lines_nil,
      runCode_cons, runCode_nil, step, step_bitfield, step_addSubShifted,
      Bool.false_eq_true, reg_setFlags, reg_set_self h1, set_set, htop]
    have hkey := native_key (slotWord t)
    rw [htop3] at hkey
    rw [add_zero]
    exact hkey
  · simp only [ne_eq, h0, not_false_eq_true, if_true, List.cons_append,
      List.nil_append, emit_add_imm, emit_bitfield,
      emit_add_sub_shifted_reg, lines_insn, lines_nil, runCode_cons,
      runCode_nil, step, step_addSubImm ht h1, step_bitfield,
      step_addSubShifted, Bool.false_eq_true, if_false, reg_setFlags,
      reg_set_self h1, set_set, htop, BitVec.shiftLeft_zero]
    have hkey := native_key (Arm.narrow false (slotWord t
      + (d.setWidth 12).setWidth 64))
    rw [hsum] at hkey
    exact hkey

theorem wrote_native_slot_key :
    Wrote [Wd_tmp] [] c (run (lines (emit_native_slot_key Wd_top d Wd_tmp))
      c) := by
  apply wrote_run
  unfold emit_native_slot_key
  split <;> simp [Instr.Writes, Op.dest, Op.destD, Op.setsFlags,
    Op.setsFlush]

theorem mem_native_slot_key :
    (run (lines (emit_native_slot_key Wd_top d Wd_tmp)) c).mem = c.mem := by
  apply mem_run
  unfold emit_native_slot_key
  split <;> simp [Instr.stores, Op.stores]

/-- A constant added to a register that has few bits. -/
theorem run_add_small (h1 : Wd_tmp ≠ 31) {v : Nat} (hv : v < 2 ^ 12)
    (hreg : c.reg Wd_tmp = BitVec.ofNat 64 v) (n : BitVec 12) :
    run (lines [emit_add_imm false false false false n Wd_tmp Wd_tmp]) c
      = c.set Wd_tmp (BitVec.ofNat 64 (v + n.toNat)) := by
  simp only [emit_add_imm, Bool.false_eq_true, if_false, lines_insn,
    lines_nil, runCode_cons, runCode_nil, step, step_addSubImm h1 h1, hreg,
    BitVec.shiftLeft_zero]
  congr 1
  apply BitVec.eq_of_toNat_eq
  show (((BitVec.ofNat 64 v + n.setWidth 64).setWidth 32).setWidth
    64).toNat = _
  simp only [BitVec.toNat_setWidth, BitVec.toNat_add, BitVec.toNat_ofNat]
  have := n.isLt
  omega

/-- The key of a slot in Rosetta's layout. -/
theorem reg_native_st_key (ht : Wd_top ≠ 31) (h1 : Wd_tmp ≠ 31)
    (htop : c.reg Wd_top = slotWord t) :
    (run (lines (emit_native_st_key Wd_top d Wd_tmp st)) c).reg Wd_tmp
      = keyWord true st.isSome (t + d) := by
  have hkey := @reg_native_slot_key c Wd_top Wd_tmp t d ht h1 htop
  have hp := (t + d).isLt
  rw [emit_native_st_key, run_lines_append]
  cases st with
  | some s => exact hkey
  | none =>
      rw [Option.isNone_none, if_pos rfl,
        run_add_small h1 (by omega) hkey, reg_set_self h1]
      rfl

theorem wrote_native_st_key :
    Wrote [Wd_tmp] [] c (run (lines (emit_native_st_key Wd_top d Wd_tmp st))
      c) := by
  rw [emit_native_st_key, run_lines_append]
  refine wrote_native_slot_key.trans (wrote_run ?_)
  split <;> simp [Instr.Writes, Op.dest, Op.destD, Op.setsFlags,
    Op.setsFlush]

theorem mem_native_st_key :
    (run (lines (emit_native_st_key Wd_top d Wd_tmp st)) c).mem
      = c.mem := by
  rw [emit_native_st_key, run_lines_append]
  refine (mem_run ?_).trans mem_native_slot_key
  split <;> simp [Instr.stores, Op.stores]

/-- The key of a slot. -/
theorem stKey_spec (ht : Wd_top ≠ 31) (h1 : Wd_tmp ≠ 31)
    (hne : Wd_tmp ≠ Wd_top) (htop : c.reg Wd_top = slotWord t) :
    (run (lines (stKey native Wd_top d Wd_tmp st).1) c).reg
        (stKey native Wd_top d Wd_tmp st).2
      = keyWord native st.isSome (t + d)
      ∧ Wrote [Wd_tmp] [] c
        (run (lines (stKey native Wd_top d Wd_tmp st).1) c)
      ∧ (run (lines (stKey native Wd_top d Wd_tmp st).1) c).mem
        = c.mem := by
  have hset : ∀ v, Wrote [Wd_tmp] [] c (c.set Wd_tmp v) := fun v =>
    ⟨fun r hr => reg_set_of_ne (by simpa using hr), fun _ _ => rfl, rfl,
      rfl⟩
  have hindex : ∀ p : BitVec 3,
      slotWord p = BitVec.ofNat 64 p.toNat := by
    intro p
    apply BitVec.eq_of_toNat_eq
    simp only [slotWord, BitVec.toNat_setWidth, BitVec.toNat_ofNat]
  unfold stKey
  cases native with
  | true =>
      exact ⟨reg_native_st_key ht h1 htop, wrote_native_st_key,
        mem_native_st_key⟩
  | false =>
      rw [if_neg Bool.false_ne_true]
      cases st with
      | some s =>
          rw [Option.isSome_some, if_pos rfl]
          by_cases h0 : d = 0
          · rw [if_pos h0, h0, add_zero]
            exact ⟨htop.trans (hindex t), .refl, rfl⟩
          · rw [if_neg h0, run_phys_index ht h1 hne htop]
            exact ⟨(reg_set_self h1).trans (hindex _), hset _, mem_set⟩
      | none =>
          have hp := (t + d).isLt
          have hscale : run (lines [emit_bitfield false .ubfm 29 28 Wd_tmp
              Wd_tmp]) (c.set Wd_tmp (slotWord (t + d)))
              = c.set Wd_tmp (BitVec.ofNat 64 (8 * (t + d).toNat)) := by
            simp only [emit_bitfield, lines_insn, lines_nil, runCode_cons,
              runCode_nil, step, step_bitfield, reg_set_self h1, set_set]
            exact congrArg (c.set Wd_tmp) (compact_key _)
          have hcode : emit_phys_index Wd_top d Wd_tmp
              ++ [emit_bitfield false .ubfm 29 28 Wd_tmp Wd_tmp,
                emit_add_imm false false false false kX87RegFileOff Wd_tmp
                  Wd_tmp]
              = emit_phys_index Wd_top d Wd_tmp
              ++ ([emit_bitfield false .ubfm 29 28 Wd_tmp Wd_tmp]
                ++ [emit_add_imm false false false false kX87RegFileOff
                  Wd_tmp Wd_tmp]) := rfl
          rw [Option.isSome_none, if_neg Bool.false_ne_true, hcode,
            run_lines_append, run_lines_append,
            run_phys_index ht h1 hne htop, hscale,
            run_add_small h1 (by omega) (reg_set_self h1), set_set]
          exact ⟨reg_set_self h1, hset _, mem_set⟩

/-- A key leads to its slot. -/
theorem address_slot {key : Nat} (hb : Xbase ≠ 31)
    (hst : ∀ s ∈ st, s ≠ 31 ∧ c.reg s
      = c.reg Xbase + BitVec.ofNat 64 (if native then 6 else 8))
    {p : BitVec 3} (hkey : c.reg key = keyWord native st.isSome p) :
    address c 3 key (!native && st.isSome) (st.getD Xbase)
      = c.reg Xbase + BitVec.ofNat 64 (slotOff native p) := by
  have hp := p.isLt
  have hshift : BitVec.ofNat 64 p.toNat <<< 3
      = BitVec.ofNat 64 (8 * p.toNat) := by
    apply BitVec.eq_of_toNat_eq
    simp only [BitVec.toNat_shiftLeft, BitVec.toNat_ofNat,
      Nat.shiftLeft_eq]
    omega
  unfold address
  rw [hkey]
  cases st with
  | none =>
      have hz : (if (!native && (Option.none : Option Nat).isSome) = true
          then 3 else 0) = 0 := by cases native <;> rfl
      rw [hz, BitVec.shiftLeft_zero, Option.getD_none, regSp_of_ne hb]
      cases native <;>
        simp only [keyWord, slotOff, Option.isSome_none, if_true, if_false,
          Bool.false_eq_true, Nat.add_comm]
  | some s =>
      obtain ⟨hs, hreg⟩ := hst s rfl
      rw [Option.getD_some, regSp_of_ne hs, hreg, add_assoc]
      cases native with
      | true =>
          simp only [keyWord, slotOff, Option.isSome_some, Bool.not_true,
            Bool.false_and, if_true, if_false, Bool.false_eq_true,
            BitVec.shiftLeft_zero, ← BitVec.ofNat_add]
      | false =>
          simp only [keyWord, slotOff, Option.isSome_some, Bool.not_false,
            Bool.true_and, if_true, if_false, Bool.false_eq_true, hshift,
            ← BitVec.ofNat_add]

end

/-- What an access of a slot needs: the base, TOP and the pinned address in
their registers, a register of its own, and the state in memory. -/
structure Ready (native : Bool) (st : Option Nat)
    (Xbase Wd_top Wd_tmp : Nat) (m : Machine) (c : Cpu) : Prop where
  base : Xbase ≠ 31
  top31 : Wd_top ≠ 31
  tmp31 : Wd_tmp ≠ 31
  tmpBase : Wd_tmp ≠ Xbase
  tmpTop : Wd_tmp ≠ Wd_top
  st : ∀ s ∈ st, s ≠ 31 ∧ s ≠ Wd_tmp ∧ c.reg s
    = c.reg Xbase + BitVec.ofNat 64 (if native then 6 else 8)
  top : c.reg Wd_top = slotWord m.wTop
  state : State native c.mem (c.reg Xbase) m

section
variable {c c' : Cpu} {Xbase Wd_top Wd_tmp dd hd : Nat} {d : Depth}
  {native : Bool} {st : Option Nat} {m m' : Machine} {ds : List Nat}

/-- The register of the access may be written. -/
theorem Ready.wrote (h : Ready native st Xbase Wd_top Wd_tmp m c)
    (hw : Wrote [Wd_tmp] ds c c')
    (hstate : State native c'.mem (c.reg Xbase) m')
    (htop : m'.wTop = m.wTop) :
    Ready native st Xbase Wd_top Wd_tmp m' c' := by
  have hbase : c'.reg Xbase = c.reg Xbase :=
    hw.reg _ (by simpa using Ne.symm h.tmpBase)
  refine { h with
    st := fun s hs => ⟨(h.st s hs).1, (h.st s hs).2.1, ?_⟩
    top := ?_
    state := ?_ }
  · rw [hbase, hw.reg _ (by simpa using (h.st s hs).2.1)]
    exact (h.st s hs).2.2
  · rw [htop, hw.reg _ (by simpa using Ne.symm h.tmpTop)]
    exact h.top
  · rw [hbase]
    exact hstate

/-- The machine behind the key of an access. -/
theorem Ready.atKey (h : Ready native st Xbase Wd_top Wd_tmp m c)
    (d : Depth) :
    ∃ c₁, run (lines (stKey native Wd_top d Wd_tmp st).1) c = c₁
      ∧ Ready native st Xbase Wd_top Wd_tmp m c₁
      ∧ c₁.reg (stKey native Wd_top d Wd_tmp st).2
        = keyWord native st.isSome (m.phys d)
      ∧ address c₁ 3 (stKey native Wd_top d Wd_tmp st).2
          (!native && st.isSome) (st.getD Xbase)
        = c.reg Xbase + BitVec.ofNat 64 (slotOff native (m.phys d))
      ∧ Wrote [Wd_tmp] [] c c₁ ∧ c₁.mem = c.mem := by
  obtain ⟨hkey, hw, hmem⟩ := @stKey_spec c Wd_top Wd_tmp m.wTop d native st
    h.top31 h.tmp31 h.tmpTop h.top
  have hready := h.wrote hw (hmem ▸ h.state) rfl
  refine ⟨_, rfl, hready, hkey, ?_, hw, hmem⟩
  rw [address_slot h.base (fun s hs => ⟨(h.st s hs).1,
    (hready.st s hs).2.2⟩) hkey, hw.reg _ (by simpa using Ne.symm h.tmpBase)]
  rfl

/-- A double loaded. -/
theorem Ready.load (h : Ready native st Xbase Wd_top Wd_tmp m c)
    (d : Depth) (dd : Nat) :
    ∃ c₁, run (emit_load_st native Xbase Wd_top d Wd_tmp dd st).1 c = c₁
      ∧ c₁.d dd = slotF64 (m.slot (m.phys d))
      ∧ c₁.reg (emit_load_st native Xbase Wd_top d Wd_tmp dd st).2
        = keyWord native st.isSome (m.phys d)
      ∧ Wrote [Wd_tmp] [dd] c c₁ ∧ c₁.mem = c.mem := by
  obtain ⟨c₁, hrun, hready, hkey, haddr, hw, hmem⟩ := h.atKey d
  have hload : c₁.load 3 (c.reg Xbase
      + BitVec.ofNat 64 (slotOff native (m.phys d)))
      = slotF64 (m.slot (m.phys d)) := by
    show (c₁.mem.load _ 8).setWidth 64 = _
    rw [hmem, h.state.slot]
    exact BitVec.setWidth_eq _
  have hcode : run (emit_load_st native Xbase Wd_top d Wd_tmp dd st).1 c
      = c₁.setD dd (slotF64 (m.slot (m.phys d))) := by
    rw [emit_load_st, run_snoc, hrun]
    show c₁.setD dd (c₁.load 3 (address c₁ 3 _ _ _)) = _
    rw [haddr, hload]
  refine ⟨_, hcode, d_setD_self, hkey, ?_, hmem⟩
  exact ⟨fun r hr => hw.reg r hr, fun r hr =>
    (d_setD_of_ne (by simpa using hr)).trans (hw.d r (by simp)),
    hw.flags, hw.flush⟩

/-- A double stored. -/
theorem Ready.store (h : Ready native st Xbase Wd_top Wd_tmp m c)
    (d : Depth) (dd : Nat) :
    ∃ c₁, run (emit_store_st native Xbase Wd_top d Wd_tmp dd st) c = c₁
      ∧ State native c₁.mem (c.reg Xbase) (m.setF64 (m.phys d) (c.d dd))
      ∧ Wrote [Wd_tmp] [] c c₁ ∧ Within (c.reg Xbase) c.mem c₁.mem := by
  obtain ⟨c₁, hrun, hready, hkey, haddr, hw, hmem⟩ := h.atKey d
  have hcode : run (emit_store_st native Xbase Wd_top d Wd_tmp dd st) c
      = c₁.setMem (c.mem.store (c.reg Xbase
          + BitVec.ofNat 64 (slotOff native (m.phys d))) 8 (c.d dd)) := by
    rw [emit_store_st, run_snoc, hrun]
    show c₁.setMem (c₁.mem.store (address c₁ 3 _ _ _) 8
      ((c₁.d dd).setWidth 64)) = _
    rw [haddr, hmem, hw.d dd (by simp), BitVec.setWidth_eq]
  have hle := @slotOff_le native (m.phys d)
  refine ⟨_, hcode, h.state.storeSlot _ _, ⟨hw.reg, hw.d, hw.flags,
    hw.flush⟩, within_store _ 8 _ (by omega) (by omega)⟩

/-- A slot of ten bytes, or its last two, at a key of Rosetta's layout. -/
theorem Ready.behindKey (h : Ready true st Xbase Wd_top Wd_tmp m c)
    {p : BitVec 3} {e : Nat}
    (hkey : c.reg Wd_tmp = keyWord true st.isSome p + BitVec.ofNat 64 e)
    (size : Nat) :
    address c size Wd_tmp false (st.getD Xbase)
      = c.reg Xbase + BitVec.ofNat 64 (slotOff true p + e) := by
  unfold address
  rw [hkey, if_neg Bool.false_ne_true, BitVec.shiftLeft_zero]
  cases st with
  | none =>
      rw [Option.getD_none, regSp_of_ne h.base]
      simp only [keyWord, slotOff, Option.isSome_none, if_true, if_false,
        Bool.false_eq_true, ← BitVec.ofNat_add, Nat.add_comm 6]
  | some s =>
      obtain ⟨hs, -, hreg⟩ := h.st s rfl
      rw [Option.getD_some, regSp_of_ne hs, hreg, add_assoc]
      simp only [keyWord, slotOff, Option.isSome_some, if_true,
        ← BitVec.ofNat_add, ← Nat.add_assoc]

/-- From a slot's key to its last two bytes. -/
theorem Ready.next (h : Ready true st Xbase Wd_top Wd_tmp m c)
    {p : BitVec 3} (hkey : c.reg Wd_tmp = keyWord true st.isSome p) :
    ∃ c₁, run (lines [emit_add_imm false false false false 8 Wd_tmp
        Wd_tmp]) c = c₁
      ∧ c₁ = c.set Wd_tmp (keyWord true st.isSome p + BitVec.ofNat 64 8)
      ∧ Ready true st Xbase Wd_top Wd_tmp m c₁
      ∧ Wrote [Wd_tmp] [] c c₁ := by
  have hp := p.isLt
  have hw : ∀ v, Wrote [Wd_tmp] [] c (c.set Wd_tmp v) := fun v =>
    ⟨fun r hr => reg_set_of_ne (by simpa using hr), fun _ _ => rfl, rfl,
      rfl⟩
  refine ⟨_, rfl, ?_⟩
  rw [run_add_small h.tmp31 (by split <;> split <;> omega) hkey]
  refine ⟨?_, h.wrote (hw _) (by rw [mem_set]; exact h.state) rfl, hw _⟩
  rw [keyWord, ← BitVec.ofNat_add]
  rfl

/-- An access of the ten bytes of a slot is the access of its double at the
key and of its last two bytes behind it. -/
theorem run_native_slot_image (store : Bool) {c₁ c₂ c₃ : Cpu}
    (hkey : run (lines (emit_native_st_key Wd_top d Wd_tmp st)) c = c₁)
    (hfirst : step c₁ (emit_ldr_str_reg 3 store Wd_tmp false
      (st.getD Xbase) dd) = c₂)
    (hnext : run (lines [emit_add_imm false false false false 8 Wd_tmp
      Wd_tmp]) c₂ = c₃) :
    run (emit_native_slot_image Xbase Wd_top d Wd_tmp dd hd st store) c
      = step c₃ (emit_ldr_str_reg 1 store Wd_tmp false (st.getD Xbase) hd)
    := by
  rw [emit_native_slot_image, run_snoc]
  show step (runCode step (_ ++ _) c) _ = _
  rw [runCode_append]
  show step (run _ (run (_ ++ _) c)) _ = _
  rw [run_snoc, hkey, hfirst, hnext]

/-- A slot's ten bytes loaded. -/
theorem Ready.loadImage (h : Ready true st Xbase Wd_top Wd_tmp m c)
    (d : Depth) (hne : dd ≠ hd) :
    ∃ c₁, run (emit_native_slot_image Xbase Wd_top d Wd_tmp dd hd st false)
        c = c₁
      ∧ c₁.d dd = slotF64 (m.slot (m.phys d))
      ∧ c₁.d hd = (slotTail (m.slot (m.phys d))).setWidth 64
      ∧ Wrote [Wd_tmp] [dd, hd] c c₁ ∧ c₁.mem = c.mem := by
  obtain ⟨c₁, hrun, hready, hkey, haddr, hw, hmem⟩ := h.atKey d
  have hbase : c₁.reg Xbase = c.reg Xbase :=
    hw.reg _ (by simpa using Ne.symm h.tmpBase)
  replace haddr : address c₁ 3 Wd_tmp false (st.getD Xbase)
      = c.reg Xbase + BitVec.ofNat 64 (slotOff true (m.phys d)) := haddr
  have hfirst : step c₁ (emit_ldr_str_reg 3 false Wd_tmp false
      (st.getD Xbase) dd) = c₁.setD dd (slotF64 (m.slot (m.phys d))) := by
    show c₁.setD dd ((c₁.mem.load (address c₁ 3 _ _ _) 8).setWidth 64) = _
    rw [haddr, hmem, h.state.slot, BitVec.setWidth_eq]
  obtain ⟨c₃, hnext, hset, hready₃, hw₃⟩ := Ready.next (m := m)
    (c := c₁.setD dd (slotF64 (m.slot (m.phys d)))) { hready with } hkey
  have hmem₃ : c₃.mem = c.mem := by rw [hset, mem_set]; exact hmem
  have hbase₃ : c₃.reg Xbase = c.reg Xbase :=
    (hw₃.reg _ (by simpa using Ne.symm h.tmpBase)).trans hbase
  have hsecond : step c₃ (emit_ldr_str_reg 1 false Wd_tmp false
      (st.getD Xbase) hd)
      = c₃.setD hd ((slotTail (m.slot (m.phys d))).setWidth 64) := by
    have haddr₃ := hready₃.behindKey (p := m.phys d) (e := 8)
      (by rw [hset, reg_set_self h.tmp31]) 1
    show c₃.setD hd ((c₃.mem.load (address c₃ 1 _ _ _) 2).setWidth
      64) = _
    rw [haddr₃, hmem₃, hbase₃, h.state.tail rfl]
  refine ⟨_, (run_native_slot_image false hrun hfirst hnext).trans hsecond,
    ?_, d_setD_self, ?_, hmem₃⟩
  · rw [d_setD_of_ne hne, hset]
    exact d_setD_self
  · refine ⟨fun r hr => ?_, fun r hr => ?_, ?_, ?_⟩
    · exact (hw₃.reg r hr).trans (hw.reg r hr)
    · rw [List.mem_cons, List.mem_singleton, not_or] at hr
      rw [d_setD_of_ne hr.2, hset]
      exact (d_setD_of_ne hr.1).trans (hw.d r (by simp))
    · exact hw₃.flags.trans hw.flags
    · exact hw₃.flush.trans hw.flush

/-- A slot's ten bytes stored. -/
theorem Ready.storeImage (h : Ready true st Xbase Wd_top Wd_tmp m c)
    (d : Depth) {w : BitVec 80} (hdd : c.d dd = slotF64 w)
    (hhd : c.d hd = (slotTail w).setWidth 64) :
    ∃ c₁, run (emit_native_slot_image Xbase Wd_top d Wd_tmp dd hd st true)
        c = c₁
      ∧ State true c₁.mem (c.reg Xbase) (m.setSlot (m.phys d) w)
      ∧ Wrote [Wd_tmp] [] c c₁ ∧ Within (c.reg Xbase) c.mem c₁.mem := by
  obtain ⟨c₁, hrun, hready, hkey, haddr, hw, hmem⟩ := h.atKey d
  have hbase : c₁.reg Xbase = c.reg Xbase :=
    hw.reg _ (by simpa using Ne.symm h.tmpBase)
  have hle := @slotOff_le true (m.phys d)
  replace haddr : address c₁ 3 Wd_tmp false (st.getD Xbase)
      = c.reg Xbase + BitVec.ofNat 64 (slotOff true (m.phys d)) := haddr
  have hfirst : step c₁ (emit_ldr_str_reg 3 true Wd_tmp false
      (st.getD Xbase) dd)
      = c₁.setMem (c.mem.store (c.reg Xbase
          + BitVec.ofNat 64 (slotOff true (m.phys d))) 8
        (slotF64 w)) := by
    show c₁.setMem (c₁.mem.store (address c₁ 3 _ _ _) 8
      ((c₁.d dd).setWidth 64)) = _
    rw [haddr, hmem, hw.d dd (by simp), hdd, BitVec.setWidth_eq]
  have hready₂ : Ready true st Xbase Wd_top Wd_tmp
      (m.setF64 (m.phys d) (slotF64 w)) (c₁.setMem (c.mem.store (c.reg Xbase
          + BitVec.ofNat 64 (slotOff true (m.phys d))) 8
        (slotF64 w))) :=
    { hready with
      state := by
        show State true _ (c₁.reg Xbase) _
        rw [hbase]
        exact h.state.storeSlot _ _ }
  obtain ⟨c₃, hnext, hset, hready₃, hw₃⟩ := hready₂.next
    (p := m.phys d) hkey
  have hbase₃ : c₃.reg Xbase = c.reg Xbase :=
    (hw₃.reg _ (by simpa using Ne.symm h.tmpBase)).trans hbase
  have hsecond : step c₃ (emit_ldr_str_reg 1 true Wd_tmp false
      (st.getD Xbase) hd)
      = c₃.setMem ((c.mem.store (c.reg Xbase
          + BitVec.ofNat 64 (slotOff true (m.phys d))) 8
        (slotF64 w)).store (c.reg Xbase
          + BitVec.ofNat 64 (slotOff true (m.phys d) + 8)) 2
        (slotTail w)) := by
    have haddr₃ := hready₃.behindKey (p := m.phys d) (e := 8)
      (by rw [hset, reg_set_self h.tmp31]) 1
    have hval : c₃.d hd = (slotTail w).setWidth 64 := by
      rw [hw₃.d hd (by simp), ← hhd]
      exact hw.d hd (by simp)
    show c₃.setMem (c₃.mem.store (address c₃ 1 _ _ _) 2
      ((c₃.d hd).setWidth 16)) = _
    rw [haddr₃, hbase₃, hval, BitVec.setWidth_setWidth_of_le _ (by decide),
      BitVec.setWidth_eq, hset, mem_set]
    rfl
  refine ⟨_, (run_native_slot_image true hrun hfirst hnext).trans hsecond,
    h.state.storeImage _ w, ?_, ?_⟩
  · exact ⟨fun r hr => (hw₃.reg r hr).trans (hw.reg r hr),
      fun r hr => (hw₃.d r hr).trans (hw.d r hr),
      hw₃.flags.trans hw.flags, hw₃.flush.trans hw.flush⟩
  · exact (within_store _ 8 _ (by omega) (by omega)).trans
      (within_store _ 2 _ (by omega) (by omega))

/-- The address of a slot. -/
theorem Ready.slotAddr (h : Ready true st Xbase Wd_top Wd_tmp m c)
    (d : Depth) :
    ∃ c₁, run (lines (emit_native_st_addr Xbase Wd_top d Wd_tmp st)) c = c₁
      ∧ c₁.reg Wd_tmp
        = c.reg Xbase + BitVec.ofNat 64 (slotOff true (m.phys d))
      ∧ Wrote [Wd_tmp] [] c c₁ ∧ c₁.mem = c.mem := by
  obtain ⟨c₁, hrun, hready, hkey, -, hw, hmem⟩ := h.atKey d
  have haddr := hready.behindKey (p := m.phys d) (e := 0)
    (hkey.trans (BitVec.add_zero _).symm) 0
  rw [hw.reg _ (by simpa using Ne.symm h.tmpBase)] at haddr
  have hbase31 : st.getD Xbase ≠ 31 := by
    cases st with
    | none => exact h.base
    | some s => exact (h.st s rfl).1
  have hsum : run (lines [emit_add_sub_shifted_reg true false false .lsl
      Wd_tmp 0 (st.getD Xbase) Wd_tmp]) c₁
      = c₁.set Wd_tmp (address c₁ 0 Wd_tmp false (st.getD Xbase)) := by
    simp only [emit_add_sub_shifted_reg, lines_insn, lines_nil,
      runCode_cons, runCode_nil, step, step_addSubShifted,
      Bool.false_eq_true, if_false]
    rw [address, regSp_of_ne hbase31, if_neg Bool.false_ne_true]
    rfl
  refine ⟨_, rfl, ?_⟩
  rw [emit_native_st_addr, run_lines_append]
  replace hrun : run (lines (emit_native_st_key Wd_top d Wd_tmp st)) c
      = c₁ := hrun
  rw [hrun, hsum]
  refine ⟨(reg_set_self h.tmp31).trans haddr, ?_, ?_⟩
  · exact hw.trans ⟨fun r hr => reg_set_of_ne (by simpa using hr),
      fun _ _ => rfl, rfl, rfl⟩
  · rw [mem_set, hmem]

section
variable {x w : Nat}

/-- A slot's ten bytes loaded into integer registers. -/
theorem Ready.loadImageX (h : Ready true st Xbase Wd_top Wd_tmp m c)
    (d : Depth) (hx : x ≠ 31) (hw31 : w ≠ 31) (hxt : x ≠ Wd_tmp)
    (hxw : x ≠ w) :
    ∃ c₁, run (lines (emit_native_st_addr Xbase Wd_top d Wd_tmp st
        ++ [emit_ldr_imm 3 x Wd_tmp 0, emit_ldr_imm 1 w Wd_tmp 4])) c = c₁
      ∧ c₁.reg x = slotF64 (m.slot (m.phys d))
      ∧ c₁.reg w = (slotTail (m.slot (m.phys d))).setWidth 64
      ∧ Wrote [Wd_tmp, x, w] [] c c₁ ∧ c₁.mem = c.mem := by
  obtain ⟨c₁, hrun, haddr, hwr, hmem⟩ := h.slotAddr d
  have hfirst : c₁.load 3 (c₁.reg Wd_tmp
      + (0 : BitVec 12).setWidth 64 * BitVec.ofNat 64 (2 ^ 3))
      = slotF64 (m.slot (m.phys d)) := by
    show (c₁.mem.load _ 8).setWidth 64 = _
    rw [show (0 : BitVec 12).setWidth 64 * BitVec.ofNat 64 (2 ^ 3) = 0
      from rfl, add_zero, haddr, hmem, h.state.slot,
      BitVec.setWidth_eq]
  have hsecond : c₁.load 1 (c₁.reg Wd_tmp
      + (4 : BitVec 12).setWidth 64 * BitVec.ofNat 64 (2 ^ 1))
      = (slotTail (m.slot (m.phys d))).setWidth 64 := by
    show (c₁.mem.load _ 2).setWidth 64 = _
    rw [show (4 : BitVec 12).setWidth 64 * BitVec.ofNat 64 (2 ^ 1)
      = BitVec.ofNat 64 8 from rfl, haddr, add_assoc, ← BitVec.ofNat_add,
      hmem, h.state.tail rfl]
  have hkeep : ∀ v a, (c₁.set x v).load 1 a = c₁.load 1 a := fun v a => by
    simp only [Cpu.load, mem_set]
  have hcode : run (lines (emit_native_st_addr Xbase Wd_top d Wd_tmp st
      ++ [emit_ldr_imm 3 x Wd_tmp 0, emit_ldr_imm 1 w Wd_tmp 4])) c
      = (c₁.set x (slotF64 (m.slot (m.phys d)))).set w
        ((slotTail (m.slot (m.phys d))).setWidth 64) := by
    rw [run_lines_append, hrun]
    simp only [emit_ldr_imm, lines_insn, lines_nil, runCode_cons,
      runCode_nil, step, step_ldr h.tmp31, reg_set_of_ne (Ne.symm hxt),
      hkeep, hfirst, hsecond]
  refine ⟨_, hcode, ?_, reg_set_self hw31, ?_, by rw [mem_set, mem_set,
    hmem]⟩
  · rw [reg_set_of_ne hxw, reg_set_self hx]
  · refine ⟨fun r hr => ?_, fun r hr => hwr.d r hr, hwr.flags, hwr.flush⟩
    simp only [List.mem_cons, not_or] at hr
    rw [reg_set_of_ne hr.2.2.1, reg_set_of_ne hr.2.1]
    exact hwr.reg r (by simpa using hr.1)

/-- A slot's ten bytes stored from integer registers. -/
theorem Ready.storeImageX (h : Ready true st Xbase Wd_top Wd_tmp m c)
    (d : Depth) (hxt : x ≠ Wd_tmp) (hwt : w ≠ Wd_tmp) {v : BitVec 80}
    (hx : c.reg x = slotF64 v) (hw : c.reg w = (slotTail v).setWidth 64) :
    ∃ c₁, run (lines (emit_native_st_addr Xbase Wd_top d Wd_tmp st
        ++ [emit_str_imm 3 x Wd_tmp 0, emit_str_imm 1 w Wd_tmp 4])) c = c₁
      ∧ State true c₁.mem (c.reg Xbase) (m.setSlot (m.phys d) v)
      ∧ Wrote [Wd_tmp] [] c c₁ ∧ Within (c.reg Xbase) c.mem c₁.mem := by
  obtain ⟨c₁, hrun, haddr, hwr, hmem⟩ := h.slotAddr d
  have hle := @slotOff_le true (m.phys d)
  have hcode : run (lines (emit_native_st_addr Xbase Wd_top d Wd_tmp st
      ++ [emit_str_imm 3 x Wd_tmp 0, emit_str_imm 1 w Wd_tmp 4])) c
      = c₁.setMem ((c.mem.store (c.reg Xbase
          + BitVec.ofNat 64 (slotOff true (m.phys d))) 8
        (slotF64 v)).store (c.reg Xbase
          + BitVec.ofNat 64 (slotOff true (m.phys d) + 8)) 2
        (slotTail v)) := by
    rw [run_lines_append, hrun]
    simp only [emit_str_imm, lines_insn, lines_nil, runCode_cons,
      runCode_nil, step, step_str h.tmp31, reg_setMem, haddr,
      hwr.reg x (by simpa using hxt), hwr.reg w (by simpa using hwt), hx,
      hw, hmem]
    rw [show (0 : BitVec 12).setWidth 64 * BitVec.ofNat 64 (2 ^ 3) = 0
        from rfl, add_zero,
      show (4 : BitVec 12).setWidth 64 * BitVec.ofNat 64 (2 ^ 1)
        = BitVec.ofNat 64 8 from rfl, add_assoc, ← BitVec.ofNat_add]
    have h1 : (slotF64 v).setWidth 64 = slotF64 v := BitVec.setWidth_eq _
    have h2 : ((slotTail v).setWidth 64).setWidth 16 = slotTail v := by
      rw [BitVec.setWidth_setWidth_of_le _ (by decide), BitVec.setWidth_eq]
    exact congrArg₂ (fun a b => c₁.setMem ((c.mem.store _ 8 a).store _ 2 b))
      h1 h2
  refine ⟨_, hcode, h.state.storeImage _ v, ⟨hwr.reg, hwr.d, hwr.flags,
    hwr.flush⟩, ?_⟩
  exact (within_store _ 8 _ (by omega) (by omega)).trans
    (within_store _ 2 _ (by omega) (by omega))

end

end

-- =============================================== status and tag words

section
variable {c : Cpu} {Xbase Wd_top Wd_a Wd_b Wd_packed Wd_sw : Nat}
  {t : BitVec 3}

/-- The two fields of condition codes cleared and the new ones put in. -/
theorem withCC_bfm (sw : BitVec 16) (v : BitVec 64)
    (hv : v.setWidth 16 &&& ~~~ccMask = 0) :
    (Arm.narrow false (Arm.narrow false (bfmEval 32 18 0 0
        (Arm.narrow false (bfmEval 32 24 2 0 (sw.setWidth 64)))) ||| v)
      ).setWidth 16 = withCC sw (v.setWidth 16) := by
  apply BitVec.eq_of_getLsbD_eq
  intro i hi
  have hmask : (v.getLsbD i && !ccMask.getLsbD i) = false := by
    have := congrArg (fun w => w.getLsbD i) hv
    simpa [hi] using this
  show (((_ : BitVec 64).setWidth 32).setWidth 64 |>.setWidth 16).getLsbD i
    = _
  rw [BitVec.getLsbD_setWidth, BitVec.getLsbD_setWidth,
    BitVec.getLsbD_setWidth, decide_eq_true hi,
    decide_eq_true (show i < 64 by omega),
    decide_eq_true (show i < 32 by omega), Bool.true_and, Bool.true_and,
    Bool.true_and, BitVec.getLsbD_or,
    @getLsbD_bfi 14 0 (by decide) (by decide) _ _ _ (by omega),
    @getLsbD_bfi 8 2 (by decide) (by decide) _ _ _ (by omega)]
  unfold withCC
  simp only [BitVec.getLsbD_or, BitVec.getLsbD_and, BitVec.getLsbD_not,
    BitVec.getLsbD_setWidth, decide_eq_true hi, Bool.true_and]
  unfold ccMask at hmask ⊢
  interval_cases i <;> simp at hmask ⊢ <;> simp [hmask]

theorem mem_cc_write (hb : Xbase ≠ 31) (h31 : Wd_sw ≠ 31)
    (hbs : Xbase ≠ Wd_sw) (hps : Wd_packed ≠ Wd_sw) {sw : BitVec 16}
    (hsw : c.mem.load (c.reg Xbase + BitVec.ofNat 64 2) 2 = sw)
    (hcc : (c.reg Wd_packed).setWidth 16 &&& ~~~ccMask = 0) :
    (run (lines (emit_fcom_cc_write_sw Xbase Wd_packed Wd_sw)) c).mem
      = c.mem.store (c.reg Xbase + BitVec.ofNat 64 2) 2
        (withCC sw ((c.reg Wd_packed).setWidth 16)) := by
  have haddr : (kX87StatusWordImm12.setWidth 64 : BitVec 64)
      * BitVec.ofNat 64 (2 ^ 1) = BitVec.ofNat 64 2 := rfl
  have hzero : ∀ c : Cpu, c.reg XZR = 0 := fun _ => rfl
  have hload : c.load 1 (c.reg Xbase + BitVec.ofNat 64 2)
      = sw.setWidth 64 := by
    rw [← hsw]
    rfl
  simp only [emit_fcom_cc_write_sw, emit_ldr_imm, emit_bitfield,
    emit_str_imm, emit_logical_shifted_reg, lines_insn, lines_nil,
    runCode_cons, runCode_nil, step, step_ldr hb, step_str hb, step_bfm,
    step_logical, reg_set_of_ne hbs, reg_set_of_ne hps, reg_set_self h31,
    set_set, mem_set, mem_setMem, haddr, hload, hzero]
  refine congrArg (c.mem.store _ 2) ?_
  show (Arm.narrow false (_ ||| c.reg Wd_packed <<< 0)).setWidth 16 = _
  rw [BitVec.shiftLeft_zero]
  exact withCC_bfm sw _ hcc

theorem reg_load_tag (hb : Xbase ≠ 31) (ha : Wd_a ≠ 31) (hb31 : Wd_b ≠ 31)
    (hab : Wd_a ≠ Wd_b) (hta : Wd_top ≠ Wd_a) {tw : BitVec 16}
    (htw : c.mem.load (c.reg Xbase + BitVec.ofNat 64 4) 2 = tw)
    (htop : c.reg Wd_top = slotWord t) :
    (run (lines (emit_load_tag Xbase Wd_top Wd_a Wd_b)) c).reg Wd_a
      = (tagOf tw t).setWidth 64 := by
  have haddr : (kX87TagWordImm12.setWidth 64 : BitVec 64)
      * BitVec.ofNat 64 (2 ^ 1) = BitVec.ofNat 64 4 := rfl
  have hload : c.load 1 (c.reg Xbase + BitVec.ofNat 64 4)
      = tw.setWidth 64 := by
    rw [← htw]
    rfl
  simp only [emit_load_tag, emit_ldr_imm, emit_bitfield, emit_logical_imm,
    lines_insn, lines_nil, runCode_cons, runCode_nil, step, step_ldr hb,
    step_bitfield, step_shiftBy, step_logicalImm ha, reg_set_of_ne hta,
    reg_set_of_ne hab, reg_set_self ha, reg_set_self hb31, haddr, hload,
    htop]
  have hpos : ((Arm.narrow false (Arm.bitfieldEval 32 false 31 30
      (slotWord t))).toNat % 32) = 2 * t.toNat := by
    rw [tag_position, BitVec.toNat_ofNat]
    have := t.isLt
    omega
  refine (@low_mask 2 1 rfl (by decide) _).trans
    (congrArg (BitVec.setWidth 64) ?_)
  have hshift : Arm.narrow false (Shift.lsr.eval false (tw.setWidth 64)
      ((Arm.narrow false (Arm.bitfieldEval 32 false 31 30
        (slotWord t))).toNat % 32))
      = (((tw.setWidth 64).setWidth 32 >>> (2 * t.toNat)).setWidth 64
          |>.setWidth 32).setWidth 64 := by
    rw [hpos]
    rfl
  refine (congrArg (BitVec.setWidth 2) hshift).trans ?_
  apply BitVec.eq_of_getLsbD_eq
  intro i hi
  have ht := t.isLt
  rw [getLsbD_tagOf _ _ hi]
  simp only [BitVec.getLsbD_setWidth, BitVec.getLsbD_ushiftRight]
  simp [hi, show i < 64 by omega, show i < 32 by omega,
    show 2 * t.toNat + i < 64 by omega, show 2 * t.toNat + i < 32 by omega]

end

end X87Sidecar.Helpers
