/-
Integer stores from binary64 against the x87 integer store.

The dispatch leaves the number converted to 64 bits in the mode of the
rounding control (`run_rcmode_chain`), saturated; the guard tells what was
saturated or falls outside a narrower destination from what was not
(`run_guard`). The two together are the reference store
(`guard_converted`), because what saturates to zero was zero and no
binary64 rounds to the largest 64-bit integer.
-/
import X87Sidecar.Lib.Signed
import X87Sidecar.Translate.Fist

namespace X87Sidecar.Fist

open Lib Lib.Cpu Lines

-- ===================================================== the reference

/-- The rounding control of a control word, its bits 11 and 10. -/
def roundingControl (cw : BitVec 16) : BitVec 2 := (cw >>> 10).setWidth 2

/-- The direction a rounding control asks for. -/
def rcMode (rc : BitVec 2) : Rounding :=
  match rc.toNat with
  | 0 => .nearest
  | 1 => .down
  | 2 => .up
  | _ => .chop

/-- The integer indefinite. -/
def indefinite (w : Nat) : BitVec w := BitVec.ofNat w (2 ^ (w - 1))

/-- What an x87 integer store of `w` bits stores of a binary64: its value
rounded, when that is a signed integer of the width, and the integer
indefinite otherwise. -/
def storedInt (w : Nat) (mode : Rounding) (b : BitVec 64) : BitVec w :=
  if Double.isNaN b ∨ Double.isInf b
      ∨ ¬ Double.Fits w (roundInt mode (Double.value b)) then indefinite w
  else BitVec.ofInt w (roundInt mode (Double.value b))

/-- The control word in memory. -/
def controlWord (c : Cpu) (Xbase : Nat) : BitVec 16 :=
  c.mem.load (c.reg Xbase) 2

/-- The direction in which a store rounds: the one in force, but to zero
for `FISTTP` and to nearest under `fast_round`. -/
def modeOf (cw : BitVec 16) : RoundBy → Rounding
  | .truncate => .chop
  | .cached _ _ => rcMode (roundingControl cw)
  | .dispatch fast_round =>
      if fast_round then .nearest else rcMode (roundingControl cw)

-- ==================================================== the conversion

/-- A number as the conversion to 64 bits leaves it. -/
def converted (mode : Rounding) (b : BitVec 64) : BitVec 64 :=
  BitVec.ofInt 64 (Double.toSigned mode 64 b)

section
variable {c : Cpu} {Xbase Wd_int Dd_val Wd_rc Wd_rc_cached : Nat}

/-- The chain converts in the direction of the rounding control. -/
theorem run_rcmode_chain (hrc : Wd_rc ≠ 31) (hint : Wd_int ≠ 31)
    {rc : BitVec 2} (h : c.reg Wd_rc = rc.setWidth 64) :
    (run (rcmode_chain Wd_int Dd_val true Wd_rc) c).reg Wd_int
      = converted (rcMode rc) (c.d Dd_val) := by
  have hcases : ∀ rc : BitVec 2, rc = 0 ∨ rc = 1 ∨ rc = 2 ∨ rc = 3 := by
    decide
  unfold converted Cpu.run Forward.run rcmode_chain
  rcases hcases rc with rfl | rfl | rfl | rfl <;>
    simp [h, hrc, hint, Arm.narrow, rcMode]

/-- The field of the rounding control. -/
theorem ubfm_roundingControl (cw : BitVec 16) :
    Arm.narrow false (Arm.bitfieldEval 32 false 10 11 (cw.setWidth 64))
      = (roundingControl cw).setWidth 64 := by
  apply BitVec.eq_of_toNat_eq
  have := cw.isLt
  simp [Arm.narrow, Arm.bitfieldEval, roundingControl,
    Nat.shiftRight_eq_div_pow]
  omega

/-- The rounding control read from the control word. -/
theorem run_rc_preamble (hbase : Xbase ≠ 31) (hrc : Wd_rc ≠ 31) :
    (run (emit_rc_preamble Xbase Wd_rc) c).reg Wd_rc
      = (roundingControl (controlWord c Xbase)).setWidth 64 := by
  unfold Cpu.run Forward.run emit_rc_preamble
  simp only [emit_ldr_imm, emit_bitfield, Forward.exec_insn,
    step_ldr hbase, step_bitfield, reg_set_self hrc, Forward.exec_nil,
    width_false, offset_zero]
  exact ubfm_roundingControl (controlWord c Xbase)

end

-- ========================================================= the guard

/-- A word is the sign extension of its low bits just when it fits
there. -/
theorem sub_signed_eq_zero {w : Nat} (hw : 0 < w) (hw' : w ≤ 64)
    (v : BitVec 64) :
    v - signed w v = 0#64 ↔ Double.Fits w v.toInt := by
  have hlow : v.setWidth w = BitVec.ofInt w v.toInt := by
    rw [← Word.setWidth_ofInt hw', BitVec.ofInt_toInt]
  have hint : (signed w v).toInt = (BitVec.ofInt w v.toInt).toInt := by
    rw [signed, BitVec.toInt_signExtend_of_le hw', hlow]
  have hsub : v - signed w v = 0#64 ↔ v.toInt = (signed w v).toInt := by
    rw [BitVec.toInt_inj]
    constructor
    · intro h
      have h' := BitVec.sub_add_cancel v (signed w v)
      rw [h, BitVec.zero_add] at h'
      exact h'.symm
    · intro h
      rw [← h]
      exact BitVec.sub_self v
  rw [hsub, hint]
  constructor
  · intro h
    rw [h]
    exact ⟨BitVec.le_toInt _, BitVec.toInt_lt⟩
  · intro h
    rw [BitVec.toInt_ofInt_eq_self hw h.1 h.2]

/-- Where the guard lets an integer through: below the largest for 64
bits, in range for the others. -/
def Passes (size : IntSize) (n : Int) : Prop :=
  if size = .s64 then n ≠ 2 ^ 63 - 1 else Double.Fits size.bits n

instance (size : IntSize) (n : Int) : Decidable (Passes size n) :=
  inferInstanceAs (Decidable
    (if size = .s64 then n ≠ 2 ^ 63 - 1 else Double.Fits size.bits n))

section
variable {c : Cpu} {Xd_int Dd_val Xt Dscr : Nat} {size : IntSize}

theorem mem_guard :
    (run (emit_fist_indefinite_guard Xd_int Dd_val size Xt Dscr) c).mem
      = c.mem :=
  run_mem (by
    cases size <;> simp [emit_fist_indefinite_guard, emit_indefinite,
      Cpu.Op.stores])

theorem reg_guard {r : Nat} (h1 : r ≠ Xd_int) (h2 : r ≠ Xt) :
    (run (emit_fist_indefinite_guard Xd_int Dd_val size Xt Dscr) c).reg r
      = c.reg r :=
  run_reg_of_ne (by
    cases size <;> simp [emit_fist_indefinite_guard, emit_indefinite,
      Cpu.Op.dest, h1.symm, h2.symm])

/-- The guard keeps what passes and replaces the rest; where the
conversion gave 0 it asks whether there was a number. -/
theorem run_guard (hd : Xd_int ≠ 31) (ht : Xt ≠ 31) (hne : Xd_int ≠ Xt)
    {n : Int} (hn : c.reg Xd_int = BitVec.ofInt 64 n)
    (hfits : Double.Fits 64 n) :
    ((run (emit_fist_indefinite_guard Xd_int Dd_val size Xt Dscr)
        c).reg Xd_int).setWidth size.bits
      = if n = 0 then
          if Double.isNaN (c.d Dd_val) then indefinite size.bits else 0
        else if Passes size n then BitVec.ofInt size.bits n
        else indefinite size.bits := by
  have hint : (BitVec.ofInt 64 n).toInt = n :=
    BitVec.toInt_ofInt_eq_self (by decide) hfits.1 hfits.2
  have hzero : BitVec.ofInt 64 n = 0#64 ↔ n = 0 := by
    rw [← BitVec.toInt_inj, hint]
    simp
  have hsub : ∀ w, 0 < w → w ≤ 64 →
      (BitVec.ofInt 64 n - signed w (BitVec.ofInt 64 n) = 0#64
        ↔ Double.Fits w n) := by
    intro w hw hw'
    rw [sub_signed_eq_zero hw hw', hint]
  have heor : Arm.Logical.eor.eval (BitVec.ofInt 64 n)
      (Arm.decodeBitMask true 0#6 62#6) = 0#64 ↔ n = 2 ^ 63 - 1 := by
    have hmask : Arm.decodeBitMask true 0#6 62#6
        = BitVec.ofInt 64 (2 ^ 63 - 1) := by decide +kernel
    rw [hmask, Arm.Logical.eval, BitVec.xor_eq_zero_iff,
      ← BitVec.toInt_inj, hint]
    simp
  by_cases h0 : n = 0
  · subst h0
    rw [if_pos rfl]
    cases hnan : Double.isNaN (c.d Dd_val) <;> cases size <;>
      simp [emit_fist_indefinite_guard, emit_indefinite, Cpu.run,
        Forward.run, hn, hd, ht, hne, hnan, IntSize.bits, indefinite,
        Arm.narrow]
  · rw [if_neg h0]
    have hbits : 0 < size.bits ∧ size.bits ≤ 64 := by
      cases size <;> decide
    by_cases hp : Passes size n
    · rw [if_pos hp, ← Word.setWidth_ofInt hbits.2, ← hn]
      cases size with
      | s16 =>
          have hx := (hsub 16 (by decide) (by decide)).mpr hp
          simp [emit_fist_indefinite_guard, emit_indefinite, Cpu.run,
            Forward.run, hn, hd, ht, hne, hzero, h0, hx]
      | s32 =>
          have hx := (hsub 32 (by decide) (by decide)).mpr hp
          simp [emit_fist_indefinite_guard, emit_indefinite, Cpu.run,
            Forward.run, hn, hd, ht, hne, hzero, h0, hx]
      | s64 =>
          have hx := (not_congr heor).mpr hp
          simp [emit_fist_indefinite_guard, emit_indefinite, Cpu.run,
            Forward.run, hn, ht, hne, hzero, h0, hx]
    · rw [if_neg hp]
      cases size with
      | s16 =>
          have hx := (not_congr (hsub 16 (by decide) (by decide))).mpr hp
          simp [emit_fist_indefinite_guard, emit_indefinite, Cpu.run,
            Forward.run, hn, hd, ht, hne, hzero, h0, hx, IntSize.bits,
            indefinite, Arm.narrow]
      | s32 =>
          have hx := (not_congr (hsub 32 (by decide) (by decide))).mpr hp
          simp [emit_fist_indefinite_guard, emit_indefinite, Cpu.run,
            Forward.run, hn, hd, ht, hne, hzero, h0, hx, IntSize.bits,
            indefinite, Arm.narrow]
      | s64 =>
          have hx := heor.mpr (not_not.mp hp)
          simp [emit_fist_indefinite_guard, emit_indefinite, Cpu.run,
            Forward.run, hn, hd, ht, hne, hzero, h0, hx, IntSize.bits,
            indefinite]

end

-- ====================================== the guard on a converted number

/-- On a number converted to 64 bits the guard is the reference. -/
theorem guard_converted (mode : Rounding) (size : IntSize)
    (b : BitVec 64) :
    (if Double.toSigned mode 64 b = 0 then
        if Double.isNaN b then indefinite size.bits else 0
      else if Passes size (Double.toSigned mode 64 b) then
        BitVec.ofInt size.bits (Double.toSigned mode 64 b)
      else indefinite size.bits)
      = storedInt size.bits mode b := by
  have hbits : 0 < size.bits ∧ size.bits ≤ 64 := by
    cases size <;> decide
  unfold storedInt Double.toSigned
  cases hnan : Double.isNaN b with
  | true => simp
  | false =>
      have hmax := Double.roundInt_value_ne mode b
      have hinf := fun h => @Double.not_fits_of_isInf _ hbits.2 b h mode
      simp only [Bool.false_eq_true, if_false, false_or]
      generalize roundInt mode (Double.value b) = n at *
      by_cases hf : Double.Fits size.bits n
      · -- in range: nothing was saturated
        have h64 : Double.Fits 64 n := by
          have hle : (2 : Int) ^ (size.bits - 1) ≤ 2 ^ (64 - 1) :=
            pow_le_pow_right₀ (by norm_num) (by omega)
          unfold Double.Fits at *
          omega
        have hp : Passes size n := by
          unfold Passes
          split
          · exact hmax
          · exact hf
        have hgood : ¬ (Double.isInf b = true
            ∨ ¬ Double.Fits size.bits n) :=
          fun h => h.elim (fun h => hinf h hf) fun h => h hf
        rw [Double.saturate_of_fits h64, if_neg hgood, if_pos hp]
        by_cases h0 : n = 0
        · rw [if_pos h0, h0]
          exact (BitVec.ofInt_natCast _ 0).symm
        · rw [if_neg h0]
      · have hbad : Double.isInf b = true ∨ ¬ Double.Fits size.bits n :=
          .inr hf
        rw [if_pos hbad]
        clear hbad hinf
        by_cases h64 : size = .s64
        · -- only saturation is left, to one of two integers
          subst h64
          have hk : Double.saturate 64 n = 2 ^ 63 - 1
              ∨ Double.saturate 64 n = -2 ^ 63 := by
            have hf' : ¬ (-2 ^ 63 ≤ n ∧ n < 2 ^ 63) := hf
            unfold Double.saturate
            omega
          rcases hk with hk | hk <;> rw [hk] <;> decide
        · have hlt : size.bits < 64 := by
            cases size <;> first | decide | exact absurd rfl h64
          have hk : ¬ Double.Fits size.bits (Double.saturate 64 n) :=
            fun h => hf (Double.fits_of_saturate hlt hbits.1 h)
          have hp : ¬ Passes size (Double.saturate 64 n) := by
            unfold Passes
            rw [if_neg h64]
            exact hk
          have h0 : Double.saturate 64 n ≠ 0 := by
            intro h
            rw [h] at hk
            exact hk (by cases size <;> decide)
          rw [if_neg h0, if_neg hp]

-- ====================================================== the whole store

/-- The register that holds the rounding control between stores does
hold it. -/
def RcCached (c : Cpu) (Xbase Wd_rc_cached : Nat) : Prop :=
  c.reg Wd_rc_cached
    = (roundingControl (controlWord c Xbase)).setWidth 64

/-- The rounding control is cached, where the lowering relies on it. -/
def RoundBy.Ready (how : RoundBy) (c : Cpu) (Xbase : Nat) : Prop :=
  match how with
  | .cached Wd_rc_cached true => RcCached c Xbase Wd_rc_cached
  | _ => True

/-- The registers of a conversion. -/
def RoundBy.regs (how : RoundBy) (Xbase Wd_int Wd_tmp : Nat) :
    List Nat :=
  [31, Xbase, Wd_int, Wd_tmp] ++ match how with
    | .cached Wd_rc_cached _ => [Wd_rc_cached]
    | _ => []

section
variable {c : Cpu} {Xbase Wd_int Dd_val Wd_tmp Xt Dscr : Nat}
  {how : RoundBy} {size : IntSize}

theorem closed_conversion : Forward.closed
    (emit_conversion how Xbase Wd_int Dd_val Wd_tmp) = true := by
  cases how with
  | truncate => rfl
  | cached r valid => cases valid <;> rfl
  | dispatch fast => cases fast <;> rfl

theorem mem_conversion :
    (run (emit_conversion how Xbase Wd_int Dd_val Wd_tmp) c).mem
      = c.mem := by
  apply run_mem
  cases how with
  | truncate => simp [emit_conversion, Cpu.Op.stores]
  | cached r valid =>
      cases valid <;> simp [emit_conversion, emit_rc_preamble,
        emit_rcmode_dispatch_cached, rcmode_chain, Cpu.Op.stores]
  | dispatch fast =>
      cases fast <;> simp [emit_conversion, emit_rcmode_dispatch,
        rcmode_chain, Cpu.Op.stores]

theorem d_conversion :
    (run (emit_conversion how Xbase Wd_int Dd_val Wd_tmp) c).d Dd_val
      = c.d Dd_val := by
  apply run_d
  cases how with
  | truncate => simp [emit_conversion, Cpu.Op.destD]
  | cached r valid =>
      cases valid <;> simp [emit_conversion, emit_rc_preamble,
        emit_rcmode_dispatch_cached, rcmode_chain, Cpu.Op.destD]
  | dispatch fast =>
      cases fast <;> simp [emit_conversion, emit_rcmode_dispatch,
        rcmode_chain, Cpu.Op.destD]

theorem d_rc_preamble {Wd_rc : Nat} :
    (run (emit_rc_preamble Xbase Wd_rc) c).d = c.d :=
  funext fun _ => run_d (by simp [emit_rc_preamble, Cpu.Op.destD])

theorem reg_rc_preamble {Wd_rc r : Nat} (h : r ≠ Wd_rc) :
    (run (emit_rc_preamble Xbase Wd_rc) c).reg r = c.reg r :=
  run_reg_of_ne (by simp [emit_rc_preamble, Cpu.Op.dest, h.symm])

/-- The copy of a cached rounding control. -/
theorem run_mov_rc {Wd_rc_cached : Nat} {rc : BitVec 2}
    (h : c.reg Wd_rc_cached = rc.setWidth 64) :
    run ([emit_mov_reg false Wd_tmp Wd_rc_cached] : List (Line NoLabel)) c
      = c.set Wd_tmp (rc.setWidth 64) := by
  have hlow : ∀ rc : BitVec 2,
      Arm.narrow false (0 ||| rc.setWidth 64) = rc.setWidth 64 := by
    decide
  simp only [Cpu.run, Forward.run, emit_mov_reg, emit_logical_shifted_reg,
    Forward.exec_insn, step_logical, Forward.exec_nil, XZR, reg_zero, h,
    Shift.eval, Arm.Logical.eval, Bool.false_eq_true, if_false]
  rw [show (0 : BitVec 6).toNat = 0 from rfl, BitVec.shiftLeft_zero, hlow]

/-- From a cached rounding control the number is converted in its
direction. -/
theorem run_dispatch_cached {Wd_rc_cached : Nat} (htmp : Wd_tmp ≠ 31)
    (hint : Wd_int ≠ 31) {rc : BitVec 2}
    (h : c.reg Wd_rc_cached = rc.setWidth 64) :
    (run (emit_rcmode_dispatch_cached Wd_int Dd_val true Wd_rc_cached
        Wd_tmp) c).reg Wd_int
      = converted (rcMode rc) (c.d Dd_val) := by
  have hclosed : Forward.closed
      ([emit_mov_reg false Wd_tmp Wd_rc_cached] : List (Line NoLabel))
        = true := rfl
  have hsplit : emit_rcmode_dispatch_cached Wd_int Dd_val true
        Wd_rc_cached Wd_tmp
      = [emit_mov_reg false Wd_tmp Wd_rc_cached]
        ++ rcmode_chain Wd_int Dd_val true Wd_tmp := rfl
  rw [hsplit, run_append hclosed, run_mov_rc h,
    run_rcmode_chain htmp hint (reg_set_self htmp), d_set]

/-- The number is converted in the direction in force. -/
theorem run_conversion
    (hregs : (how.regs Xbase Wd_int Wd_tmp).Nodup)
    (hready : how.Ready c Xbase) :
    (run (emit_conversion how Xbase Wd_int Dd_val Wd_tmp) c).reg Wd_int
      = converted (modeOf (controlWord c Xbase) how) (c.d Dd_val) := by
  cases how with
  | truncate =>
      simp [RoundBy.regs] at hregs
      simp [emit_conversion, Cpu.run, Forward.run, converted, modeOf,
        Ne.symm hregs.1.2.1]
  | cached r valid =>
      simp [RoundBy.regs] at hregs
      obtain ⟨⟨hbase, hint, htmp, hr⟩, -⟩ := hregs
      cases valid with
      | true =>
          exact run_dispatch_cached (Ne.symm htmp) (Ne.symm hint) hready
      | false =>
          have hpre : Forward.closed (emit_rc_preamble Xbase r) = true :=
            rfl
          have hsplit : emit_conversion (.cached r false) Xbase Wd_int
                Dd_val Wd_tmp
              = emit_rc_preamble Xbase r ++ emit_rcmode_dispatch_cached
                Wd_int Dd_val true r Wd_tmp := rfl
          rw [hsplit, run_append hpre, run_dispatch_cached (Ne.symm htmp)
            (Ne.symm hint) (run_rc_preamble (Ne.symm hbase)
              (Ne.symm hr)), d_rc_preamble]
          rfl
  | dispatch fast =>
      simp [RoundBy.regs] at hregs
      obtain ⟨⟨hbase, hint, htmp⟩, -⟩ := hregs
      cases fast with
      | true =>
          simp [emit_conversion, emit_rcmode_dispatch, Cpu.run,
            Forward.run, converted, modeOf, Ne.symm hint]
      | false =>
          have hpre : Forward.closed (emit_rc_preamble Xbase Wd_tmp)
              = true := rfl
          have hsplit : emit_conversion (.dispatch false) Xbase Wd_int
                Dd_val Wd_tmp
              = emit_rc_preamble Xbase Wd_tmp
                ++ rcmode_chain Wd_int Dd_val true Wd_tmp := rfl
          rw [hsplit, run_append hpre, run_rcmode_chain (Ne.symm htmp)
            (Ne.symm hint) (run_rc_preamble (Ne.symm hbase)
              (Ne.symm htmp)), d_rc_preamble]
          rfl

end

section
variable {c : Cpu} {Xbase Wd_int Dd_val Wd_tmp Xt Dscr : Nat}
  {how : RoundBy} {size : IntSize}

/-- The store up to the address. -/
abbrev guarded (how : RoundBy) (size : IntSize)
    (Xbase Wd_int Dd_val Wd_tmp Xt Dscr : Nat) : List (Line NoLabel) :=
  emit_conversion how Xbase Wd_int Dd_val Wd_tmp
    ++ emit_fist_indefinite_guard Wd_int Dd_val size Xt Dscr

theorem closed_guarded : Forward.closed
    (guarded how size Xbase Wd_int Dd_val Wd_tmp Xt Dscr) = true := by
  cases how with
  | truncate => cases size <;> rfl
  | cached r valid => cases valid <;> cases size <;> rfl
  | dispatch fast => cases fast <;> cases size <;> rfl

theorem mem_guarded :
    (run (guarded how size Xbase Wd_int Dd_val Wd_tmp Xt Dscr) c).mem
      = c.mem := by
  rw [guarded, run_append closed_conversion, mem_guard, mem_conversion]

/-- Conversion and guard leave the reference integer. -/
theorem run_guarded (hregs : (Xt :: how.regs Xbase Wd_int Wd_tmp).Nodup)
    (hready : how.Ready c Xbase) :
    ((run (guarded how size Xbase Wd_int Dd_val Wd_tmp Xt Dscr)
        c).reg Wd_int).setWidth size.bits
      = storedInt size.bits (modeOf (controlWord c Xbase) how)
        (c.d Dd_val) := by
  obtain ⟨hxt, hnodup⟩ := List.nodup_cons.mp hregs
  have hmem : Xt ≠ 31 ∧ Xt ≠ Wd_int ∧ Wd_int ≠ 31 := by
    simp [RoundBy.regs] at hxt hnodup
    exact ⟨hxt.1, hxt.2.2.1, Ne.symm hnodup.1.2.1⟩
  have hfits : ∀ mode, Double.Fits 64
      (Double.toSigned mode 64 (c.d Dd_val)) := by
    intro mode
    unfold Double.toSigned
    split
    · decide
    · exact Double.fits_saturate _
  rw [guarded, run_append closed_conversion,
    run_guard hmem.2.2 hmem.1 (Ne.symm hmem.2.1)
      (run_conversion hnodup hready) (hfits _), d_conversion]
  exact guard_converted _ size _

/-- The store writes what conversion and guard leave to the address it
finds. -/
theorem mem_int_store {addr : Nat} {address : List (Line NoLabel)}
    (haddr : addr ≠ 31) (hclosed : Forward.closed address = true)
    (haddress : ∀ c, (run address c).mem = c.mem
      ∧ (run address c).reg Wd_int = c.reg Wd_int) :
    (run (emit_int_store how size Xbase Wd_int Dd_val Wd_tmp Xt Dscr
        address addr) c).mem
      = c.mem.store
        ((run (guarded how size Xbase Wd_int Dd_val Wd_tmp Xt Dscr
          ++ address) c).reg addr) (2 ^ size.store_size)
        (((run (guarded how size Xbase Wd_int Dd_val Wd_tmp Xt Dscr)
          c).reg Wd_int).setWidth _) := by
  have hstore : ∀ c : Cpu,
      (run ([emit_str_imm size.store_size Wd_int addr 0] :
        List (Line NoLabel)) c).mem
        = c.mem.store (c.reg addr) (2 ^ size.store_size)
          ((c.reg Wd_int).setWidth _) := by
    intro c
    simp only [Cpu.run, Forward.run, emit_str_imm, Forward.exec_insn,
      Forward.exec_nil, step_str haddr, offset_zero, mem_setMem]
  have hboth : Forward.closed (guarded how size Xbase Wd_int Dd_val
      Wd_tmp Xt Dscr ++ address) = true := by
    rw [Forward.closed_append closed_guarded hclosed]
  unfold emit_int_store
  rw [run_append hboth, hstore, run_append closed_guarded,
    (haddress _).1, (haddress _).2, mem_guarded]

end

/-- A machine whose base register is 0: the control word is there, the
number in every floating-point register and 256 in every other one. -/
def storing (cw : BitVec 16) (b : BitVec 64) : Cpu where
  x r := if r = 0 then 0 else 256
  sp := 0
  mem := Mem.store (fun _ => 0) 0 2 cw
  d _ := b
  flags := ⟨false, false, false, false⟩
  flush := 0

end X87Sidecar.Fist
