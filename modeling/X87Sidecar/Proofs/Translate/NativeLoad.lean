/-
Native integer loads are exact, and stores give back what was loaded.

A load spreads the sign, forms the magnitude without a branch
(`magnitude_word`) and shifts it until its integer bit is set: the ten
bytes are the canonical encoding of the integer (`Extended.ofInt`), whose
value is the integer (`ofInt_value`). Rounding leaves an integer as it is,
so that a store gives it back in every direction
(`Extended.storedInt_ofInt`).
-/
import X87Sidecar.Proofs.Translate.NativeStore

namespace X87Sidecar

open Lib Lib.Cpu Lib.Word Lines F80

/-- The canonical encoding of an integer of at most 64 bits: normalised,
zero positive. -/
def Extended.ofInt (n : Int) : Extended :=
  if n = 0 then extended 0 false 0
  else
    let k := 63 - Nat.log2 n.natAbs
    extended (n.natAbs * 2 ^ k) (n < 0) (16446 - k)

namespace F80

attribute [local simp] Arm.Logical.eval Shift.eval bit_of_lt bit_of_ge
  narrow_word narrow_word_wrap narrow_add narrow_add_wrap narrow_sub
  narrow_sub_neg add_word ubfm_down ubfm_up shl_word shr_word
  step_mask_7fff step_mask_8000 step_mask_top step_mask_one
  word_eq_zero narrow_neg toNat_word zero_cmpW carry_cmpW Cond.eval

section
variable {c : Cpu} {Xslot Xint Xs Xe : Nat} {v : BitVec 64}

/-- The sign spread over a word. -/
theorem sbfm_sign (v : BitVec 64) :
    Arm.bitfieldEval 64 true 63 63 v
      = if v.msb then BitVec.allOnes 64 else 0#64 := by
  have hbit : ((v >>> 63).setWidth 1 : BitVec 1)
      = if v.msb then 1#1 else 0#1 := by
    apply BitVec.eq_of_toNat_eq
    have hlt := v.isLt
    rw [BitVec.toNat_setWidth, BitVec.toNat_ushiftRight,
      Nat.shiftRight_eq_div_pow, BitVec.msb_eq_decide]
    by_cases h : 2 ^ 63 ≤ v.toNat
    · rw [decide_eq_true h, if_pos rfl]
      show _ = 1
      omega
    · rw [decide_eq_false h, if_neg Bool.false_ne_true]
      show _ = 0
      omega
  show ((v >>> 63).setWidth 1).signExtend 64 = _
  rw [hbit]
  cases v.msb <;> rfl

/-- The magnitude of a word, formed without a branch. -/
theorem magnitude_word (v : BitVec 64) :
    (v ^^^ Arm.bitfieldEval 64 true 63 63 v)
        - Arm.bitfieldEval 64 true 63 63 v
      = word v.toInt.natAbs := by
  have hlt := v.isLt
  rw [sbfm_sign, BitVec.toInt_eq_msb_cond]
  cases hs : v.msb
  · rw [if_neg Bool.false_ne_true, if_neg Bool.false_ne_true,
      BitVec.xor_zero, BitVec.sub_zero, Int.natAbs_natCast,
      show word v.toNat = BitVec.ofNat 64 v.toNat from rfl,
      BitVec.ofNat_toNat, BitVec.setWidth_eq]
  · have habs : ((v.toNat : Int) - (2 ^ 64 : Nat)).natAbs
        = 2 ^ 64 - v.toNat := by omega
    rw [if_pos rfl, if_pos rfl, BitVec.xor_allOnes, habs]
    apply BitVec.eq_of_toNat_eq
    rw [BitVec.toNat_sub, BitVec.toNat_not, BitVec.toNat_allOnes,
      BitVec.toNat_ofNat]
    omega

/-- The halfword of a sign and a normalising shift. -/
theorem half_exponent {s k : Nat} (hs : s < 2) (hk : k < 64) :
    BitVec.setWidth 16 (Arm.narrow false (Arm.narrow false (Arm.narrow false
      (Arm.narrow false (word (s * 2 ^ 15)) + word 16384) + 62#64)
        - word k))
      = BitVec.ofNat 16 (16446 - k + s * 2 ^ 15) := by
  rw [narrow_word (by omega), narrow_add (by omega),
    show (62#64) = word 62 from rfl, narrow_add (by omega),
    narrow_sub (by omega) (by omega), half_word]
  congr 1
  omega

theorem and_sign (v : BitVec 64) :
    Arm.bitfieldEval 64 true 63 63 v &&& 32768#64
      = word (v.msb.toNat * 2 ^ 15) := by
  rw [sbfm_sign]
  cases v.msb <;> rfl

theorem run_i64_zero (h : [31, Xslot, Xint, Xs, Xe].Nodup)
    (hv : c.reg Xint = 0#64) :
    (run (emit_i64_to_f80_slot Xslot Xint Xs Xe) c).mem
      = stored c Xslot 0 0 0 := by
  obtain ⟨⟨_, _, _, _⟩, ⟨_, _, _, _, _, _⟩, _, _, _, _, _, _⟩ :=
    apart_four h
  simp (disch := first | exact Apart.ne ‹_› | omega) [run, Forward.run,
    emit_i64_to_f80_slot, hv, -BitVec.getLsbD_eq_getElem]
  rfl

theorem run_i64 (h : [31, Xslot, Xint, Xs, Xe].Nodup)
    (hv : c.reg Xint = v) {m k : Nat} (hm : v.toInt.natAbs = m)
    (h0 : 0 < m) (hlt : m < 2 ^ 64) (hk : leadingZeros (word m) = k)
    (hk' : k < 64) :
    (run (emit_i64_to_f80_slot Xslot Xint Xs Xe) c).mem
      = stored c Xslot (m * 2 ^ k) v.msb.toNat (16446 - k) := by
  obtain ⟨⟨_, _, _, _⟩, ⟨_, _, _, _, _, _⟩, _, _, _, _, _, _⟩ :=
    apart_four h
  have hmag := magnitude_word v
  rw [hm] at hmag
  have hne : ¬ m = 0 := by omega
  have hmod : k % 64 = k := Nat.mod_eq_of_lt hk'
  simp (disch := first | exact Apart.ne ‹_› | omega) [run, Forward.run,
    emit_i64_to_f80_slot, hv, hmag, hne, hk, hmod, and_sign,
    -BitVec.getLsbD_eq_getElem]
  have hhalf := half_exponent (Bool.toNat_lt v.msb) hk'
  exact congrArg (fun h => (c.mem.store (c.reg Xslot) 8
    (word (m * 2 ^ k))).store (c.reg Xslot + 8#64) 2 h) hhalf

/-- The load writes the canonical encoding of the integer. -/
theorem i64_to_slot_stores (h : [31, Xslot, Xint, Xs, Xe].Nodup) :
    (run (emit_i64_to_f80_slot Xslot Xint Xs Xe) c).mem
      = (Extended.ofInt (c.reg Xint).toInt).store c.mem (c.reg Xslot) := by
  obtain ⟨v, hv⟩ : ∃ v, c.reg Xint = v := ⟨_, rfl⟩
  rw [hv]
  unfold Extended.ofInt
  by_cases h0 : v.toInt = 0
  · have hzero : v = 0#64 := BitVec.toInt_inj.mp h0
    rw [if_pos h0, ← stored_extended]
    exact run_i64_zero h (hv.trans hzero)
  · rw [if_neg h0]
    dsimp only
    obtain ⟨m, hm⟩ : ∃ m, v.toInt.natAbs = m := ⟨_, rfl⟩
    have hlo := BitVec.le_toInt v
    have hhi := BitVec.toInt_lt (x := v)
    have hm0 : m ≠ 0 := by omega
    have hlt : m < 2 ^ 64 := by omega
    have hlog : Nat.log2 m < 64 := (Nat.log2_lt hm0).mpr hlt
    have hzeros : leadingZeros (word m) = 63 - Nat.log2 m := by
      unfold leadingZeros
      have hword : ¬ word m = 0 := fun h => hm0 ((word_eq_zero hlt).mp h)
      rw [if_neg hword, toNat_word hlt]
    have hneg : decide (v.toInt < 0) = v.msb := by
      rw [BitVec.msb_eq_toInt]
    rw [run_i64 h hv hm (Nat.pos_of_ne_zero hm0) hlt hzeros (by omega), hm,
      hneg]
    exact stored_extended

end

end F80

-- ================================================ the canonical encoding

namespace Extended

variable {n : Int}

/-- The normalised magnitude. -/
theorem ofInt_normal (h0 : n ≠ 0) (h : n.natAbs < 2 ^ 64) :
    63 - Nat.log2 n.natAbs < 64
      ∧ 2 ^ 63 ≤ n.natAbs * 2 ^ (63 - Nat.log2 n.natAbs)
      ∧ n.natAbs * 2 ^ (63 - Nat.log2 n.natAbs) < 2 ^ 64 := by
  obtain ⟨m, hm⟩ : ∃ m, n.natAbs = m := ⟨_, rfl⟩
  have hm0 : m ≠ 0 := by omega
  rw [hm] at h ⊢
  have hlo := Nat.log2_self_le hm0
  have hhi := Nat.lt_log2_self (n := m)
  have hlog : Nat.log2 m < 64 := (Nat.log2_lt hm0).mpr h
  generalize Nat.log2 m = l at *
  have hpow : 2 ^ 63 = 2 ^ l * 2 ^ (63 - l) := by
    rw [← Nat.pow_add, Nat.add_sub_cancel' (by omega)]
  have hpow' : 2 ^ 64 = 2 ^ (l + 1) * 2 ^ (63 - l) := by
    rw [← Nat.pow_add, show l + 1 + (63 - l) = 64 by omega]
  refine ⟨by omega, ?_, ?_⟩
  · rw [hpow]
    exact Nat.mul_le_mul_right _ hlo
  · rw [hpow']
    exact Nat.mul_lt_mul_of_pos_right hhi (Nat.two_pow_pos _)

/-- The exponent stays below that of the special values. -/
theorem ofInt_exponent (n : Int) : (ofInt n).exponent < 16447 := by
  unfold ofInt
  split_ifs
  · rw [extended_exponent (by decide)]
    decide
  · dsimp only
    rw [extended_exponent (by omega)]
    omega

theorem ofInt_supported (h : n.natAbs < 2 ^ 64) :
    (ofInt n).unsupported = false := by
  unfold ofInt
  split_ifs with h0
  · rfl
  · obtain ⟨_, hm, hlt⟩ := ofInt_normal h0 h
    unfold unsupported
    dsimp only
    rw [extended_m hlt, decide_eq_false (by omega), Bool.false_and]

theorem ofInt_value (h : n.natAbs < 2 ^ 64) : (ofInt n).value = n := by
  unfold ofInt
  split_ifs with h0
  · subst h0
    unfold value magnitude
    rw [extended_m (by decide), Nat.cast_zero, zero_mul]
    rfl
  · obtain ⟨hk, hm, hlt⟩ := ofInt_normal h0 h
    obtain ⟨k, hk'⟩ : ∃ k, 63 - Nat.log2 n.natAbs = k := ⟨_, rfl⟩
    dsimp only
    rw [hk'] at hk hm hlt ⊢
    have hexp : ((max (16446 - k) 1 : Nat) : Int) - 16446 = -(k : Int) := by
      omega
    unfold value magnitude
    rw [extended_m hlt, extended_exponent (by omega),
      extended_neg (by omega), hexp]
    have hcancel : Format.two (k : Int) * Format.two (-(k : Int)) = 1 := by
      rw [← Format.two_add, Int.add_right_neg]
      exact zpow_zero 2
    have hmag : ((n.natAbs * 2 ^ k : Nat) : Rat) * Format.two (-(k : Int))
        = (n.natAbs : Rat) := by
      rw [Nat.cast_mul, ← Format.two_nat, mul_assoc, hcancel, mul_one]
    rw [hmag]
    unfold Double.withSign
    by_cases hneg : n < 0
    · have habs : n = -(n.natAbs : Int) := by omega
      rw [if_pos (decide_eq_true hneg)]
      nth_rewrite 2 [habs]
      rw [Int.cast_neg, Int.cast_natCast]
    · have habs : n = (n.natAbs : Int) := by omega
      rw [if_neg (by simpa using hneg)]
      nth_rewrite 2 [habs]
      rw [Int.cast_natCast]

/-- An integer is stored as it is wherever it fits. -/
theorem storedInt_ofInt (w : Nat) (mode : Rounding)
    (h : n.natAbs < 2 ^ 64) :
    (ofInt n).storedInt w mode
      = if Double.Fits w n then BitVec.ofInt w n else Fist.indefinite w := by
  have hspecial : (ofInt n).exponent ≠ 0x7FFF := by
    have := ofInt_exponent n
    omega
  have hvalue := ofInt_value h
  have hsup := ofInt_supported h
  unfold storedInt isNaN isInf
  rw [hvalue, roundInt_intCast]
  by_cases hfits : Double.Fits w n
  · simp [hsup, hspecial, hfits]
  · simp [hfits]

end Extended

-- ======================================================= there and back

theorem Extended.load_store (x : Extended) (mem : Mem 64) (a : BitVec 64) :
    (x.store mem a).load a 8 = x.mant
      ∧ (x.store mem a).load (a + 8) 2 = x.se := by
  have hoff : ∀ i < 8, 2 ≤ Mem.offset (a + 8) (a + BitVec.ofNat 64 i) := by
    intro i hi
    unfold Mem.offset
    rw [BitVec.toNat_sub, BitVec.toNat_add, BitVec.toNat_add,
      BitVec.toNat_ofNat, Nat.mod_eq_of_lt (show i < 2 ^ 64 by omega)]
    have := a.isLt
    show 2 ≤ (2 ^ 64 - (a.toNat + 8) % 2 ^ 64 + (a.toNat + i) % 2 ^ 64)
      % 2 ^ 64
    omega
  unfold Extended.store
  rw [Mem.load_store_of_disjoint (k := 8) hoff,
    Mem.load_store_self (by decide), Mem.load_store_self (by decide)]
  exact ⟨rfl, rfl⟩

namespace F80

section
variable {c : Cpu} {Xslot Xint Xs Xe : Nat}

theorem slotOf_loaded (h : [31, Xslot, Xint, Xs, Xe].Nodup) :
    slotOf (run (emit_i64_to_f80_slot Xslot Xint Xs Xe) c) Xslot
      = Extended.ofInt (c.reg Xint).toInt := by
  simp only [List.nodup_cons, List.mem_cons, not_or] at h
  have hreg : (run (emit_i64_to_f80_slot Xslot Xint Xs Xe) c).reg Xslot
      = c.reg Xslot :=
    run_reg_of_ne (by
      simp [emit_i64_to_f80_slot, maskOp, Cpu.Op.dest, eq_comm, h])
  unfold slotOf
  rw [hreg, i64_to_slot_stores (by simp [h]),
    (Extended.load_store _ _ _).1, (Extended.load_store _ _ _).2]

/-- The load writes the canonical encoding of the integer, which is
normalised and exact, and leaves the flags alone. -/
theorem native_int_load_exact (h : [31, Xslot, Xint, Xs, Xe].Nodup)
    {x : Extended} (hx : x = Extended.ofInt (c.reg Xint).toInt) :
    (run (emit_i64_to_f80_slot Xslot Xint Xs Xe) c).mem
        = x.store c.mem (c.reg Xslot)
      ∧ (run (emit_i64_to_f80_slot Xslot Xint Xs Xe) c).flags = c.flags
      ∧ x.value = (c.reg Xint).toInt
      ∧ x.unsupported = false ∧ x.isNaN = false ∧ x.isInf = false
      ∧ (x.m < 2 ^ 63 → x = ⟨0, 0⟩) := by
  subst hx
  have hlo := BitVec.le_toInt (c.reg Xint)
  have hhi := BitVec.toInt_lt (x := c.reg Xint)
  have habs : (c.reg Xint).toInt.natAbs < 2 ^ 64 := by omega
  have hspecial : (Extended.ofInt (c.reg Xint).toInt).exponent
      ≠ 0x7FFF := by
    have := Extended.ofInt_exponent (c.reg Xint).toInt
    omega
  refine ⟨i64_to_slot_stores h, ?_, Extended.ofInt_value habs,
    Extended.ofInt_supported habs, ?_, ?_, ?_⟩
  · exact run_flags (by
      simp [emit_i64_to_f80_slot, maskOp, Cpu.Op.setsFlags])
  · simp [Extended.isNaN, hspecial]
  · simp [Extended.isInf, hspecial]
  · intro hm
    unfold Extended.ofInt at hm ⊢
    split_ifs at hm ⊢ with h0
    · rfl
    · obtain ⟨_, hge, hlt⟩ := Extended.ofInt_normal h0 habs
      dsimp only at hm
      rw [extended_m hlt] at hm
      omega

end

/-- An integer loaded into a slot comes back from a store of any width
that holds it, in every direction, whatever else was done in between. -/
theorem int_load_store {c c' : Cpu} {Xslot Xint Xs Xe Xbase Xslot' Xint' Xm
    Wx We : Nat} (h : [31, Xslot, Xint, Xs, Xe].Nodup)
    (h' : [31, Xbase, Xslot', Xint', Xm, Wx, We].Nodup)
    (hslot : slotOf c' Xslot'
      = slotOf (run (emit_i64_to_f80_slot Xslot Xint Xs Xe) c) Xslot)
    (round : NativeIntRound) (bits : IntBits)
    (hfits : Double.Fits bits.width (c.reg Xint).toInt) :
    ((run (emit_f80_slot_to_int Xbase Xslot' Xint' Xm Wx We round bits)
        c').reg Xint').setWidth bits.width
      = (c.reg Xint).setWidth bits.width := by
  have hlo := BitVec.le_toInt (c.reg Xint)
  have hhi := BitVec.toInt_lt (x := c.reg Xint)
  have hwidth : bits.width ≤ 64 := by cases bits <;> decide
  rw [slot_to_int_exact h', hslot, slotOf_loaded h,
    Extended.storedInt_ofInt _ _ (by omega), if_pos hfits,
    ← Word.setWidth_ofInt hwidth, BitVec.ofInt_toInt]

/-- A machine with an integer in its register 1; the other registers
point to 256. -/
def loadingInt (v : BitVec 64) : Cpu where
  x r := if r = 1 then v else 256
  sp := 0
  mem := fun _ => 0
  d _ := 0
  flags := ⟨false, false, false, false⟩
  flush := 0

/-- The smallest integer, whose magnitude no positive one has, is a power
of two. -/
theorem native_int_load_min :
    (run (emit_i64_to_f80_slot 2 1 3 4) (loadingInt (2 ^ 63))).mem
      = (⟨0x8000000000000000, 0xC03E⟩ : Extended).store (fun _ => 0)
        256 := by
  have h := (@native_int_load_exact (loadingInt (2 ^ 63)) 2 1 3 4
    (by decide) _ rfl).1
  have hx : Extended.ofInt ((loadingInt (2 ^ 63)).reg 1).toInt
      = ⟨0x8000000000000000, 0xC03E⟩ := by
    decide +kernel
  rw [h, hx]
  rfl

/-- It comes back from a 64-bit store. -/
theorem int_load_store_min :
    ((run (emit_f80_slot_to_int 0 2 1 3 4 5 .kControlWord .b64)
      (run (emit_i64_to_f80_slot 2 1 3 4) (loadingInt (2 ^ 63)))).reg
        1).setWidth 64 = (2 ^ 63 : BitVec 64).setWidth 64 :=
  @int_load_store (loadingInt (2 ^ 63)) _ 2 1 3 4 0 2 1 3 4 5 (by decide)
    (by decide) rfl .kControlWord .b64
    ⟨BitVec.le_toInt _, BitVec.toInt_lt⟩

end F80

end X87Sidecar
