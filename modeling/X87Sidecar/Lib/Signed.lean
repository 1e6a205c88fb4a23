/-
W registers as the signed numbers they hold.

`word32 k` is the register that holds `k`. Immediates are added and
subtracted as numbers, and what a comparison of `k` leaves in the flags
are the signed conditions on `k`, whether or not the difference wraps.
-/
import X87Sidecar.Lib.Word

namespace X87Sidecar.Lib.Word

open Cpu

/-- The low bits of an integer. -/
theorem setWidth_ofInt {v w : Nat} (h : w ≤ v) (n : Int) :
    (BitVec.ofInt v n).setWidth w = BitVec.ofInt w n := by
  apply BitVec.eq_of_toInt_eq
  rw [BitVec.toInt_setWidth, BitVec.toInt_ofInt, BitVec.toNat_ofInt,
    Int.toNat_of_nonneg (Int.emod_nonneg n (by positivity)),
    ← Int.emod_bmod, Int.emod_emod_of_dvd, Int.emod_bmod]
  exact_mod_cast pow_dvd_pow 2 h

/-- The W register that holds a signed number. -/
def word32 (k : Int) : BitVec 64 := (BitVec.ofInt 32 k).setWidth 64

section
variable {k : Int} {n : Nat}

theorem word32_nat (h : n < 2 ^ 32) : word32 n = word n := by
  apply BitVec.eq_of_toNat_eq
  simp only [word32, BitVec.ofInt_natCast, BitVec.toNat_setWidth,
    BitVec.toNat_ofNat]
  omega

/-- From zero on, the number. -/
theorem word32_of_nonneg (h : 0 ≤ k) (h' : k < 2 ^ 32) :
    word32 k = word k.toNat := by
  obtain ⟨n, rfl⟩ := Int.eq_ofNat_of_zero_le h
  exact word32_nat (by omega)

/-- Below zero, its complement. -/
theorem word32_of_neg (h : k < 0) (h' : -2 ^ 32 ≤ k) :
    word32 k = word (2 ^ 32 - (-k).toNat) := by
  have hadd : BitVec.ofInt 32 k = BitVec.ofInt 32 (2 ^ 32 + k) := by
    apply BitVec.eq_of_toInt_eq
    rw [BitVec.toInt_ofInt, BitVec.toInt_ofInt, Int.add_comm]
    exact (Int.add_bmod_right k (2 ^ 32)).symm
  unfold word32
  rw [hadd]
  have hsum : 2 ^ 32 + k = ((2 ^ 32 - (-k).toNat : Nat) : Int) := by
    omega
  rw [hsum]
  exact word32_nat (by omega)

theorem narrow_word32 : Arm.narrow false (word32 k) = word32 k := by
  apply Arm.narrow_of_lt
  intro _
  unfold word32
  rw [BitVec.toNat_setWidth]
  have := (BitVec.ofInt 32 k).isLt
  omega

/-- The low half of an integer. -/
theorem narrow_ofInt :
    Arm.narrow false (BitVec.ofInt 64 k) = word32 k := by
  show ((BitVec.ofInt 64 k).setWidth 32).setWidth 64 = _
  rw [setWidth_ofInt (by decide)]
  rfl

private theorem setWidth_word32 :
    (word32 k).setWidth 32 = BitVec.ofInt 32 k := by
  unfold word32
  rw [BitVec.setWidth_setWidth_of_le _ (by decide), BitVec.setWidth_eq]

private theorem setWidth_word :
    (word n).setWidth 32 = BitVec.ofInt 32 n := by
  rw [BitVec.ofInt_natCast, BitVec.setWidth_ofNat_of_le (by decide)]

/-- An immediate added. -/
theorem narrow_word32_add :
    Arm.narrow false (word32 k + word n) = word32 (k + n) := by
  show ((word32 k + word n).setWidth 32).setWidth 64 = _
  rw [BitVec.setWidth_add _ _ (by decide), setWidth_word32,
    setWidth_word, ← BitVec.ofInt_add]
  rfl

/-- An immediate subtracted. -/
theorem narrow_word32_sub :
    Arm.narrow false (word32 k - word n) = word32 (k - n) := by
  show ((word32 k - word n).setWidth 32).setWidth 64 = _
  rw [BitVec.sub_eq_add_neg, BitVec.setWidth_add _ _ (by decide),
    BitVec.setWidth_neg_of_le (by decide), setWidth_word32,
    setWidth_word, ← BitVec.ofInt_neg, ← BitVec.ofInt_add,
    ← Int.sub_eq_add_neg]
  rfl

/-- The sign of a W register. -/
theorem sign_word {a : Nat} (h : a < 2 ^ 32) :
    (word a).getLsbD 31 = decide (2 ^ 31 ≤ a) := by
  rw [getLsbD_word (by omega)]
  exact decide_eq_decide.mpr (by omega)

/-- What a comparison with an immediate leaves in the flags. -/
theorem gt_cmpW_word {a r : Nat} (ha : a < 2 ^ 32) (hn : n < 2 ^ 31)
    (hr : Arm.narrow false (word a - word n) = word r) (hr' : r < 2 ^ 32) :
    Cond.gt.eval (addSubFlags false true (word a) (word n))
      = decide
          (r ≠ 0 ∧ (2 ^ 31 ≤ r ↔ 2 ^ 31 ≤ a ∧ r < 2 ^ 31)) := by
  have hzero : decide (word r = 0#64) = decide (r = 0) :=
    decide_eq_decide.mpr (word_eq_zero (by omega))
  simp only [Cond.eval, addSubFlags, addSub_true, width_false, if_true,
    narrow_word ha, narrow_word (show n < 2 ^ 32 by omega), hr]
  show (!decide (word r = 0#64) && _) = _
  rw [show 32 - 1 = 31 from rfl, sign_word ha, sign_word hr',
    sign_word (show n < 2 ^ 32 by omega), hzero,
    decide_eq_false (show ¬ 2 ^ 31 ≤ n by omega)]
  rw [Bool.eq_iff_iff]
  simp only [Bool.and_eq_true, Bool.not_eq_true', decide_eq_true_eq,
    decide_eq_false_iff_not, beq_iff_eq, Bool.bne_false]
  rw [Bool.eq_iff_iff]
  simp only [Bool.and_eq_true, decide_eq_true_eq, bne_iff_ne, ne_eq,
    decide_eq_decide]
  omega

/-- Greater, after a comparison with an immediate. -/
theorem gt_cmpW (h : -2 ^ 31 ≤ k) (h' : k < 2 ^ 31) (hn : n < 2 ^ 31) :
    Cond.gt.eval (addSubFlags false true (word32 k) (word n))
      = decide ((n : Int) < k) := by
  rcases Int.lt_or_le k 0 with hneg | hpos
  · rw [word32_of_neg hneg (by omega),
      gt_cmpW_word (by omega) hn (narrow_sub (by omega) (by omega))
        (by omega)]
    exact decide_eq_decide.mpr (by omega)
  · rw [word32_of_nonneg hpos (by omega)]
    rcases Nat.lt_or_ge k.toNat n with hlt | hge
    · rw [gt_cmpW_word (by omega) hn (narrow_sub_neg hlt (by omega))
        (by omega)]
      exact decide_eq_decide.mpr (by omega)
    · rw [gt_cmpW_word (by omega) hn (narrow_sub hge (by omega))
        (by omega)]
      exact decide_eq_decide.mpr (by omega)

/-- What adding an immediate leaves in the flags. -/
theorem lt_cmnW_word {a r : Nat} (ha : a < 2 ^ 32) (hn : n < 2 ^ 31)
    (hr : Arm.narrow false (word a + word n) = word r) (hr' : r < 2 ^ 32) :
    Cond.lt.eval (addSubFlags false false (word a) (word n))
      = decide (¬(2 ^ 31 ≤ r ↔ a < 2 ^ 31 ∧ 2 ^ 31 ≤ r)) := by
  simp only [Cond.eval, addSubFlags, addSub_false, width_false,
    Bool.false_eq_true, if_false, narrow_word ha,
    narrow_word (show n < 2 ^ 32 by omega), hr]
  rw [show 32 - 1 = 31 from rfl, sign_word ha, sign_word hr',
    sign_word (show n < 2 ^ 32 by omega),
    decide_eq_false (show ¬ 2 ^ 31 ≤ n by omega), Bool.eq_iff_iff]
  simp only [bne_iff_ne, ne_eq, decide_eq_true_eq]
  rw [Bool.eq_iff_iff]
  simp only [Bool.and_eq_true, decide_eq_true_eq, bne_iff_ne, ne_eq,
    decide_eq_decide, beq_iff_eq, decide_eq_false_iff_not]
  omega

/-- Less than a negative immediate, after a comparison with it. -/
theorem lt_cmnW (h : -2 ^ 31 ≤ k) (h' : k < 2 ^ 31) (hn : n < 2 ^ 31) :
    Cond.lt.eval (addSubFlags false false (word32 k) (word n))
      = decide (k + n < 0) := by
  rcases Int.lt_or_le k 0 with hneg | hpos
  · rw [word32_of_neg hneg (by omega)]
    rcases Int.lt_or_le (k + n) 0 with hlt | hge
    · rw [lt_cmnW_word (by omega) hn (narrow_add (by omega)) (by omega)]
      exact decide_eq_decide.mpr (by omega)
    · rw [lt_cmnW_word (by omega) hn
        (narrow_add_wrap (by omega) (by omega)) (by omega)]
      exact decide_eq_decide.mpr (by omega)
  · rw [word32_of_nonneg hpos (by omega),
      lt_cmnW_word (by omega) hn (narrow_add (by omega)) (by omega)]
    exact decide_eq_decide.mpr (by omega)

end

end X87Sidecar.Lib.Word
