/-
Machine words as the naturals they hold.

Every instruction on words `BitVec.ofNat 64 a` is an operation on the
numbers, as long as side conditions of linear arithmetic say that nothing
wraps, or that it does. Code on known ranges is followed by rewriting with
these and `omega`.
-/
import X87Sidecar.Lib.Cpu
import Mathlib.Tactic.Linarith

namespace X87Sidecar.Lib.Word

open Cpu

/-- The word that holds a number. -/
abbrev word (a : Nat) : BitVec 64 := BitVec.ofNat 64 a

theorem exists_word (v : BitVec 64) : ∃ a < 2 ^ 64, v = word a :=
  ⟨v.toNat, v.isLt, by simp⟩

section
variable {a b : Nat}

theorem toNat_word (h : a < 2 ^ 64) : (word a).toNat = a := by
  rw [BitVec.toNat_ofNat, Nat.mod_eq_of_lt h]

theorem word_congr (h : a = b) : word a = word b := by
  rw [h]

theorem narrow_word (h : a < 2 ^ 32) : Arm.narrow false (word a) = word a := by
  apply Arm.narrow_of_lt
  intro _
  rw [toNat_word (by omega)]
  exact h

/-- A sum that fits a W register. -/
theorem narrow_add (h : a + b < 2 ^ 32) :
    Arm.narrow false (word a + word b) = word (a + b) := by
  rw [← BitVec.ofNat_add, narrow_word h]

/-- A sum that wraps once in a W register. -/
theorem narrow_add_wrap (h : 2 ^ 32 ≤ a + b) (h' : a + b < 2 ^ 33) :
    Arm.narrow false (word a + word b) = word (a + b - 2 ^ 32) := by
  rw [← BitVec.ofNat_add]
  apply BitVec.eq_of_toNat_eq
  simp only [Arm.narrow, Bool.false_eq_true, if_false,
    BitVec.toNat_setWidth, BitVec.toNat_ofNat]
  omega

theorem narrow_sub (h : b ≤ a) (h' : a < 2 ^ 32) :
    Arm.narrow false (word a - word b) = word (a - b) := by
  apply BitVec.eq_of_toNat_eq
  simp only [Arm.narrow, Bool.false_eq_true, if_false,
    BitVec.toNat_setWidth, BitVec.toNat_sub, BitVec.toNat_ofNat]
  omega

/-- A negative difference in a W register. -/
theorem narrow_sub_neg (h : a < b) (h' : b ≤ 2 ^ 32) :
    Arm.narrow false (word a - word b) = word (a + (2 ^ 32 - b)) := by
  apply BitVec.eq_of_toNat_eq
  simp only [Arm.narrow, Bool.false_eq_true, if_false,
    BitVec.toNat_setWidth, BitVec.toNat_sub, BitVec.toNat_ofNat]
  omega

theorem add_word : word a + word b = word (a + b) :=
  (BitVec.ofNat_add a b).symm

theorem sub_word (h : b ≤ a) (h' : a < 2 ^ 64) :
    word a - word b = word (a - b) := by
  apply BitVec.eq_of_toNat_eq
  simp only [BitVec.toNat_sub, BitVec.toNat_ofNat]
  omega

/-- A negative difference. -/
theorem sub_word_neg (_ : a < b) (h' : b ≤ 2 ^ 64) :
    word a - word b = word (a + (2 ^ 64 - b)) := by
  apply BitVec.eq_of_toNat_eq
  simp only [BitVec.toNat_sub, BitVec.toNat_ofNat]
  omega

/-- A negated number in a W register. -/
theorem narrow_neg (h : 0 < a) (h' : a ≤ 2 ^ 32) :
    Arm.narrow false (-word a) = word (2 ^ 32 - a) := by
  have hsub := @narrow_sub_neg 0 a h h'
  rwa [BitVec.zero_sub, Nat.zero_add] at hsub

theorem neg_word (h : a ≤ 2 ^ 64) : -word a = word (2 ^ 64 - a) := by
  apply BitVec.eq_of_toNat_eq
  simp only [BitVec.toNat_neg, BitVec.toNat_ofNat]
  omega

theorem shl_word (n : Nat) : word a <<< n = word (a * 2 ^ n) := by
  apply BitVec.eq_of_toNat_eq
  rw [BitVec.toNat_shiftLeft, BitVec.toNat_ofNat, BitVec.toNat_ofNat,
    Nat.shiftLeft_eq, Nat.mod_mul_mod]

/-- What a shift keeps, moved to the top of a word. -/
theorem word_shifted {k : Nat} (hk : k ≤ 64) :
    word (a * 2 ^ (64 - k)) = word (a % 2 ^ k * 2 ^ (64 - k)) := by
  have hpow : 2 ^ 64 = 2 ^ k * 2 ^ (64 - k) := by
    rw [← Nat.pow_add, Nat.add_sub_cancel' hk]
  apply BitVec.eq_of_toNat_eq
  rw [BitVec.toNat_ofNat, BitVec.toNat_ofNat, hpow,
    Nat.mul_mod_mul_right, Nat.mul_mod_mul_right, Nat.mod_mod]

theorem shr_word (h : a < 2 ^ 64) (n : Nat) :
    word a >>> n = word (a / 2 ^ n) := by
  apply BitVec.eq_of_toNat_eq
  rw [BitVec.toNat_ushiftRight, toNat_word h, Nat.shiftRight_eq_div_pow,
    toNat_word (Nat.lt_of_le_of_lt (Nat.div_le_self _ _) h)]

/-- A field moved down to bit 0. -/
theorem ubfm_down {w immr imms : Nat} (h : immr ≤ imms)
    (hw : imms < 64) (ha : a < 2 ^ 64) :
    Arm.bitfieldEval w false immr imms (word a)
      = word (a / 2 ^ immr % 2 ^ (imms - immr + 1)) := by
  apply BitVec.eq_of_toNat_eq
  have hlt : a / 2 ^ immr % 2 ^ (imms - immr + 1) < 2 ^ 64 :=
    Nat.lt_of_lt_of_le (Nat.mod_lt _ (Nat.two_pow_pos _))
      (Nat.pow_le_pow_right (by decide) (by omega))
  unfold Arm.bitfieldEval
  rw [if_pos h, toNat_word hlt]
  simp only [Bool.false_eq_true, if_false, BitVec.toNat_setWidth]
  rw [BitVec.toNat_ushiftRight, toNat_word ha,
    Nat.shiftRight_eq_div_pow, Nat.mod_eq_of_lt hlt]

/-- A field moved up from bit 0. -/
theorem ubfm_up {w immr imms : Nat} (h : imms < immr) (ha : a < 2 ^ 64) :
    Arm.bitfieldEval w false immr imms (word a)
      = word (a % 2 ^ (imms + 1) * 2 ^ (w - immr)) := by
  have hlt : a % 2 ^ (imms + 1) < 2 ^ 64 :=
    Nat.lt_of_le_of_lt (Nat.mod_le _ _) ha
  unfold Arm.bitfieldEval
  rw [if_neg (by omega), ← shl_word]
  congr 1
  apply BitVec.eq_of_toNat_eq
  simp only [Bool.false_eq_true, if_false, BitVec.toNat_setWidth]
  rw [BitVec.toNat_ushiftRight, toNat_word ha, Nat.shiftRight_zero,
    toNat_word hlt, Nat.mod_eq_of_lt hlt]

/-- The low bits. -/
theorem and_ones (n : Nat) (hn : n ≤ 64) :
    word a &&& word (2 ^ n - 1) = word (a % 2 ^ n) := by
  apply BitVec.eq_of_toNat_eq
  have hlt : 2 ^ n - 1 < 2 ^ 64 := by
    have := Nat.pow_le_pow_right (show 0 < 2 by decide) hn
    have := Nat.two_pow_pos n
    omega
  rw [BitVec.toNat_and, toNat_word hlt, Nat.and_two_pow_sub_one_eq_mod,
    BitVec.toNat_ofNat, BitVec.toNat_ofNat,
    Nat.mod_mod_of_dvd _ (pow_dvd_pow 2 hn)]
  exact (Nat.mod_eq_of_lt (Nat.lt_of_lt_of_le
    (Nat.mod_lt _ (Nat.two_pow_pos n))
    (Nat.pow_le_pow_right (by decide) hn))).symm

/-- Two numbers on different bits. -/
theorem or_high (n : Nat) (h : a < 2 ^ n) :
    word a ||| word (b * 2 ^ n) = word (a + b * 2 ^ n) := by
  have hor : a ||| b * 2 ^ n = a + b * 2 ^ n := by
    rw [Nat.or_comm, Nat.mul_comm b, Nat.add_comm]
    exact (Nat.two_pow_add_eq_or_of_lt h b).symm
  apply BitVec.eq_of_toNat_eq
  rw [BitVec.toNat_or, BitVec.toNat_ofNat, BitVec.toNat_ofNat,
    BitVec.toNat_ofNat, ← Nat.or_mod_two_pow, hor]

theorem or_low (n : Nat) (h : a < 2 ^ n) :
    word (b * 2 ^ n) ||| word a = word (a + b * 2 ^ n) := by
  rw [BitVec.or_comm, or_high n h]

theorem or_word : word a ||| word b = word (a ||| b) := by
  apply BitVec.eq_of_toNat_eq
  rw [BitVec.toNat_or, BitVec.toNat_ofNat, BitVec.toNat_ofNat,
    BitVec.toNat_ofNat, ← Nat.or_mod_two_pow]

theorem word_eq_zero (h : a < 2 ^ 64) : word a = 0#64 ↔ a = 0 := by
  rw [← BitVec.toNat_inj, toNat_word h]
  exact Iff.rfl

/-- A bit above a number. -/
theorem bit_of_lt {i : Nat} (h : a < 2 ^ i) :
    (word a).getLsbD i = false := by
  rw [BitVec.getLsbD, BitVec.toNat_ofNat]
  exact Nat.testBit_lt_two_pow (Nat.lt_of_le_of_lt (Nat.mod_le _ _) h)

theorem getLsbD_word (h : a < 2 ^ 64) (i : Nat) :
    (word a).getLsbD i = decide (a / 2 ^ i % 2 = 1) := by
  rw [BitVec.getLsbD, toNat_word h, Nat.testBit_eq_decide_div_mod_eq]

/-- The highest bit of a number. -/
theorem bit_of_ge {i : Nat} (h : 2 ^ i ≤ a) (h' : a < 2 ^ (i + 1))
    (hi : i < 64) : (word a).getLsbD i = true := by
  have ha : a < 2 ^ 64 := Nat.lt_of_lt_of_le h'
    (Nat.pow_le_pow_right (by decide) hi)
  have hdiv : a / 2 ^ i = 1 := by
    rw [pow_succ] at h'
    exact Nat.div_eq_of_lt_le (by omega) (by omega)
  rw [getLsbD_word ha, hdiv]
  rfl

/-- A field put above the bits of a number. -/
theorem bfm_up {immr imms : Nat} (h : imms < immr)
    (hb : b < 2 ^ (64 - immr)) (ha : a < 2 ^ (imms + 1)) :
    bfmEval 64 immr imms (word a) (word b)
      = word (b + a * 2 ^ (64 - immr)) := by
  have hkeep : ∀ i, i < 64 →
      (word (2 ^ (imms + 1) - 1) <<< (64 - immr)).getLsbD i
        = decide (64 - immr ≤ i ∧ i - (64 - immr) < imms + 1) := by
    intro i hi
    rw [BitVec.getLsbD_shiftLeft, BitVec.getLsbD_ofNat,
      Nat.testBit_two_pow_sub_one]
    simp only [hi, decide_true, Bool.true_and]
    rw [Bool.eq_iff_iff]
    simp
    omega
  unfold bfmEval
  dsimp only
  rw [if_neg (by omega), ← or_high _ hb, ← shl_word]
  apply BitVec.eq_of_getLsbD_eq
  intro i hi
  rw [BitVec.getLsbD_or, BitVec.getLsbD_or, BitVec.getLsbD_and,
    BitVec.getLsbD_and, BitVec.getLsbD_not, hkeep i hi]
  rcases Nat.lt_or_ge i (64 - immr) with hlow | hhigh
  · -- below the field
    simp [hi, Nat.not_le_of_lt hlow]
  · have hzero : (word b).getLsbD i = false :=
      bit_of_lt (Nat.lt_of_lt_of_le hb
        (Nat.pow_le_pow_right (by decide) hhigh))
    rw [hzero, BitVec.getLsbD_shiftLeft]
    rcases Nat.lt_or_ge (i - (64 - immr)) (imms + 1) with hin | hout
    · simp [hhigh, hin]
    · rw [bit_of_lt (Nat.lt_of_lt_of_le ha
        (Nat.pow_le_pow_right (by decide) hout))]
      simp

/-- The lowest bit of a number put into an even one. -/
theorem bfm_bit (hb : b * 2 < 2 ^ 64) :
    bfmEval 64 0 0 (word a) (word (b * 2)) = word (b * 2 + a % 2) := by
  have hand : word a &&& 1#64 = word (a % 2) := and_ones 1 (by decide)
  have hlow : word (b * 2) &&& ~~~1#64 = word (b * 2) := by
    apply BitVec.eq_of_getLsbD_eq
    intro i hi
    rw [BitVec.getLsbD_and, BitVec.getLsbD_not]
    rcases i with _ | i
    · rw [getLsbD_word hb]
      simp
    · have hone : (1#64).getLsbD (i + 1) = false :=
        @bit_of_lt 1 _ (Nat.one_lt_two_pow (Nat.succ_ne_zero i))
      rw [hone]
      simp [hi]
  unfold bfmEval
  dsimp only
  rw [if_pos (Nat.le_refl _), BitVec.ushiftRight_zero]
  show word (b * 2) &&& ~~~1#64 ||| word a &&& 1#64 = _
  rw [hand, hlow, show b * 2 = b * 2 ^ 1 from rfl,
    or_low 1 (show a % 2 < 2 ^ 1 from Nat.mod_lt _ (by decide)),
    Nat.add_comm]

/-- A number that wraps once in a W register. -/
theorem narrow_word_wrap (h : 2 ^ 32 ≤ a) (h' : a < 2 ^ 33) :
    Arm.narrow false (word a) = word (a - 2 ^ 32) := by
  have hadd := @narrow_add_wrap a 0 (by omega) (by omega)
  rwa [add_word, Nat.add_zero] at hadd

-- =============================================================== flags

/-- A comparison of W registers. -/
theorem zero_cmpW (ha : a < 2 ^ 32) (hb : b < 2 ^ 32) :
    (addSubFlags false true (word a) (word b)).z = decide (a = b) := by
  have hz : Arm.narrow false (word a - word b) = 0#64 ↔ a = b := by
    rcases Nat.lt_or_ge a b with h | h
    · rw [narrow_sub_neg h (by omega), word_eq_zero (by omega)]
      omega
    · rw [narrow_sub h ha, word_eq_zero (by omega)]
      omega
  simp only [addSubFlags, addSub_true, narrow_word ha, narrow_word hb]
  exact decide_eq_decide.mpr hz

theorem carry_cmpW (ha : a < 2 ^ 32) (hb : b < 2 ^ 32) :
    (addSubFlags false true (word a) (word b)).c = decide (b ≤ a) := by
  simp only [addSubFlags, narrow_word ha, narrow_word hb, if_true]
  rw [toNat_word (by omega), toNat_word (by omega)]

/-- A comparison of X registers. -/
theorem zero_cmpX (ha : a < 2 ^ 64) (hb : b < 2 ^ 64) :
    (addSubFlags true true (word a) (word b)).z = decide (a = b) := by
  have hz : word a - word b = 0#64 ↔ a = b := by
    rcases Nat.lt_or_ge a b with h | h
    · rw [sub_word_neg h (by omega), word_eq_zero (by omega)]
      omega
    · rw [sub_word h ha, word_eq_zero (by omega)]
      omega
  simp only [addSubFlags, addSub_true, narrow_true]
  exact decide_eq_decide.mpr hz

theorem carry_cmpX (ha : a < 2 ^ 64) (hb : b < 2 ^ 64) :
    (addSubFlags true true (word a) (word b)).c = decide (b ≤ a) := by
  have h : (word b).toNat ≤ (word a).toNat ↔ b ≤ a := by
    rw [toNat_word ha, toNat_word hb]
  exact decide_eq_decide.mpr h

/-- The carry of a sum of X registers. -/
theorem carry_adds (ha : a < 2 ^ 64) (hb : b < 2 ^ 64) :
    (addSubFlags true false (word a) (word b)).c
      = decide (2 ^ 64 ≤ a + b) := by
  simp only [addSubFlags, narrow_true, Bool.false_eq_true, if_false,
    toNat_word ha, toNat_word hb, width_true]

end

end X87Sidecar.Lib.Word
