/-
Operations on binary64 patterns, in the default modes: multiplication,
rounding to an integral value and conversion from an integer.

A pattern is its sign and its magnitude (`ofParts`). What the operations
do to magnitudes is the nearest pattern of an exact result; a factor that
is a power of two scales (`mul_power`).
-/
import X87Sidecar.Lib.Double
import X87Sidecar.Lib.Scale

namespace X87Sidecar.Lib.Double

-- ================================================= sign and magnitude

/-- The pattern of a sign and a magnitude. -/
def ofParts (neg : Bool) (p : Nat) : BitVec 64 :=
  BitVec.ofNat 64 (neg.toNat * 2 ^ 63 + p)

/-- A zero. -/
def isZero (b : BitVec 64) : Bool := magnitude b = 0

section
variable {neg : Bool} {p : Nat}

theorem toNat_ofParts (h : p < 2 ^ 63) :
    (ofParts neg p).toNat = neg.toNat * 2 ^ 63 + p := by
  unfold ofParts
  rw [BitVec.toNat_ofNat, Nat.mod_eq_of_lt]
  have hneg : neg.toNat ≤ 1 := Bool.toNat_le neg
  omega

@[simp] theorem magnitude_ofParts (h : p < 2 ^ 63) :
    magnitude (ofParts neg p) = p := by
  unfold magnitude
  rw [toNat_ofParts h, Nat.mul_comm, Nat.mul_add_mod,
    Nat.mod_eq_of_lt h]

@[simp] theorem msb_ofParts (h : p < 2 ^ 63) :
    (ofParts neg p).msb = neg := by
  rw [BitVec.msb_eq_decide, toNat_ofParts h]
  cases neg with
  | false => simpa using h
  | true => simp

end

theorem magnitude_lt (b : BitVec 64) : magnitude b < 2 ^ 63 :=
  Nat.mod_lt _ (by decide)

/-- A pattern from its parts. -/
@[simp] theorem ofParts_self (b : BitVec 64) :
    ofParts b.msb (magnitude b) = b := by
  apply BitVec.eq_of_toNat_eq
  rw [toNat_ofParts (magnitude_lt b), BitVec.msb_eq_decide]
  have hlt := b.isLt
  unfold magnitude
  by_cases h : 2 ^ (64 - 1) ≤ b.toNat
  · rw [decide_eq_true h, Bool.toNat_true]
    omega
  · rw [decide_eq_false h, Bool.toNat_false]
    omega

theorem isNaN_ofParts {neg : Bool} {p : Nat} (h : p ≤ binary64.inf) :
    isNaN (ofParts neg p) = false := by
  unfold isNaN
  rw [magnitude_ofParts (Nat.lt_of_le_of_lt h (by decide))]
  exact decide_eq_false (Nat.not_lt.mpr h)

theorem magnitude_le {b : BitVec 64} (h : isNaN b = false) :
    magnitude b ≤ binary64.inf :=
  Nat.not_lt.mp (of_decide_eq_false h)

-- ========================================================= operations

/-- Not a number, and its first fraction bit clear. -/
def isSignaling (b : BitVec 64) : Bool := isNaN b && !b.getLsbD 51

/-- The same, with that bit set. -/
def quiet (b : BitVec 64) : BitVec 64 := b ||| 0x0008000000000000

/-- What an invalid operation gives. -/
def defaultNaN : BitVec 64 := 0x7FF8000000000000

/-- Which operand an operation hands on when one is not a number. -/
def handOn (a b : BitVec 64) : BitVec 64 :=
  if isSignaling a then quiet a
  else if isSignaling b then quiet b
  else if isNaN a then a
  else b

/-- The product. -/
def mul (a b : BitVec 64) : BitVec 64 :=
  let neg := a.msb != b.msb
  if isNaN a || isNaN b then handOn a b
  else if isInf a && isZero b || isZero a && isInf b then defaultNaN
  else if isInf a || isInf b then ofParts neg binary64.inf
  else ofParts neg (binary64.pattern
    (binary64.sig (magnitude a) * binary64.sig (magnitude b))
    (binary64.exp (magnitude a) + binary64.exp (magnitude b)))

/-- Rounded to an integral value; zeros keep the sign. -/
def roundIntegral (mode : Rounding) (b : BitVec 64) : BitVec 64 :=
  if isNaN b then quiet b
  else if isInf b then b
  else ofParts b.msb
    (binary64.pattern (roundInt mode (value b)).natAbs 0)

/-- The nearest to a signed integer. -/
def ofSigned (v : BitVec 64) : BitVec 64 :=
  ofParts v.msb (binary64.pattern v.toInt.natAbs 0)

/-- Without the sign. -/
def abs (b : BitVec 64) : BitVec 64 := ofParts false (magnitude b)

-- ================================================== what is not a number

theorem magnitude_quiet (b : BitVec 64) :
    magnitude b ≤ magnitude (quiet b) := by
  have hor : b.toNat % 2 ^ 63 ||| 2 ^ 51
      = magnitude (quiet b) := by
    unfold magnitude quiet
    rw [BitVec.toNat_or, Nat.or_mod_two_pow]
    rfl
  rw [← hor]
  exact Nat.left_le_or

theorem isNaN_quiet {b : BitVec 64} (h : isNaN b = true) :
    isNaN (quiet b) = true :=
  decide_eq_true (Nat.lt_of_lt_of_le (of_decide_eq_true h)
    (magnitude_quiet b))

theorem isNaN_handOn {a b : BitVec 64}
    (h : (isNaN a || isNaN b) = true) : isNaN (handOn a b) = true := by
  have hsig : ∀ {v}, isSignaling v = true → isNaN v = true := by
    intro v hv
    exact (Bool.and_eq_true_iff.mp hv).1
  unfold handOn
  split
  · exact isNaN_quiet (hsig ‹_›)
  split
  · exact isNaN_quiet (hsig ‹_›)
  split
  · assumption
  · rename_i hnot
    rcases Bool.or_eq_true_iff.mp h with ha | hb
    · exact absurd ha hnot
    · exact hb

/-- A product with what is not a number is none. -/
theorem isNaN_mul {a : BitVec 64} (h : isNaN a = true) (b : BitVec 64) :
    isNaN (mul a b) = true := by
  have hor : (isNaN a || isNaN b) = true := by rw [h, Bool.true_or]
  unfold mul
  dsimp only
  rw [if_pos hor]
  exact isNaN_handOn hor

-- ==================================================== powers of two

/-- The power of two with an exponent in the normal range. -/
def power (j : Int) : BitVec 64 :=
  ofParts false ((1023 + j).toNat * 2 ^ 52)

/-- A magnitude scaled: infinity stays. -/
def grow (p : Nat) (j : Int) : Nat :=
  if p = binary64.inf then binary64.inf else binary64.scale p j

section
variable {p : Nat} {i j : Int}

theorem grow_le : grow p j ≤ binary64.inf := by
  unfold grow
  split
  · exact Nat.le_refl _
  · exact Format.scale_le

theorem grow_inf : grow binary64.inf j = binary64.inf := if_pos rfl

theorem inf_lt : binary64.inf < 2 ^ 63 := by decide

theorem grow_of_lt (h : p < binary64.inf) :
    grow p j = binary64.scale p j := if_neg h.ne

/-- Products of equal value have one pattern. -/
theorem pattern_congr {f : Format} {m n : Nat}
    (h : (m : Rat) * Format.two i = n * Format.two j) :
    f.pattern m i = f.pattern n j := by
  have hm := f.isNearest_pattern m i
  rw [h] at hm
  exact hm.unique (f.isNearest_pattern n j)

/-- Multiplying by a power of two scales. -/
theorem mul_power {neg : Bool} (hp : p ≤ binary64.inf)
    (hlo : -1022 ≤ j) (hhi : j ≤ 1023) :
    mul (ofParts neg p) (power j) = ofParts neg (grow p j) := by
  have hplt : p < 2 ^ 63 := Nat.lt_of_le_of_lt hp inf_lt
  obtain ⟨n, hn⟩ : ∃ n : Nat, (1023 + j).toNat = n := ⟨_, rfl⟩
  have hrange : 1 ≤ n ∧ n ≤ 2046 := by omega
  have hqinf : n * 2 ^ 52 < binary64.inf := by
    have : (2047 : Nat) * 2 ^ 52 = binary64.inf := rfl
    omega
  have hqlt : n * 2 ^ 52 < 2 ^ 63 := Nat.lt_trans hqinf inf_lt
  have hpow : power j = ofParts false (n * 2 ^ 52) := by
    unfold power
    rw [hn]
  have hnan : (isNaN (ofParts neg p) || isNaN (power j)) = false := by
    rw [hpow, isNaN_ofParts hp, isNaN_ofParts hqinf.le]
    rfl
  have hmag : magnitude (power j) = n * 2 ^ 52 := by
    rw [hpow, magnitude_ofParts hqlt]
  have hinf : isInf (power j) = false := by
    unfold isInf
    rw [hmag]
    exact decide_eq_false hqinf.ne
  have hzero : isZero (power j) = false := by
    unfold isZero
    rw [hmag]
    exact decide_eq_false (by omega)
  have hsign : ((ofParts neg p).msb != (power j).msb) = neg := by
    rw [hpow, msb_ofParts hplt, msb_ofParts hqlt, Bool.bne_false]
  unfold mul
  dsimp only
  rw [hnan, hinf, hzero, hsign, hmag, magnitude_ofParts hplt]
  simp only [Bool.false_eq_true, if_false, Bool.and_false, Bool.or_false]
  unfold isInf grow
  rw [magnitude_ofParts hplt]
  by_cases h : p = binary64.inf
  · simp [h]
  · rw [if_neg h, if_neg (by simpa using h)]
    congr 1
    unfold Format.scale
    apply pattern_congr
    have hge : ¬ n * 2 ^ 52 < 2 ^ binary64.t := by
      show ¬ n * 2 ^ 52 < 2 ^ 52
      omega
    have hsig : binary64.sig (n * 2 ^ 52) = 2 ^ 52 := by
      have heq : binary64.sig (n * 2 ^ 52)
          = 2 ^ 52 + n * 2 ^ 52 % 2 ^ 52 := if_neg hge
      rw [heq, Nat.mul_mod_left, Nat.add_zero]
    have hexp : binary64.exp (n * 2 ^ 52) = j - 52 := by
      have heq : binary64.exp (n * 2 ^ 52)
          = ((n * 2 ^ 52 / 2 ^ 52 : Nat) : Int) - 1 + -1074 := if_neg hge
      rw [heq, Nat.mul_div_cancel _ (by decide)]
      omega
    rw [hsig, hexp,
      show binary64.exp p + (j - 52)
        = -(52 : Int) + (binary64.exp p + j) by ring,
      Format.two_add, Nat.cast_mul, mul_assoc, ← mul_assoc _ (2 ^ (-52 : Int))]
    have hone : (((2 ^ 52 : Nat) : Rat)) * 2 ^ (-(52 : Int)) = 1 := by
      norm_num
    rw [hone, one_mul]

-- ====================================== one scaling after the other

theorem grow_zero (h : p ≤ binary64.inf) : grow p 0 = p := by
  unfold grow
  split
  · exact Eq.symm ‹_›
  · apply Format.scale_eq h
    rw [Format.two_zero, mul_one]

/-- Up and up again. -/
theorem grow_up (hi : 0 ≤ i) (hj : 0 ≤ j) :
    grow (grow p i) j = grow p (i + j) := by
  unfold grow
  by_cases h : p = binary64.inf
  · simp [h]
  · rw [if_neg h, if_neg h, ← Format.scale_scale_up hi hj]
    by_cases hinf : binary64.scale p i = binary64.inf
    · rw [if_pos hinf, hinf, Format.scale_inf]
      have hone : 1 ≤ Format.two j := by
        rw [← Format.two_zero]
        exact Format.two_mono hj
      exact le_mul_of_one_le_right (binary64.val_nonneg _) hone
    · rw [if_neg hinf]

/-- Down, and then by as many places as there are. -/
theorem grow_down (hp : p ≤ binary64.inf) (hj : 0 ≤ j) (hi : i ≤ -53) :
    grow (grow p (-j)) i = grow p (i - j) := by
  by_cases h : p = binary64.inf
  · simp [h, grow_inf]
  have hlt : p < binary64.inf := Nat.lt_of_le_of_ne hp h
  have hdown : binary64.scale p (-j) ≤ p := by
    refine (binary64.isNearest_scale p (-j)).mono
      (Format.isNearest_val hp) ?_
    have hone : Format.two (-j) ≤ 1 := by
      rw [← Format.two_zero]
      exact Format.two_mono (by omega)
    exact mul_le_of_le_one_right (binary64.val_nonneg p) hone
  rw [grow_of_lt hlt, grow_of_lt hlt,
    grow_of_lt (Nat.lt_of_le_of_lt hdown hlt)]
  exact Format.scale_scale_down hp hj hi

theorem grow_of_zero : grow 0 j = 0 := by
  have h : (0 : Nat) < binary64.inf := by decide
  rw [grow_of_lt h]
  apply Format.scale_eq (Nat.zero_le _)
  rw [Format.val_zero, zero_mul]

/-- What infinity's pattern would be as a number. -/
theorem val_inf : binary64.val binary64.inf = Format.two (1024 : Nat) := by
  have h := val_two_pow 1024
  rw [show (1022 + 1024) * 2 ^ 52 + 2 ^ 52 = binary64.inf from rfl] at h
  rw [h, Format.two_nat, Nat.cast_pow, Nat.cast_ofNat]

/-- Far enough up, everything but zero is infinite. -/
theorem grow_far_up (h : p ≠ 0) (hj : 2098 ≤ j) :
    grow p j = binary64.inf := by
  unfold grow
  split
  · rfl
  · apply Format.scale_inf
    have hone : binary64.val 1 ≤ binary64.val p :=
      binary64.val_strictMono.monotone (Nat.one_le_iff_ne_zero.mpr h)
    have hval : binary64.val 1 = Format.two (-1074) := by
      show (if (1 : Nat) < 2 ^ 52 then ((1 : Nat) : Rat) * _ else _) = _
      rw [if_pos (by decide), Nat.cast_one, one_mul]
      rfl
    calc binary64.val binary64.inf
        = Format.two (-1074) * Format.two 2098 := by
          rw [val_inf, ← Format.two_add]
          rfl
      _ ≤ binary64.val p * Format.two j := by
          rw [← hval]
          exact mul_le_mul hone (Format.two_mono hj)
            (Format.two_pos _).le (binary64.val_nonneg p)

/-- Far enough down, everything but infinity is zero. -/
theorem grow_far_down (h : p < binary64.inf) (hj : j ≤ -2099) :
    grow p j = 0 := by
  rw [grow_of_lt h]
  apply Format.scale_zero
  calc binary64.val p * Format.two j
      ≤ Format.two (1024 : Nat) * Format.two (-2099) := by
        rw [← val_inf]
        exact mul_le_mul (binary64.val_strictMono.monotone h.le)
          (Format.two_mono hj) (Format.two_pos _).le
          (binary64.val_nonneg _)
    _ = Format.two (binary64.emin - 1) := by
        rw [← Format.two_add]
        rfl

end

end X87Sidecar.Lib.Double
