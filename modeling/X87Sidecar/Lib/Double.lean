/-
Binary64 patterns: what they denote, and what becomes of them when a
machine converts them to a signed integer.

The sign is bit 63 and the magnitude the 63 bits below it, a pattern of
the format (`binary64`). The pattern of infinity has a value there as well,
that of the next power of two, and a conversion saturates it like any
other number out of range.
-/
import X87Sidecar.Lib.Round

namespace X87Sidecar.Lib

/-- IEEE 754 binary64, without the sign. -/
def binary64 : Format where
  t := 52
  emin := -1074
  inf := 0x7FF0000000000000
  t_pos := by decide
  inf_dvd := by decide
  inf_pos := by decide

/-- IEEE 754 binary32, without the sign. -/
def binary32 : Format where
  t := 23
  emin := -149
  inf := 0x7F800000
  t_pos := by decide
  inf_dvd := by decide
  inf_pos := by decide

namespace Double

/-- The pattern without its sign. -/
def magnitude (b : BitVec 64) : Nat := b.toNat % 2 ^ 63

/-- Not a number: all exponent bits set, and some below. -/
def isNaN (b : BitVec 64) : Bool := binary64.inf < magnitude b

/-- An infinity. -/
def isInf (b : BitVec 64) : Bool := magnitude b = binary64.inf

/-- A value with a sign. -/
def withSign (neg : Bool) (x : Rat) : Rat := if neg then -x else x

/-- The value of a number. -/
def value (b : BitVec 64) : Rat :=
  withSign b.msb (binary64.val (magnitude b))

/-- An integer brought into the range of `w` signed bits. -/
def saturate (w : Nat) (n : Int) : Int :=
  max (-2 ^ (w - 1)) (min (2 ^ (w - 1) - 1) n)

/-- Conversion to a signed integer of `w` bits: rounded in a direction,
then saturated; 0 for what is not a number. -/
def toSigned (mode : Rounding) (w : Nat) (b : BitVec 64) : Int :=
  if isNaN b then 0 else saturate w (roundInt mode (value b))

/-- The integer is one of `w` signed bits. -/
def Fits (w : Nat) (n : Int) : Prop := -2 ^ (w - 1) ≤ n ∧ n < 2 ^ (w - 1)

instance (w : Nat) (n : Int) : Decidable (Fits w n) :=
  inferInstanceAs (Decidable (_ ∧ _))

theorem saturate_of_fits {w : Nat} {n : Int} (h : Fits w n) :
    saturate w n = n := by
  unfold saturate
  obtain ⟨hlo, hhi⟩ := h
  rw [min_eq_right (by omega), max_eq_right hlo]

theorem fits_saturate {w : Nat} (n : Int) : Fits w (saturate w n) := by
  have hpos : (0 : Int) < 2 ^ (w - 1) := by positivity
  unfold saturate Fits
  omega

/-- What saturation brings inside a narrower range was inside it. -/
theorem fits_of_saturate {v w : Nat} {n : Int} (hvw : v < w)
    (hv : 0 < v) (h : Fits v (saturate w n)) : Fits v n := by
  have hle : (2 : Int) ^ (v - 1) < 2 ^ (w - 1) :=
    pow_lt_pow_right₀ (by norm_num) (by omega)
  unfold saturate Fits at *
  omega

/-- The pattern of a power of two. -/
theorem val_two_pow (j : Nat) :
    binary64.val ((1022 + j) * 2 ^ 52 + 2 ^ 52) = 2 ^ j := by
  rw [show (52 : Nat) = binary64.t from rfl,
    binary64.val_scaled (Nat.pow_le_pow_right (by decide) (by omega))
      (.inr (Nat.le_refl _))]
  have hexp : ((1022 + j : Nat) : Int) + binary64.emin
      = (j : Int) + -(52 : Nat) := by
    show ((1022 + j : Nat) : Int) + -1074 = _
    omega
  rw [hexp, Format.two_add, Format.two_nat, Format.two, zpow_neg,
    zpow_natCast]
  push_cast [binary64]
  ring

/-- The largest number below `2 ^ 63` is 1024 below it. -/
theorem val_lt_two_pow {p : Nat}
    (h : binary64.val p < 2 ^ 63) :
    binary64.val p ≤ ((2 ^ 63 - 1024 : Int) : Rat) := by
  have hlast : binary64.val (1084 * 2 ^ 52 + (2 ^ 53 - 1))
      = ((2 ^ 63 - 1024 : Int) : Rat) := by
    rw [show (52 : Nat) = binary64.t from rfl,
      binary64.val_scaled (by decide) (.inr (by decide)),
      show ((1084 : Nat) : Int) + binary64.emin = ((10 : Nat) : Int)
        from rfl, Format.two_nat]
    norm_num
  rw [← val_two_pow 63] at h
  rw [← hlast]
  apply binary64.val_strictMono.monotone
  have := binary64.val_strictMono.lt_iff_lt.mp h
  omega

/-- An infinity is beyond 64 bits. -/
theorem not_fits_of_isInf {w : Nat} (hw : w ≤ 64) {b : BitVec 64}
    (h : isInf b = true) (mode : Rounding) :
    ¬ Fits w (roundInt mode (value b)) := by
  have hval : ((2 ^ 64 : Int) : Rat) ≤ binary64.val (magnitude b) := by
    have hmono := binary64.val_strictMono.monotone
      (show (1022 + 64) * 2 ^ 52 + 2 ^ 52 ≤ binary64.inf by decide)
    rw [val_two_pow 64] at hmono
    rw [show magnitude b = binary64.inf from of_decide_eq_true h]
    push_cast
    exact hmono
  have hpow : (2 : Int) ^ (w - 1) ≤ 2 ^ 63 :=
    pow_le_pow_right₀ (by norm_num) (by omega)
  unfold Fits value withSign
  split
  · have hneg : -binary64.val (magnitude b) ≤ ((-2 ^ 64 : Int) : Rat) := by
      push_cast at hval ⊢
      linarith
    have := @roundInt_le_of_le mode _ _ hneg
    omega
  · have := @le_roundInt_of_le mode _ _ hval
    omega

/-- No binary64 rounds to `2 ^ 63 - 1`. -/
theorem roundInt_value_ne (mode : Rounding) (b : BitVec 64) :
    roundInt mode (value b) ≠ 2 ^ 63 - 1 := by
  intro h
  rcases lt_or_ge (value b) (2 ^ 63) with hlt | hge
  · have hle : value b ≤ ((2 ^ 63 - 1024 : Int) : Rat) := by
      unfold value withSign at *
      split at hlt
      · rw [if_pos ‹_›]
        have := binary64.val_nonneg (magnitude b)
        push_cast
        linarith
      · rw [if_neg ‹_›]
        exact val_lt_two_pow hlt
    have := @roundInt_le_of_le mode _ _ hle
    omega
  · have hge' : (((2 ^ 63 : Int)) : Rat) ≤ value b := by
      push_cast
      exact hge
    have := @le_roundInt_of_le mode _ _ hge'
    omega

end Double

end X87Sidecar.Lib
