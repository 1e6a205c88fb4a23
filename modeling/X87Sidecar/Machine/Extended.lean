/-
The 80-bit format of the x87 registers, and what becomes of its numbers in
a narrower format.

The significand carries its integer bit, so a number may be written in
ways that no other format has. With the integer bit clear under a nonzero
exponent a pattern is an invalid operand (`unsupported`); with it set
under exponent zero it is a number like any other.

Narrowing (`Rounds`) is to nearest, ties to even, and an infinity is the
limit of what overflows: its value as a pattern is beyond every format
here, so that rounding takes it to infinity as well.
-/
import X87Sidecar.Lib.Double

namespace X87Sidecar

open Lib

/-- An 80-bit pattern: the significand, and sign and exponent. -/
structure Extended where
  mant : BitVec 64
  se : BitVec 16
  deriving DecidableEq, Repr

namespace Extended

variable (x : Extended)

/-- The significand, an integer. -/
def m : Nat := x.mant.toNat

/-- The sign. -/
def neg : Bool := x.se.msb

/-- The biased exponent. -/
def exponent : Nat := x.se.toNat % 2 ^ 15

/-- The significand below its integer bit. -/
def fraction : Nat := x.m % 2 ^ 63

/-- The integer bit clear under a nonzero exponent. -/
def unsupported : Bool := x.m < 2 ^ 63 && x.exponent ≠ 0

/-- Not a number. -/
def isNaN : Bool :=
  !x.unsupported && x.exponent = 0x7FFF && x.fraction ≠ 0

/-- An infinity. -/
def isInf : Bool :=
  !x.unsupported && x.exponent = 0x7FFF && x.fraction = 0

/-- The magnitude: the exponent 0 counts as 1. -/
def magnitude : Rat :=
  x.m * Format.two (max x.exponent 1 - 16446)

/-- The value. -/
def value : Rat := Double.withSign x.neg x.magnitude

end Extended

namespace Lib.Format

/-- The pattern of a quiet NaN with a payload. -/
def quiet (f : Format) (payload : Nat) : Nat :=
  f.inf + (payload ||| 2 ^ (f.t - 1))

end Lib.Format

/-- The sign and the pattern an 80-bit number has in a narrower format:
the nearest, a NaN quieted with the highest bits of its payload, and the
default NaN for what is no operand. -/
def Extended.Rounds (f : Format) (x : Extended) (neg : Bool) (p : Nat) :
    Prop :=
  if x.unsupported then neg = true ∧ p = f.quiet 0
  else neg = x.neg ∧
    if x.isNaN then p = f.quiet (x.fraction / 2 ^ (63 - f.t))
    else f.IsNearest x.magnitude p

/-- The same of a binary64 number. -/
def Lib.Double.Rounds (f : Format) (b : BitVec 64) (neg : Bool) (p : Nat) :
    Prop :=
  neg = b.msb ∧
    if Double.isNaN b then
      p = f.quiet (Double.magnitude b % 2 ^ 52 / 2 ^ (52 - f.t))
    else f.IsNearest (binary64.val (Double.magnitude b)) p

/-- A narrower format has one answer. -/
theorem Extended.Rounds.unique {f : Format} {x : Extended}
    {neg neg' : Bool} {p p' : Nat} (h : x.Rounds f neg p)
    (h' : x.Rounds f neg' p') : neg = neg' ∧ p = p' := by
  unfold Extended.Rounds at h h'
  split at h
  · rw [if_pos ‹_›] at h'
    exact ⟨h.1.trans h'.1.symm, h.2.trans h'.2.symm⟩
  · rw [if_neg ‹_›] at h'
    refine ⟨h.1.trans h'.1.symm, ?_⟩
    have h2 := h.2
    have h2' := h'.2
    split at h2
    · rw [if_pos ‹_›] at h2'
      exact h2.trans h2'.symm
    · rw [if_neg ‹_›] at h2'
      exact h2.unique h2'

-- ============================================ numbers, in three ranges

/-- The nearest binary64 of a significand and an exponent: a shift for
small exponents, 11 bits cut off in the middle range, infinity above. -/
def narrowed (m e : Nat) : Nat :=
  if e < 15361 then Format.rne m (15372 - e)
  else if e < 17407 then (e - 15361) * 2 ^ 52 + Format.rne m 11
  else binary64.inf

/-- The same rounded to odd, but for overflow. -/
def narrowedOdd (m e : Nat) : Nat :=
  let odd (s : Nat) : Nat := m / 2 ^ s ||| if m % 2 ^ s = 0 then 0 else 1
  if e < 15361 then odd (15372 - e)
  else if e < 17407 then (e - 15361) * 2 ^ 52 + odd 11
  else binary64.inf

section
variable {m e : Nat}

/-- A significand shifted out by more than one place rounds to 0. -/
theorem rne_eq_zero {s : Nat} (h : 2 * m < 2 ^ s) : Format.rne m s = 0 := by
  unfold Format.rne
  rw [Nat.div_eq_of_lt (by omega), Nat.mod_eq_of_lt (by omega),
    if_neg (by omega)]

theorem val_inf : binary64.val binary64.inf = Format.two 1024 := by
  have h := @Format.val_scaled binary64 2046 (2 ^ 52) (by decide)
    (.inr (by decide))
  have hinf : binary64.inf = 2046 * 2 ^ binary64.t + 2 ^ 52 := by decide
  rw [hinf, h, show ((2 ^ 52 : Nat) : Rat) = Format.two (52 : Nat) from
    (Format.two_nat 52).symm, ← Format.two_add]
  congr 1

/-- A large exponent overflows. -/
theorem val_inf_le (hm : 2 ^ 63 ≤ m) (he : 17407 ≤ e) :
    binary64.val binary64.inf ≤ m * Format.two (max e 1 - 16446) := by
  have hexp : Format.two 961 ≤ Format.two (max e 1 - 16446) := by
    apply zpow_le_zpow_right₀ (by norm_num)
    omega
  have hsplit : Format.two 1024 = Format.two (63 : Nat) * Format.two 961 := by
    rw [← Format.two_add]
    congr 1
  rw [val_inf, hsplit, Format.two_nat]
  apply mul_le_mul (by exact_mod_cast hm) hexp (Format.two_pos _).le
  exact_mod_cast Nat.zero_le m

/-- `narrowed` is the nearest. -/
theorem isNearest_narrowed (hlt : m < 2 ^ 64)
    (hm : 2 ^ 63 ≤ m ∨ e = 0) :
    binary64.IsNearest (m * Format.two (max e 1 - 16446))
      (narrowed m e) := by
  unfold narrowed
  split
  · -- the quotient is below the first power of two of the format
    have hsmall := @Format.isNearest_scaled binary64 m (15372 - max e 1) 0
      (max e 1 - 16446) (by show _ = ((0 : Nat) : Int) + -1074; omega)
      (by
        apply Nat.lt_of_le_of_lt (Nat.div_le_div_left
          (Nat.pow_le_pow_right (by decide)
            (show 12 ≤ 15372 - max e 1 by omega)) (by decide))
        show m / 2 ^ 12 < 2 ^ 53
        omega)
      (.inl rfl)
      (by
        have : m / 2 ^ (15372 - max e 1) ≤ m / 2 ^ 12 :=
          Nat.div_le_div_left (Nat.pow_le_pow_right (by decide)
            (show 12 ≤ 15372 - max e 1 by omega)) (by decide)
        show 0 * 2 ^ 52 + m / 2 ^ (15372 - max e 1) + 1
          ≤ 0x7FF0000000000000
        omega)
    rw [Nat.zero_mul, Nat.zero_add] at hsmall
    by_cases h0 : e = 0
    · subst h0
      have hzero : ∀ s, 65 ≤ s → Format.rne m s = 0 := by
        intro s hs
        apply rne_eq_zero
        have : 2 ^ 65 ≤ 2 ^ s := Nat.pow_le_pow_right (by decide) hs
        omega
      rw [hzero _ (by omega)] at hsmall ⊢
      exact hsmall
    · rwa [show 15372 - e = 15372 - max e 1 by omega]
  · split
    · have hm' : 2 ^ 63 ≤ m := by omega
      exact @Format.isNearest_scaled binary64 m 11 (e - 15361)
        (max e 1 - 16446)
        (by
          show _ + ((11 : Nat) : Int) = ((e - 15361 : Nat) : Int) + -1074
          omega)
        (by show m / 2 ^ 11 < 2 ^ 53; omega)
        (.inr (by show 2 ^ 52 ≤ m / 2 ^ 11; omega))
        (by
          show (e - 15361) * 2 ^ 52 + m / 2 ^ 11 + 1 ≤ 0x7FF0000000000000
          omega)
    · exact Format.isNearest_inf (val_inf_le (by omega) (by omega))

/-- A quotient with the rest kept in its lowest bit is rounded to odd. -/
theorem isOdd_scaled {f : Format} {s k : Nat} {x : Int}
    (hx : x + s = k + f.emin) (hq : m / 2 ^ s < 2 ^ (f.t + 1))
    (hk : k = 0 ∨ 2 ^ f.t ≤ m / 2 ^ s) :
    f.IsOdd (m * Format.two x)
      (k * 2 ^ f.t + (m / 2 ^ s ||| if m % 2 ^ s = 0 then 0 else 1)) := by
  have hpos := Format.two_pos x
  have hmod := Nat.mod_lt m (Nat.two_pow_pos s)
  have hdiv := Nat.div_add_mod' m (2 ^ s)
  -- the values around, in units of the shifted exponent
  have hunit : Format.two (k + f.emin)
      = ((2 ^ s : Nat) : Rat) * Format.two x := by
    rw [← hx, Format.two_add, Format.two_nat, mul_comm]
  have hlow := Format.val_scaled f (Nat.le_of_lt hq) hk
  have hhigh := @Format.val_scaled f k (m / 2 ^ s + 1) (by omega)
    (by omega)
  rw [hunit, ← mul_assoc] at hlow hhigh
  rw [← Nat.add_assoc] at hhigh
  have heven : 2 ^ f.t % 2 = 0 := by
    obtain ⟨t, ht⟩ : ∃ t, f.t = t + 1 :=
      ⟨f.t - 1, by have := f.t_pos; omega⟩
    rw [ht, pow_succ]
    omega
  have hparity : ∀ q, (k * 2 ^ f.t + q) % 2 = q % 2 := by
    intro q
    rw [Nat.add_mod, Nat.mul_mod, heven, Nat.mul_zero, Nat.zero_mod,
      Nat.zero_add, Nat.mod_mod]
  generalize m / 2 ^ s = q at *
  generalize hr : m % 2 ^ s = r at *
  generalize hb : k * 2 ^ f.t = b at *
  by_cases h0 : r = 0
  · refine .inl ?_
    rw [if_pos h0, Nat.or_zero, hlow, ← hdiv, h0, Nat.add_zero]
    push_cast
    ring
  · have hxlow : f.val (b + q) < m * Format.two x := by
      rw [hlow]
      apply mul_lt_mul_of_pos_right _ hpos
      have : q * 2 ^ s < m := by omega
      exact_mod_cast this
    have hxhigh : m * Format.two x < f.val (b + q + 1) := by
      rw [hhigh]
      apply mul_lt_mul_of_pos_right _ hpos
      have : m < (q + 1) * 2 ^ s := by
        rw [Nat.add_mul]
        omega
      exact_mod_cast this
    rw [if_neg h0]
    refine .inr ?_
    rcases Nat.mod_two_eq_zero_or_one q with hq0 | hq1
    · have hor : q ||| 1 = q + 1 := by
        have := Nat.two_pow_add_eq_or_of_lt (show 1 < 2 ^ 1 by decide)
          (q / 2)
        rw [show 2 ^ 1 * (q / 2) = q by omega] at this
        exact this.symm
      rw [hor, hparity]
      refine ⟨by omega, hxlow, hxhigh.trans ?_⟩
      exact f.val_strictMono (Nat.lt_succ_self _)
    · have hor : q ||| 1 = q := by
        apply Nat.eq_of_testBit_eq
        intro i
        rw [Nat.testBit_or]
        rcases i with _ | i
        · simp [Nat.testBit_zero, hq1]
        · simp [Nat.testBit_succ]
      rw [hor, hparity]
      refine ⟨hq1, ?_, hxhigh⟩
      exact lt_trans (f.val_strictMono (by omega)) hxlow

/-- `narrowedOdd` is rounded to odd, or overflows. -/
theorem isOdd_narrowedOdd (hlt : m < 2 ^ 64) (hm : 2 ^ 63 ≤ m ∨ e = 0)
    (he : e < 17407) :
    binary64.IsOdd (m * Format.two (max e 1 - 16446))
      (narrowedOdd m e) := by
  unfold narrowedOdd
  dsimp only
  split
  · have hsmall := @isOdd_scaled m binary64 (15372 - max e 1) 0
      (max e 1 - 16446) (by show _ = ((0 : Nat) : Int) + -1074; omega)
      (by
        apply Nat.lt_of_le_of_lt (Nat.div_le_div_left
          (Nat.pow_le_pow_right (by decide)
            (show 12 ≤ 15372 - max e 1 by omega)) (by decide))
        show m / 2 ^ 12 < 2 ^ 53
        omega)
      (.inl rfl)
    rw [Nat.zero_mul, Nat.zero_add] at hsmall
    by_cases h0 : e = 0
    · -- shifted out altogether, at the exponent of 0 and of 1
      subst h0
      have hout : ∀ s, 64 ≤ s → m / 2 ^ s = 0 ∧ m % 2 ^ s = m := by
        intro s hs
        have : 2 ^ 64 ≤ 2 ^ s := Nat.pow_le_pow_right (by decide) hs
        exact ⟨Nat.div_eq_of_lt (by omega), Nat.mod_eq_of_lt (by omega)⟩
      have h1 := hout (15372 - max 0 1) (by omega)
      have h2 := hout (15372 - 0) (by omega)
      rw [h1.1, h1.2] at hsmall
      rw [h2.1, h2.2]
      exact hsmall
    · rwa [show 15372 - e = 15372 - max e 1 by omega]
  · have hm' : 2 ^ 63 ≤ m := by omega
    exact @isOdd_scaled m binary64 11 (e - 15361) (max e 1 - 16446)
      (by
        show _ + ((11 : Nat) : Int) = ((e - 15361 : Nat) : Int) + -1074
        omega)
      (by show m / 2 ^ 11 < 2 ^ 53; omega)
      (.inr (by show 2 ^ 52 ≤ m / 2 ^ 11; omega))

end

end X87Sidecar
