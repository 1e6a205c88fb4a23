/-
Rounding to integers, in the four directions.

Every direction is a function on the rationals. On a significand over a
power of two it is a quotient, one more where the remainder asks for it
(`roundInt_scaled`), and on the negative side it is the opposite direction
(`roundInt_neg`).
-/
import X87Sidecar.Lib.Format

namespace X87Sidecar.Lib

open Format

/-- The rounding directions. -/
inductive Rounding
  | nearest | down | up | chop
  deriving DecidableEq, Repr

namespace Rounding

/-- The direction on the other side of zero. -/
def mirror : Rounding → Rounding
  | .nearest => .nearest
  | .down => .up
  | .up => .down
  | .chop => .chop

end Rounding

/-- To the nearest integer, ties to even. -/
def roundNearest (x : Rat) : Int :=
  if x - ⌊x⌋ < 1 / 2 ∨ x - ⌊x⌋ = 1 / 2 ∧ ⌊x⌋ % 2 = 0 then ⌊x⌋ else ⌊x⌋ + 1

/-- To an integer, in a direction. -/
def roundInt (mode : Rounding) (x : Rat) : Int :=
  match mode with
  | .nearest => roundNearest x
  | .down => ⌊x⌋
  | .up => ⌈x⌉
  | .chop => if 0 ≤ x then ⌊x⌋ else ⌈x⌉

theorem roundInt_intCast (mode : Rounding) (n : Int) :
    roundInt mode n = n := by
  cases mode <;> simp [roundInt, roundNearest]

/-- Rounding to nearest is where the floor plus one half says, and to even
between two. -/
theorem roundNearest_eq_iff {x : Rat} {n : Int} :
    roundNearest x = n ↔ (n - 1 / 2 < x ∨ x = n - 1 / 2 ∧ n % 2 = 0)
      ∧ (x < n + 1 / 2 ∨ x = n + 1 / 2 ∧ n % 2 = 0) := by
  have hfloor := Int.floor_le x
  have hlt := Int.lt_floor_add_one x
  unfold roundNearest
  generalize ⌊x⌋ = k at *
  constructor
  · intro h
    by_cases hlow : x - k < 1 / 2 ∨ x - k = 1 / 2 ∧ k % 2 = 0
    · rw [if_pos hlow] at h
      subst h
      refine ⟨.inl (by linarith), ?_⟩
      rcases hlow with hlow | ⟨hlow, heven⟩
      · exact .inl (by linarith)
      · exact .inr ⟨by linarith, heven⟩
    · rw [if_neg hlow] at h
      subst h
      push_cast
      refine ⟨?_, .inl (by linarith)⟩
      rcases lt_trichotomy (x - k) (1 / 2) with hx | hx | hx
      · exact absurd (.inl hx) hlow
      · refine .inr ⟨by linarith, ?_⟩
        have hodd : ¬ k % 2 = 0 := fun h0 => hlow (.inr ⟨hx, h0⟩)
        omega
      · exact .inl (by linarith)
  · rintro ⟨h1, h2⟩
    have hge : (n : Rat) - 1 / 2 ≤ x := by
      rcases h1 with h1 | ⟨h1, -⟩ <;> linarith
    have hle : x ≤ (n : Rat) + 1 / 2 := by
      rcases h2 with h2 | ⟨h2, -⟩ <;> linarith
    have hk : k = n ∨ k + 1 = n := by
      have h3 : ((n - 1 : Int) : Rat) < (k + 1 : Int) := by
        push_cast
        linarith
      have h4 : ((k : Int) : Rat) < (n + 1 : Int) := by
        push_cast
        linarith
      have h3' : n - 1 < k + 1 := by exact_mod_cast h3
      have h4' : k < n + 1 := by exact_mod_cast h4
      omega
    rcases hk with rfl | rfl
    · rw [if_pos]
      rcases h2 with h2 | ⟨h2, heven⟩
      · exact .inl (by linarith)
      · exact .inr ⟨by linarith, heven⟩
    · rw [if_neg]
      push_cast at h1
      rintro (h | ⟨h, heven⟩)
      · rcases h1 with h1 | ⟨h1, -⟩ <;> linarith
      · rcases h1 with h1 | ⟨-, hodd⟩
        · linarith
        · omega

theorem roundNearest_neg (x : Rat) :
    roundNearest (-x) = -roundNearest x := by
  obtain ⟨h1, h2⟩ := roundNearest_eq_iff.mp (rfl : roundNearest x = _)
  apply roundNearest_eq_iff.mpr
  generalize roundNearest x = n at *
  push_cast
  constructor
  · rcases h2 with h2 | ⟨h2, heven⟩
    · exact .inl (by linarith)
    · exact .inr ⟨by linarith, by omega⟩
  · rcases h1 with h1 | ⟨h1, heven⟩
    · exact .inl (by linarith)
    · exact .inr ⟨by linarith, by omega⟩

/-- A negative number rounds as its magnitude in the opposite direction. -/
theorem roundInt_neg (mode : Rounding) (x : Rat) :
    roundInt mode (-x) = -roundInt mode.mirror x := by
  cases mode with
  | nearest => exact roundNearest_neg x
  | down => exact Int.floor_neg
  | up => exact Int.ceil_neg
  | chop =>
      unfold roundInt Rounding.mirror
      dsimp only
      rw [Int.floor_neg, Int.ceil_neg]
      rcases lt_trichotomy x 0 with h | rfl | h
      · rw [if_pos (by linarith), if_neg (by linarith)]
      · simp
      · rw [if_neg (by linarith), if_pos h.le]

/-- Rounding does not pass an integer from below. -/
theorem roundInt_le_of_le {mode : Rounding} {x : Rat} {k : Int}
    (h : x ≤ k) : roundInt mode x ≤ k := by
  have hfloor : ⌊x⌋ ≤ k := by
    have : (⌊x⌋ : Rat) ≤ k := (Int.floor_le x).trans h
    exact_mod_cast this
  have hceil : ⌈x⌉ ≤ k := Int.ceil_le.mpr h
  cases mode with
  | nearest =>
      obtain ⟨h1, -⟩ := roundNearest_eq_iff.mp (rfl : roundNearest x = _)
      show roundNearest x ≤ k
      generalize roundNearest x = n at *
      have hlt : (n : Rat) < (k + 1 : Int) := by
        push_cast
        rcases h1 with h1 | ⟨h1, -⟩ <;> linarith
      have : n < k + 1 := by exact_mod_cast hlt
      omega
  | down => exact hfloor
  | up => exact hceil
  | chop =>
      unfold roundInt
      dsimp only
      split
      · exact hfloor
      · exact hceil

/-- Nor from above. -/
theorem le_roundInt_of_le {mode : Rounding} {x : Rat} {k : Int}
    (h : k ≤ x) : k ≤ roundInt mode x := by
  have hneg : -x ≤ ((-k : Int) : Rat) := by
    push_cast
    linarith
  have hmirror := @roundInt_le_of_le mode.mirror _ _ hneg
  rw [roundInt_neg] at hmirror
  have : mode.mirror.mirror = mode := by cases mode <;> rfl
  rw [this] at hmirror
  omega

/-- What is added to the quotient of a magnitude cut off at `2 ^ s`. -/
def roundsUp (mode : Rounding) (m s : Nat) : Bool :=
  match mode with
  | .nearest => 2 ^ s < 2 * (m % 2 ^ s)
      || 2 * (m % 2 ^ s) == 2 ^ s && m / 2 ^ s % 2 == 1
  | .up => m % 2 ^ s != 0
  | .down | .chop => false

/-- A magnitude over a power of two, rounded to a natural number. -/
def roundNat (mode : Rounding) (m s : Nat) : Nat :=
  m / 2 ^ s + (roundsUp mode m s).toNat

/-- A magnitude over a power of two rounds to its quotient, one more where
the remainder asks for it. -/
theorem roundInt_scaled (mode : Rounding) (m s : Nat) :
    roundInt mode (m * two (-s)) = roundNat mode m s := by
  have hpos : (0 : Rat) < ((2 ^ s : Nat) : Rat) := by
    exact_mod_cast Nat.two_pow_pos s
  have hval : (m : Rat) * two (-s) = m / ((2 ^ s : Nat) : Rat) := by
    rw [two, zpow_neg, zpow_natCast]
    push_cast
    rw [div_eq_mul_inv]
  have hdiv := Nat.div_add_mod' m (2 ^ s)
  have hmod := Nat.mod_lt m (Nat.two_pow_pos s)
  have hx : (m : Rat) / ((2 ^ s : Nat) : Rat)
      = ((m / 2 ^ s : Nat) : Rat)
        + ((m % 2 ^ s : Nat) : Rat) / ((2 ^ s : Nat) : Rat) := by
    have hcast : (m : Rat) = ((m / 2 ^ s : Nat) : Rat)
        * ((2 ^ s : Nat) : Rat) + ((m % 2 ^ s : Nat) : Rat) := by
      exact_mod_cast hdiv.symm
    nth_rewrite 1 [hcast]
    rw [add_div, mul_div_cancel_right₀ _ hpos.ne']
  rw [hval, hx]
  unfold roundNat roundsUp
  generalize m / 2 ^ s = q at *
  generalize m % 2 ^ s = r at *
  generalize 2 ^ s = d at *
  have hr0 : (0 : Rat) ≤ (r : Rat) / d :=
    div_nonneg (by exact_mod_cast Nat.zero_le r) hpos.le
  have hr1 : (r : Rat) / d < 1 := by
    rw [div_lt_one hpos]
    exact_mod_cast hmod
  have hfloor : ⌊(q : Rat) + (r : Rat) / d⌋ = q := by
    apply Int.floor_eq_iff.mpr
    push_cast
    constructor <;> linarith
  have hceil : ⌈(q : Rat) + (r : Rat) / d⌉
      = q + ((r != 0).toNat : Int) := by
    apply Int.ceil_eq_iff.mpr
    by_cases h0 : r = 0
    · subst h0
      simp
    · have hpos' : (0 : Rat) < (r : Rat) / d :=
        div_pos (by exact_mod_cast Nat.pos_of_ne_zero h0) hpos
      have hne : (r != 0) = true := bne_iff_ne.mpr h0
      rw [hne]
      push_cast
      simp only [Bool.toNat_true, Nat.cast_one]
      constructor <;> linarith
  have hq : (0 : Rat) ≤ q := by exact_mod_cast Nat.zero_le q
  cases mode with
  | nearest =>
      unfold roundInt roundNearest
      dsimp only
      rw [hfloor]
      have hhalf : ((q : Rat) + (r : Rat) / d - ((q : Int) : Rat) < 1 / 2
            ↔ 2 * r < d)
          ∧ ((q : Rat) + (r : Rat) / d - ((q : Int) : Rat) = 1 / 2
            ↔ 2 * r = d) := by
        rw [Int.cast_natCast, add_sub_cancel_left, div_lt_iff₀ hpos,
          div_eq_iff hpos.ne']
        constructor
        · constructor
          · intro h
            have : (2 : Rat) * r < d := by linarith
            exact_mod_cast this
          · intro h
            have : (2 : Rat) * r < d := by exact_mod_cast h
            linarith
        · constructor
          · intro h
            have : (2 : Rat) * r = d := by linarith
            exact_mod_cast this
          · intro h
            have : (2 : Rat) * r = d := by exact_mod_cast h
            linarith
      simp only [hhalf.1, hhalf.2]
      by_cases hup : d < 2 * r ∨ 2 * r = d ∧ q % 2 = 1
      · rw [if_neg (by omega)]
        have : (decide (d < 2 * r) || 2 * r == d && q % 2 == 1) = true := by
          simpa using hup
        rw [this]
        rfl
      · rw [if_pos (by omega)]
        have : (decide (d < 2 * r) || 2 * r == d && q % 2 == 1) = false := by
          simpa using hup
        rw [this]
        simp
  | down =>
      unfold roundInt
      dsimp only
      rw [hfloor]
      simp
  | up =>
      unfold roundInt
      dsimp only
      rw [hceil]
      push_cast
      rfl
  | chop =>
      unfold roundInt
      dsimp only
      rw [if_pos (by linarith), hfloor]
      simp

end X87Sidecar.Lib
