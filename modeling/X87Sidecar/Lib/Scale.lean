/-
Numbers of a format times powers of two.

`pattern` is the nearest pattern of any integer times any power of two,
and `scale` that of a number of the format times a power of two. Scaling
up and then up again rounds as scaling once (`scale_scale_up`): nothing is
lost short of infinity. Scaling down and then by as many places as the
significand has is scaling once as well (`scale_scale_down`): either the
first is exact, or both come to zero.
-/
import X87Sidecar.Lib.Format

namespace X87Sidecar.Lib.Format

variable (f : Format)

-- ============================================== a significand, rounded

/-- The significand of a pattern. -/
def sig (p : Nat) : Nat := if p < 2 ^ f.t then p else 2 ^ f.t + p % 2 ^ f.t

/-- The exponent of its lowest bit. -/
def exp (p : Nat) : Int :=
  if p < 2 ^ f.t then f.emin else (p / 2 ^ f.t : Nat) - 1 + f.emin

theorem val_eq (p : Nat) : f.val p = f.sig p * two (f.exp p) := by
  unfold val sig exp
  split <;> rfl

theorem sig_lt (p : Nat) : f.sig p < 2 ^ (f.t + 1) := by
  have hpos : 0 < 2 ^ f.t := Nat.two_pow_pos f.t
  have hmod := Nat.mod_lt p hpos
  unfold sig
  rw [pow_succ]
  split <;> omega

theorem emin_le_exp (p : Nat) : f.emin ≤ f.exp p := by
  unfold exp
  split
  · exact le_refl _
  · have hge : 1 ≤ p / 2 ^ f.t :=
      (Nat.one_le_div_iff (Nat.two_pow_pos f.t)).mpr (by omega)
    omega

/-- How many places of a number are cut off, or are missing below zero. -/
def places (m : Nat) (e : Int) : Int :=
  max ((m.log2 : Int) - f.t) (f.emin - e)

/-- The nearest pattern of an integer times a power of two. -/
def pattern (m : Nat) (e : Int) : Nat :=
  if m = 0 then 0
  else
    let s := f.places m e
    min f.inf ((e + s - f.emin).toNat * 2 ^ f.t
      + rne (m * 2 ^ (-s).toNat) s.toNat)

/-- The number as a significand to be cut, at the format's exponent. -/
theorem pattern_parts {m : Nat} (hm : m ≠ 0) (e : Int) :
    ∃ (k n s : Nat) (x : Int), (n : Rat) * two x = m * two e
      ∧ x + s = k + f.emin ∧ n / 2 ^ s < 2 ^ (f.t + 1)
      ∧ (k = 0 ∨ 2 ^ f.t ≤ n / 2 ^ s)
      ∧ f.pattern m e = min f.inf (k * 2 ^ f.t + rne n s)
      ∧ (f.places m e ≤ 0 → s = 0) := by
  have hlow : 2 ^ m.log2 ≤ m := Nat.log2_self_le hm
  have hhigh : m < 2 ^ (m.log2 + 1) := Nat.lt_log2_self
  have hs : f.places m e = max ((m.log2 : Int) - f.t) (f.emin - e) := rfl
  rw [pattern, if_neg hm]
  generalize f.places m e = s at *
  dsimp only
  refine ⟨(e + s - f.emin).toNat, m * 2 ^ (-s).toNat, s.toNat,
    e - (-s).toNat, ?_, by omega, ?_, ?_, rfl, by omega⟩
  · rw [show two e = two ((-s).toNat + (e - (-s).toNat)) by
      congr 1
      ring, two_add, two_nat]
    push_cast
    ring
  · rcases Int.le_total 0 s with h0 | h0
    · rw [show (-s).toNat = 0 by omega, Nat.pow_zero, Nat.mul_one,
        Nat.div_lt_iff_lt_mul (Nat.two_pow_pos _), ← pow_add]
      exact Nat.lt_of_lt_of_le hhigh
        (Nat.pow_le_pow_right (by omega) (by omega))
    · rw [show s.toNat = 0 by omega, Nat.pow_zero, Nat.div_one]
      calc m * 2 ^ (-s).toNat
          < 2 ^ (m.log2 + 1) * 2 ^ (-s).toNat :=
            Nat.mul_lt_mul_of_pos_right hhigh (Nat.two_pow_pos _)
        _ ≤ 2 ^ (f.t + 1) := by
            rw [← pow_add]
            exact Nat.pow_le_pow_right (by omega) (by omega)
  · by_cases hk : s = f.emin - e
    · exact .inl (by omega)
    · have hlog : s = (m.log2 : Int) - f.t := by omega
      refine .inr ?_
      rcases Int.le_total 0 s with h0 | h0
      · rw [show (-s).toNat = 0 by omega, Nat.pow_zero, Nat.mul_one,
          Nat.le_div_iff_mul_le (Nat.two_pow_pos _), ← pow_add]
        exact Nat.le_trans (Nat.pow_le_pow_right (by omega) (by omega))
          hlow
      · rw [show s.toNat = 0 by omega, Nat.pow_zero, Nat.div_one]
        calc 2 ^ f.t ≤ 2 ^ m.log2 * 2 ^ (-s).toNat := by
              rw [← pow_add]
              exact Nat.pow_le_pow_right (by omega) (by omega)
          _ ≤ m * 2 ^ (-s).toNat := Nat.mul_le_mul_right _ hlow

theorem val_zero : f.val 0 = 0 := by
  unfold val
  rw [if_pos (Nat.two_pow_pos f.t)]
  simp

/-- `pattern` is the nearest. -/
theorem isNearest_pattern (m : Nat) (e : Int) :
    f.IsNearest (m * two e) (f.pattern m e) := by
  by_cases hm : m = 0
  · subst hm
    have h0 := isNearest_val (f := f) (Nat.zero_le f.inf)
    rw [val_zero] at h0
    simpa [pattern] using h0
  obtain ⟨k, n, s, x, hval, hx, hq, hk, hpattern, -⟩ :=
    f.pattern_parts hm e
  rw [hpattern, ← hval]
  by_cases hinf : k * 2 ^ f.t + n / 2 ^ s + 1 ≤ f.inf
  · have hnear := isNearest_scaled hx hq hk hinf
    rw [min_eq_right hnear.1]
    exact hnear
  · -- the quotient is infinity's pattern or beyond
    have hover : f.inf ≤ k * 2 ^ f.t + n / 2 ^ s := by omega
    have hrne : n / 2 ^ s ≤ rne n s := Nat.le_add_right _ _
    rw [min_eq_left (by omega)]
    refine isNearest_inf
      ((f.val_strictMono.monotone hover).trans ?_)
    rw [f.val_scaled hq.le hk, ← hx, two_add, two_nat,
      mul_comm (two x), ← mul_assoc]
    apply mul_le_mul_of_nonneg_right _ (two_pos x).le
    exact_mod_cast Nat.div_mul_le_self n (2 ^ s)

/-- A significand no longer than the format's, at an exponent it has, is
the value of a pattern. -/
theorem exists_val {m : Nat} {e : Int} (hm : m < 2 ^ (f.t + 1))
    (he : f.emin ≤ e) : ∃ p, f.val p = m * two e := by
  by_cases h0 : m = 0
  · exact ⟨0, by rw [val_zero, h0]; simp⟩
  obtain ⟨k, n, s, x, hval, hx, hq, hk, -, hs⟩ := f.pattern_parts h0 e
  have hlog : m.log2 ≤ f.t :=
    Nat.lt_succ_iff.1 ((Nat.log2_lt h0).2 hm)
  obtain rfl := hs (by unfold places; omega)
  rw [Nat.pow_zero, Nat.div_one] at hq hk
  refine ⟨k * 2 ^ f.t + n, ?_⟩
  rw [f.val_scaled hq.le hk, ← hval, ← hx]
  simp

-- ============================================================== scaling

/-- The nearest number to one of the format times a power of two. -/
def scale (p : Nat) (j : Int) : Nat := f.pattern (f.sig p) (f.exp p + j)

theorem isNearest_scale (p : Nat) (j : Int) :
    f.IsNearest (f.val p * two j) (f.scale p j) := by
  have h := f.isNearest_pattern (f.sig p) (f.exp p + j)
  rwa [two_add, ← mul_assoc, ← val_eq] at h

variable {f}

/-- Rounding keeps the order. -/
theorem IsNearest.mono {x y : Rat} {p q : Nat} (hp : f.IsNearest x p)
    (hq : f.IsNearest y q) (h : x ≤ y) : p ≤ q := by
  by_contra hlt
  have hval := f.val_strictMono (Nat.lt_of_not_le hlt)
  have hx := hp.2 q hq.1 (by omega)
  have hy := hq.2 p hp.1 (by omega)
  rw [(nearer_iff hval).1, (nearer_iff hval).2.2] at hx
  rw [(nearer_iff hval).2.1, eq_comm, (nearer_iff hval).2.2] at hy
  rcases hx with hx | ⟨hx, heven, -⟩
  · rcases hy with hy | ⟨hy, -, -⟩ <;> linarith
  · rcases hy with hy | ⟨-, -, hodd⟩
    · linarith
    · omega

section
variable {p q : Nat} {i j : Int}

/-- A product that is a value is that value. -/
theorem scale_eq (hq : q ≤ f.inf) (h : f.val q = f.val p * two j) :
    f.scale p j = q := by
  have hs := f.isNearest_scale p j
  rw [← h] at hs
  exact hs.unique (isNearest_val hq)

/-- Equal products have one pattern. -/
theorem scale_congr (h : f.val p * two i = f.val q * two j) :
    f.scale p i = f.scale q j := by
  have hs := f.isNearest_scale p i
  rw [h] at hs
  exact hs.unique (f.isNearest_scale q j)

/-- Up to half of the smallest number, products come to zero. -/
theorem scale_zero (h : f.val p * two j ≤ two (f.emin - 1)) :
    f.scale p j = 0 := by
  have hone : f.val 1 = two f.emin := by
    unfold val
    rw [if_pos (Nat.one_lt_two_pow f.t_pos.ne')]
    simp
  have hhalf : two f.emin = 2 * two (f.emin - 1) := by
    rw [show f.emin = 1 + (f.emin - 1) by ring, two_add]
    simp [two]
  have hpos := two_pos (f.emin - 1)
  have hnonneg : 0 ≤ f.val p * two j :=
    mul_nonneg (f.val_nonneg p) (two_pos j).le
  have hinf : 0 + 1 ≤ f.inf :=
    Nat.lt_of_le_of_lt (Nat.zero_le _) f.inf_pos
  refine (f.isNearest_scale p j).unique
    (isNearest_of_between hinf ?_ ?_ (.inl ⟨rfl, ?_⟩))
  · rw [val_zero]
    exact hnonneg
  · rw [Nat.zero_add, hone]
    linarith
  · rw [val_zero, Nat.zero_add, hone]
    rcases lt_or_eq_of_le h with hlt | heq
    · exact .inl (by linarith)
    · exact .inr ⟨by linarith, rfl⟩

/-- From the value of infinity on, products are infinite. -/
theorem scale_inf (h : f.val f.inf ≤ f.val p * two j) :
    f.scale p j = f.inf :=
  (f.isNearest_scale p j).unique (isNearest_inf h)

theorem scale_le : f.scale p j ≤ f.inf := (f.isNearest_scale p j).1

theorem two_mono {a b : Int} (h : a ≤ b) : two a ≤ two b :=
  zpow_le_zpow_right₀ (by norm_num) h

theorem two_zero : two 0 = 1 := zpow_zero 2

/-- Scaling up loses nothing short of infinity. -/
theorem scale_scale_up (hi : 0 ≤ i) (hj : 0 ≤ j) :
    f.scale (f.scale p i) j = f.scale p (i + j) := by
  have hone : 1 ≤ two j := by
    rw [← two_zero]
    exact two_mono hj
  have hpos := f.val_nonneg f.inf
  by_cases hover : f.val f.inf ≤ f.val p * two i
  · have hmul : f.val f.inf * two j ≤ f.val p * two i * two j :=
      mul_le_mul_of_nonneg_right hover (two_pos j).le
    have hself : f.val f.inf ≤ f.val f.inf * two j :=
      le_mul_of_one_le_right hpos hone
    rw [scale_inf hover, scale_inf hself, scale_inf]
    rw [two_add, ← mul_assoc]
    exact hself.trans hmul
  · obtain ⟨q, hq⟩ := f.exists_val (f.sig_lt p)
      (show f.emin ≤ f.exp p + i by
        have := f.emin_le_exp p
        omega)
    rw [two_add, ← mul_assoc, ← val_eq] at hq
    have hle : q ≤ f.inf := by
      by_contra hgt
      have := f.val_strictMono (Nat.lt_of_not_le hgt)
      exact hover (by rw [← hq]; exact this.le)
    rw [scale_eq hle hq]
    apply scale_congr
    rw [hq, two_add, mul_assoc]

/-- Scaling down is exact, or what comes after it is shifted out. -/
theorem scale_scale_down (hp : p ≤ f.inf) (hj : 0 ≤ j)
    (hi : i ≤ -(f.t + 1 : Nat)) :
    f.scale (f.scale p (-j)) i = f.scale p (i - j) := by
  have hmul : f.val p * two (i - j) = f.val p * two (-j) * two i := by
    rw [mul_assoc, ← two_add]
    congr 2
    ring
  by_cases hlarge : two (f.emin + f.t) ≤ f.val p * two (-j)
  · -- the product has all its places
    have hexp : f.emin ≤ f.exp p + -j := by
      by_contra hlt
      have hsig : (f.sig p : Rat) < two (f.t + 1 : Nat) := by
        rw [two_nat]
        exact_mod_cast f.sig_lt p
      have hbelow : f.val p * two (-j)
          < two (f.t + 1 : Nat) * two (f.exp p + -j) := by
        rw [val_eq, mul_assoc, ← two_add]
        exact mul_lt_mul_of_pos_right hsig (two_pos _)
      rw [← two_add] at hbelow
      have := two_mono (show ((f.t + 1 : Nat) : Int) + (f.exp p + -j)
        ≤ f.emin + f.t by push_cast; omega)
      linarith
    obtain ⟨q, hq⟩ := f.exists_val (f.sig_lt p) hexp
    rw [two_add, ← mul_assoc, ← val_eq] at hq
    have hle : q ≤ f.inf := by
      by_contra hgt
      have hlt := f.val_strictMono (Nat.lt_of_not_le hgt)
      have hmono := f.val_strictMono.monotone hp
      have hone : two (-j) ≤ 1 := by
        rw [← two_zero]
        exact two_mono (by omega)
      have := mul_le_of_le_one_right (f.val_nonneg p) hone
      linarith
    rw [scale_eq hle hq]
    apply scale_congr
    rw [hq, hmul]
  · -- at most the smallest normal number, and then shifted out
    have hsmall : f.val p * two (-j) ≤ two (f.emin + f.t) :=
      (not_le.1 hlarge).le
    have hnormal : f.val (2 ^ f.t) = two (f.emin + f.t) := by
      have h := f.val_scaled (k := 0) (q := 2 ^ f.t)
        (Nat.pow_le_pow_right (by omega) (by omega)) (.inl rfl)
      rw [Nat.zero_mul, Nat.zero_add] at h
      rw [h, ← two_nat, ← two_add]
      congr 1
      push_cast
      ring
    have hout : two (f.emin + f.t) * two i ≤ two (f.emin - 1) := by
      rw [← two_add]
      exact two_mono (by push_cast at hi; omega)
    have hq : f.val (f.scale p (-j)) ≤ two (f.emin + f.t) := by
      rw [← hnormal]
      apply f.val_strictMono.monotone
      refine (f.isNearest_scale p (-j)).mono
        (isNearest_val f.inf_pos.le) ?_
      rw [hnormal]
      exact hsmall
    have hzero : f.scale p (i - j) = 0 := by
      apply scale_zero
      rw [hmul]
      exact (mul_le_mul_of_nonneg_right hsmall (two_pos i).le).trans hout
    rw [hzero]
    apply scale_zero
    exact (mul_le_mul_of_nonneg_right hq (two_pos i).le).trans hout

end

end X87Sidecar.Lib.Format
