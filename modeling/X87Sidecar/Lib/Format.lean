/-
Binary floating-point formats, and rounding to them.

The magnitude of a value of a format is a pattern, a natural number: its
fraction below, its biased exponent above. Patterns are in the order of
their values, and the value that the pattern of infinity would have as a
number is where rounding to the format overflows. So rounding to nearest,
ties to even, is one statement for subnormal, normal and overflowing
results (`IsNearest`): the pattern whose value is nearest, and of two the
even one.

A number is rounded by cutting it at the format's last place
(`isNearest_scaled`), and rounding twice is rounding once where the first
rounding was to odd, into a format with two more bits (`isNearest_odd`).
-/
import Mathlib.Algebra.Order.Field.Rat
import Mathlib.Algebra.Order.Floor.Ring
import Mathlib.Data.Rat.Floor
import Mathlib.Tactic.Linarith
import Mathlib.Tactic.Ring
import Mathlib.Tactic.Positivity
import Mathlib.Tactic.FieldSimp
import Mathlib.Tactic.NormNum

namespace X87Sidecar.Lib

/-- A binary format: the bits of its fraction, the exponent of its lowest
bit, and the pattern of infinity. -/
structure Format where
  t : Nat
  emin : Int
  inf : Nat
  t_pos : 0 < t
  inf_dvd : 2 ^ t ∣ inf
  inf_pos : 2 ^ t < inf

namespace Format

/-- A power of two. -/
abbrev two (e : Int) : Rat := 2 ^ e

theorem two_pos (e : Int) : 0 < two e := zpow_pos (by norm_num) e

theorem two_add (a b : Int) : two (a + b) = two a * two b :=
  zpow_add₀ (by norm_num) a b

theorem two_nat (n : Nat) : two n = ((2 ^ n : Nat) : Rat) := by
  push_cast
  exact zpow_natCast 2 n

variable (f : Format)

/-- The value of a pattern. -/
def val (p : Nat) : Rat :=
  if p < 2 ^ f.t then p * two f.emin
  else ((2 ^ f.t + p % 2 ^ f.t : Nat) : Rat)
    * two ((p / 2 ^ f.t : Nat) - 1 + f.emin)

/-- A significand at one of the format's exponents, up to the first of
the next. -/
theorem val_scaled {k q : Nat} (hq : q ≤ 2 ^ (f.t + 1))
    (hk : k = 0 ∨ 2 ^ f.t ≤ q) :
    f.val (k * 2 ^ f.t + q) = q * two (k + f.emin) := by
  have hpos : 0 < 2 ^ f.t := Nat.two_pow_pos f.t
  have hsucc : 2 ^ (f.t + 1) = 2 * 2 ^ f.t := by ring
  unfold val
  generalize 2 ^ f.t = n at *
  by_cases hsub : q < n
  · have hk0 : k = 0 := by omega
    subst hk0
    rw [if_pos (by omega)]
    simp
  · have hnot : ¬ k * n + q < n := by
      have : 0 ≤ k * n := Nat.zero_le _
      omega
    rw [if_neg hnot]
    by_cases htop : q < 2 * n
    · obtain ⟨r, rfl⟩ : ∃ r, q = n + r := ⟨q - n, by omega⟩
      have hr : r < n := by omega
      have hdiv : (k * n + (n + r)) / n = k + 1 := by
        rw [show k * n + (n + r) = r + (k + 1) * n by ring,
          Nat.add_mul_div_right _ _ hpos, Nat.div_eq_of_lt hr]
        omega
      have hmod : (k * n + (n + r)) % n = r := by
        rw [show k * n + (n + r) = r + (k + 1) * n by ring,
          Nat.add_mul_mod_self_right, Nat.mod_eq_of_lt hr]
      rw [hdiv, hmod]
      push_cast
      congr 2
      ring
    · obtain rfl : q = 2 * n := by omega
      have hdiv : (k * n + 2 * n) / n = k + 2 := by
        rw [← Nat.add_mul, Nat.mul_div_cancel _ hpos]
      have hmod : (k * n + 2 * n) % n = 0 := by
        rw [← Nat.add_mul, Nat.mul_mod_left]
      rw [hdiv, hmod]
      push_cast
      rw [show (k : Int) + 2 - 1 + f.emin = 1 + (k + f.emin) by ring,
        two_add]
      simp only [two, zpow_one]
      ring

/-- The exponent and the significand of a pattern. -/
theorem exists_scaled (p : Nat) :
    ∃ k q, p = k * 2 ^ f.t + q ∧ q < 2 ^ (f.t + 1)
      ∧ (k = 0 ∨ 2 ^ f.t ≤ q) := by
  have hpos : 0 < 2 ^ f.t := Nat.two_pow_pos f.t
  have hsucc : 2 ^ (f.t + 1) = 2 * 2 ^ f.t := by ring
  have hmod := Nat.mod_lt p hpos
  have hdiv := Nat.div_add_mod' p (2 ^ f.t)
  by_cases h : p < 2 ^ f.t
  · exact ⟨0, p, by omega, by omega, .inl rfl⟩
  · refine ⟨p / 2 ^ f.t - 1, 2 ^ f.t + p % 2 ^ f.t, ?_, by omega,
      .inr (by omega)⟩
    have hge : 1 ≤ p / 2 ^ f.t :=
      (Nat.one_le_div_iff hpos).mpr (by omega)
    obtain ⟨e, he⟩ : ∃ e, p / 2 ^ f.t = e + 1 :=
      ⟨p / 2 ^ f.t - 1, by omega⟩
    rw [he] at hdiv ⊢
    rw [Nat.add_mul] at hdiv
    simp only [Nat.add_sub_cancel]
    omega

/-- Patterns are in the order of their values. -/
theorem val_lt_succ (p : Nat) : f.val p < f.val (p + 1) := by
  obtain ⟨k, q, rfl, hq, hk⟩ := f.exists_scaled p
  rw [f.val_scaled (by omega) hk, Nat.add_assoc,
    f.val_scaled (by omega) (by omega)]
  apply mul_lt_mul_of_pos_right _ (two_pos _)
  exact_mod_cast Nat.lt_succ_self q

theorem val_strictMono : StrictMono f.val :=
  strictMono_nat_of_lt_succ f.val_lt_succ

theorem val_nonneg (p : Nat) : 0 ≤ f.val p := by
  have h0 : f.val 0 = 0 := by
    unfold val
    rw [if_pos (Nat.two_pow_pos f.t)]
    simp
  rw [← h0]
  exact f.val_strictMono.monotone (Nat.zero_le p)

-- ================================================== rounding to nearest

/-- The pattern nearest to a number that is not negative, the even one of
two that are equally near. -/
def IsNearest (x : Rat) (p : Nat) : Prop :=
  p ≤ f.inf ∧ ∀ q ≤ f.inf, q ≠ p →
    |x - f.val p| < |x - f.val q|
      ∨ |x - f.val p| = |x - f.val q| ∧ p % 2 = 0 ∧ q % 2 = 1

variable {f}

/-- There is one nearest pattern at most. -/
theorem IsNearest.unique {x : Rat} {p q : Nat} (hp : f.IsNearest x p)
    (hq : f.IsNearest x q) : p = q := by
  by_contra hne
  rcases hp.2 q hq.1 (Ne.symm hne) with h | ⟨heq, -, hodd⟩
  · rcases hq.2 p hp.1 hne with h' | ⟨h', -, -⟩
    · exact absurd h (not_lt.mpr h'.le)
    · exact absurd h' (ne_of_gt h)
  · rcases hq.2 p hp.1 hne with h' | ⟨-, heven, -⟩
    · exact absurd h' (not_lt.mpr heq.le)
    · omega

/-- A number between two neighbours rounds to one of them. -/
theorem isNearest_of_between {x : Rat} {a p : Nat} (ha : a + 1 ≤ f.inf)
    (hlo : f.val a ≤ x) (hhi : x ≤ f.val (a + 1))
    (hp : p = a ∧ (x - f.val a < f.val (a + 1) - x
          ∨ x - f.val a = f.val (a + 1) - x ∧ a % 2 = 0)
      ∨ p = a + 1 ∧ (f.val (a + 1) - x < x - f.val a
          ∨ f.val (a + 1) - x = x - f.val a ∧ a % 2 = 1)) :
    f.IsNearest x p := by
  have hstep := f.val_lt_succ a
  have hlow : ∀ q, q < a → f.val q < f.val a := fun q hq =>
    f.val_strictMono hq
  have hhigh : ∀ q, a + 1 < q → f.val (a + 1) < f.val q := fun q hq =>
    f.val_strictMono hq
  have habs : ∀ q, q ≤ a → |x - f.val q| = x - f.val q := fun q hq =>
    abs_of_nonneg (sub_nonneg.mpr
      ((f.val_strictMono.monotone hq).trans hlo))
  have habs' : ∀ q, a + 1 ≤ q → |x - f.val q| = f.val q - x := fun q hq => by
    rw [abs_sub_comm]
    exact abs_of_nonneg (sub_nonneg.mpr
      (hhi.trans (f.val_strictMono.monotone hq)))
  rcases hp with ⟨rfl, h⟩ | ⟨rfl, h⟩
  · refine ⟨by omega, fun q _ hne => ?_⟩
    rw [habs p (Nat.le_refl p)]
    rcases Nat.lt_or_ge q (p + 1) with hq | hq
    · rw [habs q (by omega)]
      have := hlow q (by omega)
      exact .inl (by linarith)
    · rw [habs' q hq]
      rcases Nat.lt_or_ge (p + 1) q with hq' | hq'
      · have := hhigh q hq'
        rcases h with h | ⟨h, -⟩ <;> exact .inl (by linarith)
      · obtain rfl : q = p + 1 := by omega
        rcases h with h | ⟨h, heven⟩
        · exact .inl h
        · exact .inr ⟨h, heven, by omega⟩
  · refine ⟨ha, fun q _ hne => ?_⟩
    rw [habs' (a + 1) (Nat.le_refl _)]
    rcases Nat.lt_or_ge q (a + 1) with hq | hq
    · rw [habs q (by omega)]
      rcases Nat.lt_or_ge q a with hq' | hq'
      · have := hlow q hq'
        rcases h with h | ⟨h, -⟩ <;> exact .inl (by linarith)
      · obtain rfl : q = a := by omega
        rcases h with h | ⟨h, hodd⟩
        · exact .inl h
        · exact .inr ⟨h, by omega, hodd⟩
    · rw [habs' q hq]
      have := hhigh q (by omega)
      exact .inl (by linarith)

/-- From the value of infinity on, numbers round to it. -/
theorem isNearest_inf {x : Rat} (h : f.val f.inf ≤ x) :
    f.IsNearest x f.inf := by
  refine ⟨Nat.le_refl _, fun q hq hne => .inl ?_⟩
  have hlt := f.val_strictMono (show q < f.inf by omega)
  rw [abs_of_nonneg (by linarith), abs_of_nonneg (by linarith)]
  linarith

/-- A value of the format rounds to itself. -/
theorem isNearest_val {p : Nat} (hp : p ≤ f.inf) :
    f.IsNearest (f.val p) p := by
  refine ⟨hp, fun q _ hne => .inl ?_⟩
  rw [sub_self, abs_zero]
  apply abs_pos.mpr
  intro h
  exact hne (f.val_strictMono.injective (sub_eq_zero.mp h)).symm

-- =================================================== cutting a number off

/-- A natural number over a power of two, to the nearest natural number,
ties to even. -/
def rne (m s : Nat) : Nat :=
  m / 2 ^ s + if 2 ^ s < 2 * (m % 2 ^ s)
      ∨ 2 * (m % 2 ^ s) = 2 ^ s ∧ m / 2 ^ s % 2 = 1 then 1 else 0

/-- A number cut at the last place of the format rounds to the quotient,
at its exponent. -/
theorem isNearest_scaled {m s k : Nat} {e : Int}
    (he : e + s = k + f.emin) (hq : m / 2 ^ s < 2 ^ (f.t + 1))
    (hk : k = 0 ∨ 2 ^ f.t ≤ m / 2 ^ s)
    (hinf : k * 2 ^ f.t + m / 2 ^ s + 1 ≤ f.inf) :
    f.IsNearest (m * two e) (k * 2 ^ f.t + rne m s) := by
  have hpos : 0 < 2 ^ s := Nat.two_pow_pos s
  have hmod := Nat.mod_lt m hpos
  have hdiv := Nat.div_add_mod' m (2 ^ s)
  have hu : two (k + f.emin) = two e * ((2 ^ s : Nat) : Rat) := by
    rw [← he, two_add, two_nat]
  have htwo := two_pos e
  have hparity : ∀ q, (k * 2 ^ f.t + q) % 2 = q % 2 := by
    intro q
    obtain ⟨t, ht⟩ : ∃ t, f.t = t + 1 := ⟨f.t - 1, by have := f.t_pos; omega⟩
    rw [ht, pow_succ, ← Nat.mul_assoc]
    omega
  have hlo : f.val (k * 2 ^ f.t + m / 2 ^ s)
      = ((m / 2 ^ s * 2 ^ s : Nat) : Rat) * two e := by
    rw [f.val_scaled (by omega) hk, hu]
    push_cast
    ring
  have hhi : f.val (k * 2 ^ f.t + m / 2 ^ s + 1)
      = ((m / 2 ^ s * 2 ^ s + 2 ^ s : Nat) : Rat) * two e := by
    rw [Nat.add_assoc, f.val_scaled (by omega) (by omega), hu]
    push_cast
    ring
  unfold rne
  generalize m / 2 ^ s = q at *
  generalize hr : m % 2 ^ s = r at *
  generalize 2 ^ s = d at *
  subst hdiv
  have hbelow : ((q * d + r : Nat) : Rat) * two e
      - f.val (k * 2 ^ f.t + q) = r * two e := by
    rw [hlo]
    push_cast
    ring
  have habove : f.val (k * 2 ^ f.t + q + 1)
      - ((q * d + r : Nat) : Rat) * two e = ((d : Rat) - r) * two e := by
    rw [hhi]
    push_cast
    ring
  have hle : (r : Rat) ≤ d := by exact_mod_cast hmod.le
  have hr0 : (0 : Rat) ≤ r := by exact_mod_cast Nat.zero_le r
  apply isNearest_of_between hinf
  · have : 0 ≤ (r : Rat) * two e := mul_nonneg hr0 htwo.le
    linarith
  · have : 0 ≤ ((d : Rat) - r) * two e :=
      mul_nonneg (by linarith) htwo.le
    linarith
  · rw [hbelow, habove, mul_lt_mul_iff_left₀ htwo,
      mul_lt_mul_iff_left₀ htwo, mul_left_inj' htwo.ne',
      mul_left_inj' htwo.ne', hparity]
    have hcast : ((d : Rat) - r < r ↔ d < 2 * r)
        ∧ ((r : Rat) < d - r ↔ 2 * r < d)
        ∧ ((r : Rat) = d - r ↔ 2 * r = d) := by
      refine ⟨?_, ?_, ?_⟩
      · rw [sub_lt_iff_lt_add, ← two_mul]
        exact_mod_cast Iff.rfl
      · rw [lt_sub_iff_add_lt, ← two_mul]
        exact_mod_cast Iff.rfl
      · rw [eq_sub_iff_add_eq, ← two_mul]
        exact_mod_cast Iff.rfl
    rw [hcast.1, hcast.2.1, hcast.2.2, eq_comm (a := (d : Rat) - r),
      hcast.2.2]
    by_cases hup : d < 2 * r ∨ 2 * r = d ∧ q % 2 = 1
    · rw [if_pos hup]
      exact .inr ⟨by omega, hup⟩
    · rw [if_neg hup]
      exact .inl ⟨by omega, by omega⟩

/-- A number short enough is the value of an even pattern. -/
theorem exists_even (f : Format) {n : Nat} {e : Int} (hn : n < 2 ^ f.t)
    (he : f.emin < e) : ∃ p, p % 2 = 0 ∧ f.val p = n * two e := by
  have hparity : ∀ k q, q % 2 = 0 → (k * 2 ^ f.t + q) % 2 = 0 := by
    intro k q hq
    obtain ⟨t, ht⟩ : ∃ t, f.t = t + 1 := ⟨f.t - 1, by have := f.t_pos; omega⟩
    rw [ht, pow_succ, ← Nat.mul_assoc]
    omega
  have hshift : ∀ j : Nat, ((n * 2 ^ (j + 1) : Nat) : Rat)
      * two (e - (j + 1)) = n * two e := by
    intro j
    rw [show two e = two ((j + 1 : Nat) + (e - (j + 1))) by
      congr 1
      push_cast
      ring, two_add, two_nat]
    push_cast
    ring
  have heven : ∀ j : Nat, n * 2 ^ (j + 1) % 2 = 0 := by
    intro j
    rw [pow_succ, ← Nat.mul_assoc]
    omega
  by_cases hn0 : n = 0
  · subst hn0
    refine ⟨0, rfl, ?_⟩
    unfold val
    rw [if_pos (Nat.two_pow_pos f.t)]
    simp
  have hlog : n.log2 < f.t := (Nat.log2_lt hn0).mpr hn
  -- normalised, unless the exponent does not go down that far
  obtain ⟨j, hj⟩ : ∃ j, f.t - n.log2 = j + 1 :=
    ⟨f.t - n.log2 - 1, by omega⟩
  have hupper : n * 2 ^ (j + 1) < 2 ^ (f.t + 1) := by
    calc n * 2 ^ (j + 1) < 2 ^ (n.log2 + 1) * 2 ^ (j + 1) :=
          Nat.mul_lt_mul_of_pos_right Nat.lt_log2_self
            (Nat.two_pow_pos _)
      _ = 2 ^ (f.t + 1) := by
          rw [← pow_add]
          congr 1
          omega
  by_cases hroom : f.emin ≤ e - (j + 1)
  · obtain ⟨k, hk⟩ := Int.eq_ofNat_of_zero_le
      (show 0 ≤ e - (j + 1) - f.emin by omega)
    have hlower : 2 ^ f.t ≤ n * 2 ^ (j + 1) := by
      calc 2 ^ f.t = 2 ^ n.log2 * 2 ^ (j + 1) := by
            rw [← pow_add]
            congr 1
            omega
        _ ≤ n * 2 ^ (j + 1) :=
            Nat.mul_le_mul_right _ (Nat.log2_self_le hn0)
    refine ⟨k * 2 ^ f.t + n * 2 ^ (j + 1), hparity _ _ (heven j), ?_⟩
    rw [f.val_scaled hupper.le (.inr hlower), ← hshift j]
    congr 2
    omega
  · obtain ⟨i, hi⟩ : ∃ i : Nat, e - f.emin = i + 1 :=
      ⟨(e - f.emin - 1).toNat, by omega⟩
    have hle : n * 2 ^ (i + 1) ≤ 2 ^ (f.t + 1) := by
      refine Nat.le_trans (Nat.mul_le_mul_left n ?_) hupper.le
      exact Nat.pow_le_pow_right (by omega) (by omega)
    refine ⟨n * 2 ^ (i + 1), heven i, ?_⟩
    have hval := f.val_scaled (k := 0) hle (.inl rfl)
    rw [Nat.zero_mul, Nat.zero_add] at hval
    rw [hval, ← hshift i]
    congr 2
    omega

-- ======================================================== rounding to odd

/-- A number rounded to odd: itself if it is a value, and else its odd
neighbour. -/
def IsOdd (f : Format) (x : Rat) (p : Nat) : Prop :=
  f.val p = x ∨ p % 2 = 1 ∧ f.val (p - 1) < x ∧ x < f.val (p + 1)

/-- Rounded to odd, a number is where it was among the values of even
patterns. -/
theorem IsOdd.compare {x : Rat} {p : Nat} (h : f.IsOdd x p) {c : Nat}
    (hc : c % 2 = 0) :
    (x < f.val c ↔ f.val p < f.val c) ∧ (f.val c < x ↔ f.val c < f.val p) := by
  rcases h with h | ⟨hodd, hlo, hhi⟩
  · rw [h]
    exact ⟨Iff.rfl, Iff.rfl⟩
  · rcases Nat.lt_or_ge c p with hlt | hge
    · have h1 := f.val_strictMono.monotone (show c ≤ p - 1 by omega)
      have h2 := f.val_strictMono hlt
      exact ⟨⟨fun h => by linarith, fun h => by linarith⟩,
        ⟨fun _ => h2, fun _ => by linarith⟩⟩
    · have h1 := f.val_strictMono.monotone (show p + 1 ≤ c by omega)
      have h2 := f.val_strictMono (show p < c by omega)
      exact ⟨⟨fun _ => h2, fun _ => by linarith⟩,
        ⟨fun h => by linarith, fun h => by linarith⟩⟩

/-- Half way from a pattern to the next. -/
def mid (f : Format) (p : Nat) : Rat := (f.val p + f.val (p + 1)) / 2

/-- Which of two numbers is nearer. -/
theorem nearer_iff {x a b : Rat} (h : a < b) :
    (|x - b| < |x - a| ↔ (a + b) / 2 < x)
      ∧ (|x - a| < |x - b| ↔ x < (a + b) / 2)
      ∧ (|x - b| = |x - a| ↔ x = (a + b) / 2) := by
  rcases abs_cases (x - a) with ⟨ha, ha'⟩ | ⟨ha, ha'⟩ <;>
    rcases abs_cases (x - b) with ⟨hb, hb'⟩ | ⟨hb, hb'⟩ <;>
    rw [ha, hb] <;>
    refine ⟨⟨fun _ => ?_, fun _ => ?_⟩, ⟨fun _ => ?_, fun _ => ?_⟩,
      ⟨fun _ => ?_, fun _ => ?_⟩⟩ <;>
    linarith

/-- Where a number lies that rounds to a pattern. -/
theorem isNearest_iff {x : Rat} {p : Nat} :
    f.IsNearest x p ↔ p ≤ f.inf
      ∧ (∀ q, q + 1 = p →
        ¬ x < f.mid q ∧ (f.mid q < x ∨ p % 2 = 0))
      ∧ (p < f.inf → ¬ f.mid p < x ∧ (x < f.mid p ∨ p % 2 = 0)) := by
  constructor
  · rintro ⟨hp, h⟩
    refine ⟨hp, fun q hq => ?_, fun hlt => ?_⟩
    · subst hq
      obtain ⟨h1, h2, h3⟩ := nearer_iff (x := x) (f.val_lt_succ q)
      unfold mid
      rcases h q (by omega) (by omega) with h | ⟨h, heven, -⟩
      · have := h1.mp h
        exact ⟨not_lt.mpr this.le, .inl this⟩
      · exact ⟨not_lt.mpr (h3.mp h).ge, .inr heven⟩
    · obtain ⟨h1, h2, h3⟩ := nearer_iff (x := x) (f.val_lt_succ p)
      unfold mid
      rcases h (p + 1) (by omega) (by omega) with h | ⟨h, heven, -⟩
      · have := h2.mp h
        exact ⟨not_lt.mpr this.le, .inl this⟩
      · exact ⟨not_lt.mpr (h3.mp h.symm).le, .inr heven⟩
  · rintro ⟨hp, hlo, hhi⟩
    refine ⟨hp, fun q hq hne => ?_⟩
    rcases Nat.lt_or_ge q p with hlt | hge
    · obtain ⟨r, rfl⟩ : ∃ r, p = r + 1 := ⟨p - 1, by omega⟩
      obtain ⟨h1, -, h3⟩ := nearer_iff (x := x) (f.val_strictMono hlt)
      obtain ⟨hge, hcase⟩ := hlo r rfl
      unfold mid at hge hcase
      rcases Nat.lt_or_ge q r with hqr | hqr
      · have := f.val_strictMono hqr
        exact .inl (h1.mpr (by linarith))
      · obtain rfl : q = r := by omega
        rcases lt_or_eq_of_le (not_lt.mp hge) with hx | hx
        · exact .inl (h1.mpr hx)
        · rcases hcase with hcase | heven
          · exact absurd hcase (by rw [hx]; exact lt_irrefl x)
          · exact .inr ⟨h3.mpr hx.symm, heven, by omega⟩
    · obtain ⟨-, h2, h3⟩ := nearer_iff (x := x)
        (f.val_strictMono (show p < q by omega))
      obtain ⟨hle, hcase⟩ := hhi (by omega)
      unfold mid at hle hcase
      rcases Nat.lt_or_ge (p + 1) q with hpq | hpq
      · have := f.val_strictMono hpq
        exact .inl (h2.mpr (by linarith [not_lt.mp hle]))
      · obtain rfl : q = p + 1 := by omega
        rcases lt_or_eq_of_le (not_lt.mp hle) with hx | hx
        · exact .inl (h2.mpr hx)
        · rcases hcase with hcase | heven
          · exact absurd hcase (by rw [hx]; exact lt_irrefl _)
          · exact .inr ⟨(h3.mpr hx).symm, heven, by omega⟩

/-- Half way between two neighbours of a format is an even pattern's value
in one that has two more bits. -/
theorem exists_even_mid {f g : Format} (ht : g.t + 2 ≤ f.t)
    (he : f.emin + 1 < g.emin) (p : Nat) :
    ∃ c, c % 2 = 0 ∧ f.val c = g.mid p := by
  obtain ⟨k, q, rfl, hq, hk⟩ := g.exists_scaled p
  have hlt : 2 * q + 1 < 2 ^ f.t := by
    calc 2 * q + 1 < 2 ^ (g.t + 2) := by
          rw [show g.t + 2 = g.t + 1 + 1 from rfl, pow_succ]
          omega
      _ ≤ 2 ^ f.t := Nat.pow_le_pow_right (by omega) ht
  obtain ⟨c, hc, hval⟩ := f.exists_even (e := k + g.emin - 1) hlt
    (by omega)
  refine ⟨c, hc, ?_⟩
  unfold mid
  rw [hval, Nat.add_assoc, g.val_scaled hq.le hk,
    g.val_scaled (by omega) (by omega),
    show two (k + g.emin) = two (1 + (k + g.emin - 1)) by
      congr 1
      ring, two_add]
  simp only [two, zpow_one]
  push_cast
  ring

/-- Rounding to odd, and then to nearest in a format with two bits less,
is rounding to nearest in that format. -/
theorem isNearest_odd {f g : Format} (ht : g.t + 2 ≤ f.t)
    (he : f.emin + 1 < g.emin) {x : Rat} {p : Nat} (h : f.IsOdd x p)
    (q : Nat) : g.IsNearest (f.val p) q ↔ g.IsNearest x q := by
  have hcmp : ∀ r, (f.val p < g.mid r ↔ x < g.mid r)
      ∧ (g.mid r < f.val p ↔ g.mid r < x) := by
    intro r
    obtain ⟨c, hc, hval⟩ := exists_even_mid ht he r
    rw [← hval]
    exact ⟨(h.compare hc).1.symm, (h.compare hc).2.symm⟩
  rw [isNearest_iff, isNearest_iff]
  simp only [(hcmp _).1, (hcmp _).2]

end Format

end X87Sidecar.Lib
