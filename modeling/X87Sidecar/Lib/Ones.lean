/-
Runs of ones and repeated elements in a word.

A number is a run of ones when filling the zeros below it leaves a power
of two less one (`ones_of_filled`), and it repeats an element of `2 h`
bits in elements of `h` when the two halves of the element agree
(`Repeats.halve`).
-/
import Mathlib.Data.BitVec

namespace X87Sidecar.Lib

-- ============================================================ one run

/-- Ones from bit `lo` up to bit `hi`. -/
def Ones (lo hi x : Nat) : Prop :=
  ∀ i, x.testBit i = decide (lo ≤ i ∧ i < hi)

/-- A power of two times an odd number. -/
theorem exists_odd {x : Nat} (hx : x ≠ 0) :
    ∃ lo y, x = 2 ^ lo * (2 * y + 1) := by
  induction x using Nat.strongRecOn with
  | ind x ih =>
      rcases Nat.mod_two_eq_zero_or_one x with h | h
      · obtain ⟨lo, y, hy⟩ := ih (x / 2) (by omega) (by omega)
        refine ⟨lo + 1, y, ?_⟩
        rw [Nat.pow_succ, Nat.mul_comm _ 2, Nat.mul_assoc, ← hy]
        omega
      · exact ⟨0, x / 2, by omega⟩

/-- The zeros below the lowest one, filled. -/
theorem filled_eq (lo y : Nat) :
    (2 ^ lo * (2 * y + 1) - 1) ||| 2 ^ lo * (2 * y + 1)
      = 2 ^ lo * (2 * y + 1) + (2 ^ lo - 1) := by
  have hpos : 0 < 2 ^ lo := Nat.two_pow_pos lo
  have hlt : 2 ^ lo - 1 < 2 ^ lo := Nat.sub_one_lt (by omega)
  have hpred : 2 ^ lo * (2 * y + 1) - 1
      = 2 ^ lo * (2 * y) + (2 ^ lo - 1) := by
    rw [Nat.mul_add]
    omega
  rw [hpred]
  apply Nat.eq_of_testBit_eq
  intro i
  rw [Nat.testBit_or, Nat.testBit_two_pow_mul_add _ hlt,
    Nat.testBit_two_pow_mul_add _ hlt, Nat.testBit_two_pow_mul]
  by_cases hi : i < lo
  · simp [hi, Nat.not_le_of_lt hi]
  · simp only [hi, if_false, ge_iff_le, Nat.not_lt.mp hi, decide_true,
      Bool.true_and]
    rcases Nat.eq_zero_or_pos (i - lo) with h0 | h0
    · simp [h0]
    · obtain ⟨k, hk⟩ := Nat.exists_eq_succ_of_ne_zero h0.ne'
      rw [hk, Nat.succ_eq_add_one, Nat.testBit_succ, Nat.testBit_succ]
      rw [show 2 * y / 2 = y by omega, show (2 * y + 1) / 2 = y by omega,
        Bool.or_self]

/-- A number whose filling is a power of two less one is a run. -/
theorem ones_of_filled {x n : Nat} (hx : x ≠ 0) (hn : x < 2 ^ n)
    (h : (((x - 1) ||| x) + 1) &&& ((x - 1) ||| x) = 0) :
    ∃ lo hi, lo < hi ∧ hi ≤ n ∧ Ones lo hi x := by
  obtain ⟨lo, y, rfl⟩ := exists_odd hx
  have hpos : 0 < 2 ^ lo := Nat.two_pow_pos lo
  rw [filled_eq] at h
  have hsucc : 2 ^ lo * (2 * y + 1) + (2 ^ lo - 1) + 1
      = 2 ^ lo * (2 * y + 1) + 2 ^ lo := by omega
  obtain ⟨hi, hhi⟩ := (Nat.and_sub_one_eq_zero_iff_isPowerOfTwo
    (n := 2 ^ lo * (2 * y + 1) + (2 ^ lo - 1) + 1) (by omega)).mp
    (by simpa using h)
  rw [hsucc] at hhi
  have hx1 : 2 ^ lo * 1 ≤ 2 ^ lo * (2 * y + 1) :=
    Nat.mul_le_mul_left _ (by omega)
  have hlohi : lo < hi := by
    rw [← Nat.pow_lt_pow_iff_right (a := 2) (by decide)]
    omega
  have hhalf : 2 ^ (lo + 1) ≤ 2 ^ hi :=
    Nat.pow_le_pow_right (by decide) hlohi
  rw [Nat.pow_succ] at hhalf
  refine ⟨lo, hi, hlohi, ?_, ?_⟩
  · have hle : 2 ^ (hi - 1) ≤ 2 ^ lo * (2 * y + 1) := by
      have h1 : 2 ^ hi = 2 ^ (hi - 1) * 2 := by
        rw [← Nat.pow_succ]
        congr 1
        omega
      have h2 : 2 ^ lo ≤ 2 ^ (hi - 1) :=
        Nat.pow_le_pow_right (by decide) (by omega)
      omega
    have := (Nat.pow_lt_pow_iff_right (a := 2) (by decide)).mp
      (Nat.lt_of_le_of_lt hle hn)
    omega
  · intro i
    have hfac : 2 * y + 1 = 2 ^ (hi - lo) - 1 := by
      have hmul : 2 ^ lo * (2 * y + 1 + 1) = 2 ^ lo * 2 ^ (hi - lo) := by
        rw [← Nat.pow_add, Nat.add_sub_cancel' hlohi.le, Nat.mul_add,
          Nat.mul_one, hhi]
      have := Nat.eq_of_mul_eq_mul_left hpos hmul
      omega
    rw [hfac, Nat.testBit_two_pow_mul, Nat.testBit_two_pow_sub_one,
      ← Bool.decide_and]
    apply decide_eq_decide.mpr
    omega

/-- A run filled below is a power of two less one. -/
theorem Ones.filled {lo hi x : Nat} (h : Ones lo hi x) (hlt : lo < hi) :
    x ≠ 0 ∧ (((x - 1) ||| x) + 1) &&& ((x - 1) ||| x) = 0 := by
  obtain ⟨y, hy⟩ : ∃ y, 2 ^ (hi - lo) - 1 = 2 * y + 1 := by
    obtain ⟨k, hk⟩ := Nat.exists_eq_add_of_lt hlt
    refine ⟨2 ^ k - 1, ?_⟩
    have := Nat.two_pow_pos k
    rw [show hi - lo = k + 1 by omega, Nat.pow_succ]
    omega
  have hx : x = 2 ^ lo * (2 * y + 1) := by
    rw [← hy]
    apply Nat.eq_of_testBit_eq
    intro i
    rw [h i, Nat.testBit_two_pow_mul, Nat.testBit_two_pow_sub_one,
      ← Bool.decide_and]
    apply decide_eq_decide.mpr
    omega
  have hpos : 0 < 2 ^ lo := Nat.two_pow_pos lo
  have hsum : 2 ^ lo * (2 * y + 1) + (2 ^ lo - 1) = 2 ^ hi - 1 := by
    have hmul : 2 ^ lo * (2 * y + 1 + 1) = 2 ^ hi := by
      rw [← hy, Nat.sub_add_cancel (Nat.two_pow_pos _), ← Nat.pow_add,
        Nat.add_sub_cancel' hlt.le]
    rw [Nat.mul_add, Nat.mul_one] at hmul
    omega
  refine ⟨?_, ?_⟩
  · rw [hx]
    exact Nat.mul_ne_zero hpos.ne' (by omega)
  · rw [hx, filled_eq, hsum, Nat.sub_add_cancel (Nat.two_pow_pos _),
      Nat.and_two_pow_sub_one_eq_mod, Nat.mod_self]

/-- A run that is its complement's. -/
theorem Ones.lt {lo hi x n : Nat} (h : Ones lo hi x) (hn : hi ≤ n) :
    x < 2 ^ n := by
  apply Nat.lt_pow_two_of_testBit
  intro i hi'
  rw [h i, decide_eq_false_iff_not]
  omega

-- =================================================== repeated elements

/-- The low `w` bits of `v` repeat the low `e`. -/
def Repeats (w e v : Nat) : Prop :=
  ∀ i < w, v.testBit i = v.testBit (i % e)

/-- Nothing is repeated yet. -/
theorem Repeats.whole (w v : Nat) : Repeats w w v := by
  intro i hi
  rw [Nat.mod_eq_of_lt hi]

/-- When the two halves of the element agree, half of it is enough. -/
theorem Repeats.halve {w h v : Nat} (hr : Repeats w (2 * h) v)
    (hhalf : ((v >>> h) ^^^ v) % 2 ^ h = 0) : Repeats w h v := by
  intro i hi
  rw [hr i hi]
  by_cases h0 : h = 0
  · subst h0
    rfl
  have hlow : ∀ j < h, v.testBit (h + j) = v.testBit j := by
    intro j hj
    have hbit := congrArg (Nat.testBit · j) hhalf
    simpa [Nat.testBit_mod_two_pow, Nat.testBit_shiftRight, hj]
      using hbit
  have hlt : i % (2 * h) < 2 * h := Nat.mod_lt _ (by omega)
  have hmod : i % h = i % (2 * h) % h :=
    (Nat.mod_mod_of_dvd i (Nat.dvd_mul_left h 2)).symm
  rw [hmod]
  generalize i % (2 * h) = j at hlt ⊢
  by_cases hj : j < h
  · rw [Nat.mod_eq_of_lt hj]
  · obtain ⟨k, rfl⟩ := Nat.exists_eq_add_of_le (Nat.not_lt.mp hj)
    rw [Nat.add_mod_left, Nat.mod_eq_of_lt (by omega)]
    exact hlow k (by omega)

/-- The halves of a longer element agree. -/
theorem Repeats.halves {w e h v : Nat} (hr : Repeats w e v)
    (hdvd : e ∣ h) (hw : 2 * h ≤ w) :
    ((v >>> h) ^^^ v) % 2 ^ h = 0 := by
  apply Nat.eq_of_testBit_eq
  intro i
  rw [Nat.testBit_mod_two_pow, Nat.testBit_xor, Nat.testBit_shiftRight,
    Nat.zero_testBit]
  by_cases hi : i < h
  · obtain ⟨k, rfl⟩ := hdvd
    rw [hr (e * k + i) (by omega), hr i (by omega), Nat.mul_add_mod,
      Bool.xor_self, Bool.and_false]
  · simp [hi]

-- ============================================================ rotation

/-- A run of `n` ones from bit `s` of an element, as a rotation sees
it. -/
theorem rotated_run {e s n j : Nat} (hs : s + n ≤ e) (hj : j < e) :
    (j + (e - s)) % e < n ↔ s ≤ j ∧ j < s + n := by
  by_cases h : j < s
  · rw [Nat.mod_eq_of_lt (by omega)]
    omega
  · rw [show j + (e - s) = e + (j - s) by omega, Nat.add_mod_left,
      Nat.mod_eq_of_lt (by omega)]
    omega

/-- A run of ones that goes round: all of the element but `[lo, hi)`. -/
theorem rotated_gap {e lo hi j : Nat} (hlo : lo < hi) (hhi : hi ≤ e)
    (hj : j < e) :
    (j + (e - hi)) % e < e - (hi - lo) ↔ ¬ (lo ≤ j ∧ j < hi) := by
  by_cases h : j < hi
  · rw [Nat.mod_eq_of_lt (by omega)]
    omega
  · rw [show j + (e - hi) = e + (j - hi) by omega, Nat.add_mod_left,
      Nat.mod_eq_of_lt (by omega)]
    omega

/-- A run that goes round an element repeats nothing shorter. -/
theorem rotated_run_period {e d r n : Nat} (hd : 0 < d) (hde : d < e)
    (hn : 0 < n) (hne : n < e)
    (h : ∀ i, (i + d + r) % e < n ↔ (i + r) % e < n) : False := by
  -- the last one of the run, and the zero behind it
  have hlast := h (n - 1 + r * (e - 1))
  have hnext := h (n + r * (e - 1))
  have hround : r * (e - 1) + r = r * e := by
    rw [← Nat.mul_succ, Nat.succ_eq_add_one, Nat.sub_add_cancel (by omega)]
  have hmod : ∀ a, (a + r * (e - 1) + r) % e = a % e := by
    intro a
    rw [Nat.add_assoc, hround, Nat.add_mul_mod_self_right]
  rw [show n - 1 + r * (e - 1) + d + r = n - 1 + d + r * (e - 1) + r by omega,
    hmod, hmod, Nat.mod_eq_of_lt (by omega : n - 1 < e)] at hlast
  rw [show n + r * (e - 1) + d + r = n + d + r * (e - 1) + r by omega,
    hmod, hmod, Nat.mod_eq_of_lt hne] at hnext
  have hin : (n - 1 + d) % e < n := hlast.mpr (by omega)
  have hwrap : e ≤ n - 1 + d := by
    by_contra hle
    rw [Nat.mod_eq_of_lt (by omega)] at hin
    omega
  have hout : (n + d) % e < n := by
    rw [Nat.mod_eq_sub_mod (by omega), Nat.mod_eq_of_lt (by omega)]
    omega
  have := hnext.mp hout
  omega

end X87Sidecar.Lib
