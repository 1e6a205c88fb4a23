/-
Every logical immediate there is, is found.

What the instruction set makes of an encoding, and which encodings it
reserves, is `logicalImmediate`. A value that some encoding stands for
repeats a run of ones that goes round an element; such a run repeats
nothing shorter (`rotated_run_period`), so that the search stops at this
element and finds the run or its complement.
-/
import X87Sidecar.Proofs.Translate.Immediate

namespace X87Sidecar.Asm

open Lib

/-- The value a logical immediate stands for at a width, and none for an
encoding that is reserved: an element of one bit, one of ones only, or one
of 64 bits under a W register. -/
def logicalImmediate (is64 : Bool) (enc : LogicalImmEncoding) :
    Option (BitVec 64) :=
  let len := Nat.log2 ((if enc.n then 64 else 0) + (~~~enc.imms).toNat)
  if (enc.n && !is64) || len < 1
      || enc.imms.toNat % 2 ^ len = 2 ^ len - 1 then none
  else some (Arm.narrow is64 (Arm.decodeBitMask enc.n enc.immr enc.imms))

/-- The element found is no larger than any that is repeated. -/
theorem elementSize_le {w v j : Nat} (fuel : Nat) {k : Nat}
    (h : Repeats w (2 ^ (j + 1)) v) (hjk : j ≤ k + 1)
    (hw : 2 ^ (k + 2) ≤ w) (hfuel : k < fuel) :
    elementSize v fuel (2 ^ (k + 2)) ≤ 2 ^ (j + 1) := by
  induction fuel generalizing k with
  | zero => omega
  | succ fuel ih =>
      have hhalf : 2 ^ (k + 2) / 2 = 2 ^ (k + 1) := by
        rw [Nat.pow_succ]
        exact Nat.mul_div_cancel _ (by decide)
      have hdouble : 2 ^ (k + 2) = 2 * 2 ^ (k + 1) := by
        rw [Nat.pow_succ, Nat.mul_comm]
      rw [elementSize, hhalf]
      rcases Nat.lt_or_ge k j with hlt | hle
      · obtain rfl : j = k + 1 := by omega
        split
        · exact Nat.le_refl _
        · split
          · next hlt' =>
            have hk : k ≠ 0 := by
              rintro rfl
              simp at hlt'
            obtain ⟨k, rfl⟩ := Nat.exists_eq_succ_of_ne_zero hk
            obtain ⟨j, hj, hes, -⟩ := @elementSize_spec (2 ^ (k + 2)) v fuel
              k (Repeats.whole _ v)
            rw [hes]
            exact Nat.pow_le_pow_right (by decide) (by omega)
          · exact Nat.pow_le_pow_right (by decide) (by omega)
      · rw [if_neg (not_not.mpr (h.halves
          (Nat.pow_dvd_pow 2 (by omega)) (by omega)))]
        split
        · next hlt =>
          have hk : k ≠ 0 := by
            rintro rfl
            simp at hlt
          obtain ⟨k, rfl⟩ := Nat.exists_eq_succ_of_ne_zero hk
          have hw' : 2 ^ (k + 2) ≤ w :=
            le_trans (Nat.pow_le_pow_right (by decide) (by omega)) hw
          exact ih (by omega) hw' (by omega)
        · next hge =>
          have hk : k = 0 := by
            by_contra hk
            have : 2 ^ 2 ≤ 2 ^ (k + 1) :=
              Nat.pow_le_pow_right (by decide) (by omega)
            omega
          subst hk
          exact Nat.pow_le_pow_right (by decide) (by omega)


/-- An element that is a run of ones, going round or not, is found to be
one, or its complement is. -/
theorem isRun_rotated {e r n x : Nat} (hr : r < e) (hn : 0 < n)
    (hne : n < e) (hx : x < 2 ^ e)
    (h : ∀ i < e, x.testBit i = decide ((i + r) % e < n)) :
    (x ≠ 0 ∧ isRun x = true)
      ∨ ((2 ^ e - 1) ^^^ x ≠ 0 ∧ isRun ((2 ^ e - 1) ^^^ x) = true) := by
  have hhigh : ∀ i, e ≤ i → x.testBit i = false := fun i hi =>
    Nat.testBit_lt_two_pow (Nat.lt_of_lt_of_le hx
      (Nat.pow_le_pow_right (by decide) hi))
  have hmod : ∀ i < e,
      (i + r) % e = if i + r < e then i + r else i + r - e := by
    intro i hi
    split
    · exact Nat.mod_eq_of_lt ‹_›
    · rw [Nat.mod_eq_sub_mod (by omega), Nat.mod_eq_of_lt (by omega)]
  by_cases hround : 0 < r ∧ r < n
  · -- the ones go round: the zeros are one run
    have hzeros : Ones (n - r) (e - r) ((2 ^ e - 1) ^^^ x) := by
      intro i
      rw [Nat.testBit_xor, Nat.testBit_two_pow_sub_one]
      by_cases hi : i < e
      · rw [h i hi, hmod i hi, decide_eq_true hi, Bool.true_xor,
          ← decide_not]
        apply decide_eq_decide.mpr
        split <;> omega
      · rw [hhigh i (by omega), decide_eq_false hi, Bool.xor_self,
          eq_comm, decide_eq_false_iff_not]
        omega
    obtain ⟨hne0, hfill⟩ := hzeros.filled (by omega)
    exact .inr ⟨hne0, decide_eq_true hfill⟩
  · have hones : Ones ((e - r) % e) ((e - r) % e + n) x := by
      intro i
      have hlo : (e - r) % e = if r = 0 then 0 else e - r := by
        split
        · next h0 => rw [h0, Nat.sub_zero, Nat.mod_self]
        · exact Nat.mod_eq_of_lt (by omega)
      rw [hlo]
      by_cases hi : i < e
      · rw [h i hi, hmod i hi]
        apply decide_eq_decide.mpr
        split <;> split <;> omega
      · rw [hhigh i (by omega), eq_comm, decide_eq_false_iff_not]
        split <;> omega
    obtain ⟨hne0, hfill⟩ := hones.filled (by omega)
    exact .inl ⟨hne0, decide_eq_true hfill⟩

/-- What an encoding that is not reserved makes of the bits of a value: a
run of ones, not all of the element, at every element. -/
theorem logicalImmediate_spec {is64 : Bool} {enc : LogicalImmEncoding}
    {value : BitVec 64} {w : Nat} (hw : (if is64 then 64 else 32) = w)
    (h : logicalImmediate is64 enc = some (Arm.narrow is64 value)) :
    ∃ j r n, 2 ^ (j + 1) ≤ w ∧ r < 2 ^ (j + 1) ∧ 0 < n
      ∧ n < 2 ^ (j + 1) ∧ ∀ i < w, (value.toNat % 2 ^ w).testBit i
        = decide ((i + r) % 2 ^ (j + 1) < n) := by
  unfold logicalImmediate at h
  dsimp only at h
  generalize hlen : Nat.log2 ((if enc.n then 64 else 0)
    + (~~~enc.imms).toNat) = len at h
  rw [Option.ite_none_left_eq_some, Option.some.injEq] at h
  obtain ⟨hok, hval⟩ := h
  simp only [Bool.or_eq_true, Bool.and_eq_true, Bool.not_eq_true',
    decide_eq_true_iff, not_or, not_and, Bool.not_eq_false] at hok
  obtain ⟨⟨hn, hpos⟩, hones⟩ := hok
  obtain ⟨j, rfl⟩ := Nat.exists_eq_add_of_lt (Nat.not_lt.mp hpos)
  rw [Nat.zero_add] at *
  have hmod : enc.imms.toNat % 2 ^ (j + 1) < 2 ^ (j + 1) :=
    Nat.mod_lt _ (Nat.two_pow_pos _)
  refine ⟨j, enc.immr.toNat % 2 ^ (j + 1),
    enc.imms.toNat % 2 ^ (j + 1) + 1, ?_,
    Nat.mod_lt _ (Nat.two_pow_pos _), Nat.succ_pos _, by omega, ?_⟩
  · -- only 64 bits have `N`
    have hlt := (~~~enc.imms).isLt
    have hlog : ∀ a b, a < 2 ^ b → 0 < b → Nat.log2 a < b := by
      intro a b hab hb
      by_cases h0 : a = 0
      · rw [h0]
        exact hb
      · exact (Nat.log2_lt h0).mpr hab
    cases is64 with
    | true =>
        have := hlog _ 7 (show (if enc.n then 64 else 0)
          + (~~~enc.imms).toNat < 2 ^ 7 by split <;> omega) (by decide)
        rw [← hw]
        have hle : 2 ^ (j + 1) ≤ 2 ^ 6 :=
          Nat.pow_le_pow_right (by decide) (by omega)
        exact hle
    | false =>
        have hfalse : enc.n = false := by
          cases henc : enc.n with
          | false => rfl
          | true => exact absurd (hn henc) (by decide)
        rw [hfalse] at hlen
        have := hlog _ 6 (show (if false = true then 64 else 0)
          + (~~~enc.imms).toNat < 2 ^ 6 by simpa using hlt) (by decide)
        rw [← hw]
        have hle : 2 ^ (j + 1) ≤ 2 ^ 5 :=
          Nat.pow_le_pow_right (by decide) (by omega)
        exact hle
  · intro i hi
    have h64 : i < 64 := by
      have : w ≤ 64 := by
        rw [← hw]
        split <;> omega
      omega
    have hbit := congrArg (BitVec.getLsbD · i) hval
    have hnarrow : ∀ v : BitVec 64,
        (Arm.narrow is64 v).getLsbD i = v.getLsbD i := by
      intro v
      cases is64 with
      | true => rfl
      | false =>
          have h32 : i < 32 := by
            rw [← hw] at hi
            exact hi
          simp [Arm.narrow, h64, h32]
    simp only [hnarrow] at hbit
    rw [Nat.testBit_mod_two_pow, decide_eq_true hi, Bool.true_and]
    show value.getLsbD i = _
    rw [← hbit, Arm.decodeBitMask]
    rw [hlen, Arm.getLsbD_ofBits _ h64]
    apply decide_eq_decide.mpr
    exact Nat.lt_succ_iff.symm

/-- What has an encoding is found to have one. -/
theorem is_bitmask_immediate_complete {is64 : Bool} {value : BitVec 64}
    {enc : LogicalImmEncoding}
    (h : logicalImmediate is64 enc = some (Arm.narrow is64 value)) :
    (is_bitmask_immediate is64 value).isSome = true := by
  unfold is_bitmask_immediate
  dsimp only
  generalize hw : (if is64 then 64 else 32) = w
  obtain ⟨j, r, n, hew, hr, hn, hne, hbits⟩ := logicalImmediate_spec hw h
  have hk : ∃ k, w = 2 ^ (k + 2) ∧ k ≤ 4 := by
    cases is64 with
    | true => exact ⟨4, hw.symm, by omega⟩
    | false => exact ⟨3, hw.symm, by omega⟩
  obtain ⟨k, hwk, hk4⟩ := hk
  generalize hv : value.toNat % 2 ^ w = v at hbits ⊢
  have hjk : j ≤ k + 1 := by
    rw [hwk] at hew
    have := (Nat.pow_le_pow_iff_right (a := 2) (by decide)).mp hew
    omega
  generalize he : 2 ^ (j + 1) = e at *
  have hepos : 0 < e := by omega
  have hrep : Repeats w e v := by
    intro i hi
    rw [hbits i hi, hbits _ (Nat.lt_of_lt_of_le (Nat.mod_lt i hepos) hew),
      Nat.mod_add_mod]
  -- the element found is this one
  have hes : elementSize v 6 w = e := by
    obtain ⟨j', -, hes, hrep'⟩ := elementSize_spec (w := w) 6
      (hwk ▸ Repeats.whole (2 ^ (k + 2)) v : Repeats w (2 ^ (k + 2)) v)
    have hle := elementSize_le (w := w) 6 (he.symm ▸ hrep) hjk
      (Nat.le_of_eq hwk.symm) (by omega)
    rw [he] at hle
    rw [hwk]
    apply Nat.le_antisymm hle
    by_contra hlt
    rw [hes] at hlt hle
    have hdvd : 2 ^ (j' + 1) ∣ e := by
      rw [← he] at hle ⊢
      exact Nat.pow_dvd_pow 2
        ((Nat.pow_le_pow_iff_right (a := 2) (by decide)).mp hle)
    refine @rotated_run_period e (2 ^ (j' + 1)) r n
      (Nat.two_pow_pos (j' + 1)) (by omega) hn hne fun i => ?_
    have hat : ∀ i, (i + r) % e < n ↔ v.testBit (i % 2 ^ (j' + 1)) = true := by
      intro i
      have hmod := Nat.mod_lt i hepos
      rw [← Nat.mod_mod_of_dvd i hdvd, ← hrep' _ (by omega),
        hbits _ (by omega), decide_eq_true_iff, Nat.mod_add_mod]
    rw [hat, hat, Nat.add_mod_right]
  have hxlt : v % 2 ^ e < 2 ^ e := Nat.mod_lt _ (Nat.two_pow_pos e)
  have hrun := isRun_rotated hr hn hne hxlt (fun i hi => by
    rw [Nat.testBit_mod_two_pow, decide_eq_true hi, Bool.true_and,
      hbits i (by omega)])
  -- a one and a zero
  have hmixed : ¬ (v + 1) % 2 ^ w < 2 := by
    have hvlt : v < 2 ^ w := hv ▸ Nat.mod_lt _ (Nat.two_pow_pos w)
    have hone : v.testBit ((e - r) % e) = true := by
      rw [hbits _ (Nat.lt_of_lt_of_le (Nat.mod_lt _ hepos) hew),
        Nat.mod_add_mod, Nat.sub_add_cancel hr.le, Nat.mod_self,
        decide_eq_true hn]
    have hzero : v.testBit (e - 1 - r) = false := by
      rw [hbits _ (by omega), show e - 1 - r + r = e - 1 by omega,
        Nat.mod_eq_of_lt (by omega), decide_eq_false (by omega)]
    have h0 : v ≠ 0 := by
      rintro rfl
      rw [Nat.zero_testBit] at hone
      cases hone
    have hall : v ≠ 2 ^ w - 1 := by
      intro hv1
      rw [hv1, Nat.testBit_two_pow_sub_one,
        decide_eq_true (by omega)] at hzero
      cases hzero
    rw [Nat.mod_eq_of_lt (by omega)]
    omega
  rw [if_neg hmixed, hes]
  by_cases hones : v % 2 ^ e ≠ 0 ∧ isRun (v % 2 ^ e) = true
  · rw [if_pos hones]
    rfl
  · obtain ⟨hne0, hz⟩ := hrun.resolve_left hones
    rw [if_neg hones, if_neg (by simp [hne0, hz])]
    rfl

/-- An encoded run is not reserved. -/
theorem logicalImmediate_encodeRun {is64 : Bool} {j rotation run_len : Nat}
    (hw : 2 ^ (j + 1) ≤ (if is64 then 64 else 32)) (hpos : 0 < run_len)
    (hlen : run_len < 2 ^ (j + 1)) :
    logicalImmediate is64 (encodeRun (2 ^ (j + 1)) rotation run_len)
      = some (Arm.narrow is64 (Arm.decodeBitMask
          (encodeRun (2 ^ (j + 1)) rotation run_len).n
          (encodeRun (2 ^ (j + 1)) rotation run_len).immr
          (encodeRun (2 ^ (j + 1)) rotation run_len).imms)) := by
  have hj : j ≤ if is64 then 5 else 4 := by
    cases is64 with
    | true =>
        have := (Nat.pow_le_pow_iff_right (a := 2) (m := 6)
          (by decide)).mp hw
        exact Nat.le_of_succ_le_succ this
    | false =>
        have := (Nat.pow_le_pow_iff_right (a := 2) (m := 5)
          (by decide)).mp hw
        exact Nat.le_of_succ_le_succ this
  have hall : ∀ b : Bool, ∀ j ≤ (if b then 5 else 4), ∀ r < 2 ^ (j + 1),
      r ≠ 0 →
      ¬ ((((encodeRun (2 ^ (j + 1)) 0 r).n && !b)
        || Nat.log2 ((if (encodeRun (2 ^ (j + 1)) 0 r).n then 64 else 0)
            + (~~~(encodeRun (2 ^ (j + 1)) 0 r).imms).toNat) < 1
        || (encodeRun (2 ^ (j + 1)) 0 r).imms.toNat
            % 2 ^ Nat.log2 ((if (encodeRun (2 ^ (j + 1)) 0 r).n then 64
                else 0) + (~~~(encodeRun (2 ^ (j + 1)) 0 r).imms).toNat)
          = 2 ^ Nat.log2 ((if (encodeRun (2 ^ (j + 1)) 0 r).n then 64
                else 0) + (~~~(encodeRun (2 ^ (j + 1)) 0 r).imms).toNat)
            - 1) = true) := by
    decide
  unfold logicalImmediate
  exact if_neg (hall is64 j hj run_len hlen (by omega))

/-- An encoding is found exactly where one stands for the value, and what
is found stands for it. -/
theorem is_bitmask_immediate_exact (is_64bit : Bool) (value : BitVec 64) :
    ((is_bitmask_immediate is_64bit value).isSome = true
        ↔ ∃ enc, logicalImmediate is_64bit enc
          = some (Arm.narrow is_64bit value))
      ∧ ∀ enc, is_bitmask_immediate is_64bit value = some enc →
        logicalImmediate is_64bit enc
          = some (Arm.narrow is_64bit value) := by
  have hdec : ∀ enc, is_bitmask_immediate is_64bit value = some enc →
      logicalImmediate is_64bit enc
        = some (Arm.narrow is_64bit value) := by
    intro enc h
    obtain ⟨j, rotation, run_len, hw, hpos, hlen, rfl, hval⟩ :=
      is_bitmask_immediate_spec h
    rw [logicalImmediate_encodeRun hw hpos hlen, hval]
  refine ⟨⟨fun h => ?_, fun ⟨enc, h⟩ => ?_⟩, hdec⟩
  · obtain ⟨enc, henc⟩ := Option.isSome_iff_exists.mp h
    exact ⟨enc, hdec enc henc⟩
  · exact is_bitmask_immediate_complete h

end X87Sidecar.Asm
