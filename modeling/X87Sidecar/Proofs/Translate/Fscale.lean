/-
`FSCALE` rounds once.

Each conditional step multiplies by the power of two that it takes off
the exponent (`run_step`), and the last product has what is left, clamped
(`run_last`). Scaling up loses nothing short of infinity and scaling down
nothing that the next stage would not shift out, so the stages are one
scaling by the whole exponent (`grow_stages`), saturated or not.
-/
import X87Sidecar.Lib.Signed
import X87Sidecar.Translate.Fscale

namespace X87Sidecar.Fscale

open Lib Lib.Cpu Lib.Word Lines

-- ====================================================== the reference

/-- Positive and negative infinity. -/
def posInf : BitVec 64 := 0x7FF0000000000000

def negInf : BitVec 64 := 0xFFF0000000000000

/-- The invalid operations. -/
def Invalid (x y : BitVec 64) : Prop :=
  Double.isZero x = true ∧ y = posInf
    ∨ Double.isInf x = true ∧ y = negInf

/-- The magnitude of `x * 2 ^ trunc y`: infinite for an infinite `x` and
for `2 ^ (+∞)`, zero for `2 ^ (-∞)`, and otherwise the nearest to the
exact product, ties to even, with infinity beyond the range. -/
structure Scaled (x y : BitVec 64) (p : Nat) : Prop where
  inf : Double.isInf x = true ∨ y = posInf → p = binary64.inf
  zero : Double.isInf x = false → y = negInf → p = 0
  nearest : Double.isInf x = false → Double.isInf y = false →
    binary64.IsNearest (binary64.val (Double.magnitude x)
      * Format.two (roundInt .chop (Double.value y))) p

/-- What `FSCALE` makes of `x` and `y`. -/
structure IsFscale (x y r : BitVec 64) : Prop where
  nan_y : Double.isNaN y = true → r = y
  nan_x : Double.isNaN y = false → Double.isNaN x = true →
    Double.isNaN r = true
  invalid : Double.isNaN y = false → Double.isNaN x = false →
    Invalid x y → r = Double.defaultNaN
  number : Double.isNaN y = false → Double.isNaN x = false →
    ¬Invalid x y → Double.isNaN r = false ∧ r.msb = x.msb
      ∧ Scaled x y (Double.magnitude r)

-- ========================================================= the stages

/-- What a conditional step takes off the exponent. -/
def stepOf (k : Int) : Int :=
  if 1023 < k then 969 else if k < -1022 then -969 else 0

/-- The exponent of the last factor. -/
def clamp (k : Int) : Int := max (-1022) (min 1023 k)

/-- The stages are one scaling, by an exponent that need not fit 32
bits. -/
theorem grow_stages {p : Nat} (hp : p ≤ binary64.inf) {K k k' : Int}
    (hk : k = Double.saturate 32 K) (hk' : k' = k - stepOf k) :
    Double.grow (Double.grow (Double.grow p (stepOf k)) (stepOf k'))
        (clamp (k' - stepOf k'))
      = Double.grow p K := by
  by_cases hinf : p = binary64.inf
  · simp only [hinf, Double.grow_inf]
  have hlt : p < binary64.inf := Nat.lt_of_le_of_ne hp hinf
  have hsat : k = max (-2 ^ 31) (min (2 ^ 31 - 1) K) := hk
  by_cases hup : 1023 < k
  · -- up: every stage is exact short of infinity
    have h1 : stepOf k = 969 := if_pos hup
    have h2 : 0 ≤ stepOf k' := by
      unfold stepOf
      split
      · omega
      · split <;> omega
    have h3 : 0 ≤ clamp (k' - stepOf k') := by
      unfold clamp stepOf
      split <;> (try split) <;> omega
    rw [h1, Double.grow_up (by omega) h2,
      Double.grow_up (by omega) h3]
    by_cases hfar : k ≤ 2961
    · congr 1
      unfold clamp stepOf
      split <;> (try split) <;> omega
    · by_cases h0 : p = 0
      · rw [h0, Double.grow_of_zero, Double.grow_of_zero]
      · rw [Double.grow_far_up h0, Double.grow_far_up h0 (by omega)]
        unfold clamp stepOf
        split <;> (try split) <;> omega
  by_cases hdown : k < -1022
  · -- down: what a stage loses the next one shifts out
    have h1 : stepOf k = -969 := by
      rw [stepOf, if_neg hup, if_pos hdown]
    have hk1 : k' ≤ -54 := by omega
    by_cases hagain : k' < -1022
    · have h2 : stepOf k' = -969 := by
        rw [stepOf, if_neg (by omega), if_pos hagain]
      have h3 : clamp (k' - stepOf k') ≤ -53 := by
        unfold clamp
        omega
      rw [h1, h2, Double.grow_down Double.grow_le (by omega)
          (by rw [← h2]; exact h3),
        Double.grow_down hp (by omega) (by rw [h2] at h3; omega)]
      by_cases hfar : -2960 ≤ k
      · congr 1
        unfold clamp
        omega
      · rw [Double.grow_far_down hlt, Double.grow_far_down hlt (by omega)]
        unfold clamp
        omega
    · have h2 : stepOf k' = 0 := by
        rw [stepOf, if_neg (by omega), if_neg hagain]
      have h3 : clamp (k' - 0) = k' := by
        unfold clamp
        omega
      rw [h1, h2, h3, Double.grow_zero Double.grow_le,
        Double.grow_down hp (by omega) (by omega)]
      congr 1
      omega
  · have h1 : stepOf k = 0 := by
      rw [stepOf, if_neg hup, if_neg hdown]
    have hk1 : k' = k := by omega
    have h3 : clamp (k - 0) = K := by
      unfold clamp
      omega
    rw [hk1, h1, h3, Double.grow_zero hp, Double.grow_zero hp]

-- ============================================================ the code

section
variable {c : Cpu} {Dx_in Dy_in Wd_k Xnzcv Xm Xt Xf Dd_m Dd_norm : Nat}
  {k : Int}

theorem power_zero : Double.power 0 = 0x3FF0000000000000#64 :=
  rfl

theorem power_up : Double.power 969 = 0x7C80000000000000#64 :=
  rfl

theorem power_down : Double.power (-969) = 0x0360000000000000#64 :=
  rfl

/-- A conditional step. -/
theorem run_step (hregs : [31, Wd_k, Xm, Xt].Nodup)
    (hd : Dx_in ≠ Dd_m)
    (hk : c.reg Wd_k = word32 k) (hlo : -2 ^ 31 ≤ k) (hhi : k < 2 ^ 31) :
    (run (emit_step Dx_in Wd_k Xm Xt Dd_m) c).reg Wd_k
        = word32 (k - stepOf k)
      ∧ (run (emit_step Dx_in Wd_k Xm Xt Dd_m) c).d Dx_in
        = Double.mul (c.d Dx_in) (Double.power (stepOf k)) := by
  simp at hregs
  obtain ⟨⟨hk31, hm31, ht31⟩, ⟨hkm, hkt⟩, hmt⟩ := hregs
  have hgt := gt_cmpW hlo hhi (show 1023 < 2 ^ 31 by decide)
  by_cases hup : 1023 < k
  · have hlt := @lt_cmnW (k - 969) 1022 (by omega) (by omega) (by decide)
    have hsub : Arm.narrow false (word32 k - word 969)
      = word32 (k - 969) := narrow_word32_sub
    rw [decide_eq_true (show ((1023 : Nat) : Int) < k from hup)] at hgt
    rw [decide_eq_false (by omega)] at hlt
    rw [stepOf, if_pos hup, power_up]
    constructor <;>
      simp [Cpu.run, Forward.run, emit_step, hk, Ne.symm hk31,
        Ne.symm hm31, Ne.symm ht31, hkm, hkt, hmt, Ne.symm hkm,
        Ne.symm hkt, Ne.symm hmt, hd, hgt, hsub, hlt, narrow_word32]
  · have hlt := @lt_cmnW k 1022 hlo hhi (by decide)
    have hadd : Arm.narrow false (word32 k + word 969)
      = word32 (k + 969) := narrow_word32_add
    rw [decide_eq_false (show ¬((1023 : Nat) : Int) < k from hup)] at hgt
    by_cases hdown : k < -1022
    · rw [decide_eq_true (show k + (1022 : Nat) < 0 by omega)] at hlt
      rw [stepOf, if_neg hup, if_pos hdown, power_down]
      constructor <;>
        simp [Cpu.run, Forward.run, emit_step, hk, Ne.symm hk31,
          Ne.symm hm31, Ne.symm ht31, hkm, hkt, hmt, Ne.symm hkm,
          Ne.symm hkt, Ne.symm hmt, hd, hgt, hadd, hlt, narrow_word32]
    · rw [decide_eq_false (show ¬k + (1022 : Nat) < 0 by omega)] at hlt
      rw [stepOf, if_neg hup, if_neg hdown, power_zero, sub_zero]
      constructor <;>
        simp [Cpu.run, Forward.run, emit_step, hk, Ne.symm hk31,
          Ne.symm hm31, Ne.symm ht31, hkm, hkt, hmt, Ne.symm hkm,
          Ne.symm hkt, Ne.symm hmt, hd, hgt, hlt, narrow_word32]

/-- The last product. -/
theorem run_last (hregs : [31, Wd_k, Xm, Xt].Nodup)
    (hx : Dx_in ≠ Dd_m)
    (hk : c.reg Wd_k = word32 k) (hlo : -2 ^ 31 ≤ k) (hhi : k < 2 ^ 31) :
    (run (emit_last Dx_in Wd_k Xm Xt Dd_m Dd_norm) c).d Dd_norm
      = Double.mul (c.d Dx_in) (Double.power (clamp k)) := by
  simp at hregs
  obtain ⟨⟨hk31, hm31, ht31⟩, ⟨hkm, hkt⟩, hmt⟩ := hregs
  have hgt := gt_cmpW hlo hhi (show 1023 < 2 ^ 31 by decide)
  have hfactor : ∀ j : Int, -1022 ≤ j → j ≤ 1023 →
      Arm.bitfieldEval 64 false 12 10
        (Arm.narrow false (word32 j + word 1023)) = Double.power j := by
    intro j hj hj'
    rw [narrow_word32_add, word32_of_nonneg (by omega) (by omega),
      ubfm_up (by decide) (by omega)]
    unfold Double.power Double.ofParts
    apply word_congr
    simp only [Bool.toNat_false]
    omega
  have htop : word32 1023 = word 1023 := word32_nat (by decide)
  by_cases hup : 1023 < k
  · have hlt := @lt_cmnW 1023 1022 (by omega) (by omega) (by decide)
    rw [decide_eq_true (show ((1023 : Nat) : Int) < k from hup)] at hgt
    rw [decide_eq_false (by omega), htop] at hlt
    have hf := hfactor 1023 (by decide) (by decide)
    rw [htop] at hf
    rw [show clamp k = 1023 by unfold clamp; omega]
    simp [Cpu.run, Forward.run, emit_last, hk, Ne.symm hk31, Ne.symm hm31,
      Ne.symm ht31, hkt, Ne.symm hkt, hx, hgt, hlt, narrow_word, hf]
  · have hlt := @lt_cmnW k 1022 hlo hhi (by decide)
    rw [decide_eq_false (show ¬((1023 : Nat) : Int) < k from hup)] at hgt
    by_cases hdown : k < -1022
    · rw [decide_eq_true (show k + (1022 : Nat) < 0 by omega)] at hlt
      have hf : Arm.bitfieldEval 64 false 12 10
          (Arm.narrow false 4294967297#64) = Double.power (-1022) := rfl
      have hmovn : Arm.narrow false (Arm.narrow false
          (Arm.MoveWide.movn.eval 0#2 1021#16 1023#64))
            = 0xFFFFFC02#64 := rfl
      rw [show clamp k = -1022 by unfold clamp; omega]
      simp [Cpu.run, Forward.run, emit_last, hk, Ne.symm hk31,
        Ne.symm hm31, Ne.symm ht31, hkt, Ne.symm hkt, hx, hgt, hlt,
        narrow_word32, narrow_word, hmovn, hf]
    · rw [decide_eq_false (show ¬k + (1022 : Nat) < 0 by omega)] at hlt
      have hf := hfactor k (by omega) (by omega)
      rw [show clamp k = k by unfold clamp; omega]
      simp [Cpu.run, Forward.run, emit_last, hk, Ne.symm hk31,
        Ne.symm hm31, Ne.symm ht31, hkt, Ne.symm hkt, hx, hgt, hlt,
        narrow_word32, hf]

/-- The factor for an infinite second operand. -/
def factor (y : BitVec 64) : BitVec 64 :=
  if y = negInf then 0 else if y = posInf then posInf else Double.power 0

theorem zero_cmp (v w : BitVec 64) :
    (addSubFlags true true v w).z = decide (v = w) := by
  obtain ⟨a, ha, rfl⟩ := exists_word v
  obtain ⟨b, hb, rfl⟩ := exists_word w
  rw [zero_cmpX ha hb]
  refine decide_eq_decide.mpr ⟨word_congr, fun h => ?_⟩
  rw [← toNat_word ha, ← toNat_word hb, h]

theorem run_infinity (hregs : [31, Xf, Xm, Xt].Nodup)
    (hn : Dd_norm ≠ Dd_m) :
    (run (emit_infinity Dy_in Xm Xt Xf Dd_m Dd_norm) c).d Dd_norm
      = Double.mul (c.d Dd_norm) (factor (c.d Dy_in)) := by
  simp at hregs
  obtain ⟨⟨hf31, hm31, ht31⟩, ⟨hfm, hft⟩, hmt⟩ := hregs
  have hpos := zero_cmp (c.d Dy_in) 9218868437227405312#64
  have hneg := zero_cmp (c.d Dy_in) 18442240474082181120#64
  unfold factor
  rw [power_zero]
  unfold posInf negInf
  simp [Cpu.run, Forward.run, emit_infinity, Ne.symm hf31,
    Ne.symm hm31, Ne.symm ht31, hfm, hft, hmt, Ne.symm hfm,
    Ne.symm hft, Ne.symm hmt, hn, Shift.eval, Cond.eval, hpos, hneg]

/-- Not a number passes, everything else is the product. -/
theorem run_select :
    (run (emit_fcmp_f64 Dy_in Dy_in
        :: emit_fcsel_f64 Dd_norm Dy_in Dd_norm .vs : Code) c).d Dd_norm
      = if Double.isNaN (c.d Dy_in) then c.d Dy_in
        else c.d Dd_norm := by
  cases h : Double.isNaN (c.d Dy_in) <;>
    simp [Cpu.run, Forward.run, emit_fcsel_f64, compareFlags, h,
      Cond.inv, Cond.eval]

section
variable {c : Cpu} {Dx_in Dy_in Wd_k Xnzcv Xm Xt Xf Dd_m Dd_norm : Nat}

theorem closed_select : Forward.closed
    (emit_fcmp_f64 Dy_in Dy_in
      :: emit_fcsel_f64 Dd_norm Dy_in Dd_norm .vs : Code) = true := by
  simp [emit_fcsel_f64, Forward.closed, Forward.Target.within,
    Forward.size]

/-- The code computes the products of the stages, unless the second
operand is not a number. -/
theorem run_core (hregs : [31, Wd_k, Xnzcv, Xm, Xt].Nodup)
    (hf : [31, Xf, Xm, Xt].Nodup)
    (hd : [Dx_in, Dy_in, Dd_m, Dd_norm].Nodup)
    {k k' : Int}
    (hk : k = Double.toSigned .chop 32 (c.d Dy_in))
    (hk' : k' = k - stepOf k) :
    (run (emit_inline_fscale_core Dx_in Dy_in Wd_k Xnzcv Xm Xt Xf Dd_m
        Dd_norm) c).d Dd_norm
      = if Double.isNaN (c.d Dy_in) then c.d Dy_in
        else Double.mul (Double.mul (Double.mul (Double.mul (c.d Dx_in)
            (Double.power (stepOf k))) (Double.power (stepOf k')))
            (Double.power (clamp (k' - stepOf k'))))
          (factor (c.d Dy_in)) := by
  have hwd : [31, Wd_k, Xm, Xt].Nodup := by
    simp at hregs ⊢
    tauto
  simp at hd
  obtain ⟨⟨hxy, hxm, hxn⟩, ⟨hym, hyn⟩, hmn⟩ := hd
  have hfits : Double.Fits 32 k := by
    rw [hk]
    unfold Double.toSigned
    split
    · decide
    · exact Double.fits_saturate _
  obtain ⟨hlo, hhi⟩ : -2 ^ 31 ≤ k ∧ k < 2 ^ 31 := hfits
  have hlo' : -2 ^ 31 ≤ k' ∧ k' < 2 ^ 31 := by
    unfold stepOf at hk'
    split at hk'
    · omega
    · split at hk' <;> omega
  have hlo'' : -2 ^ 31 ≤ k' - stepOf k' ∧ k' - stepOf k' < 2 ^ 31 := by
    unfold stepOf
    split
    · omega
    · split <;> omega
  have hy : ∀ c : Cpu, (run (emit_step Dx_in Wd_k Xm Xt Dd_m) c).d Dy_in
      = c.d Dy_in := fun c =>
    run_d (by simp [emit_step, Cpu.Op.destD, hxy, Ne.symm hym])
  have hy' : ∀ c : Cpu, (run (emit_last Dx_in Wd_k Xm Xt Dd_m Dd_norm)
      c).d Dy_in = c.d Dy_in := fun c =>
    run_d (by simp [emit_last, Cpu.Op.destD, Ne.symm hyn, Ne.symm hym])
  have hy'' : ∀ c : Cpu, (run (emit_infinity Dy_in Xm Xt Xf Dd_m Dd_norm)
      c).d Dy_in = c.d Dy_in := fun c =>
    run_d (by simp [emit_infinity, Cpu.Op.destD, Ne.symm hyn,
      Ne.symm hym])
  -- the exponent
  obtain ⟨c₁, hc₁⟩ : ∃ c₁, run ([emit_fcvtzs false Wd_k Dy_in,
      emit_mrs_nzcv Xnzcv] : Code) c = c₁ := ⟨_, rfl⟩
  have hk₁ : c₁.reg Wd_k = word32 k := by
    simp at hregs
    rw [← hc₁, hk]
    simp [Cpu.run, Forward.run, Ne.symm hregs.1.1, hregs.2.1.1,
      narrow_ofInt]
  have hd₁ : c₁.d = c.d := by
    rw [← hc₁]
    simp [Cpu.run, Forward.run]
  -- the stages
  obtain ⟨c₂, hc₂⟩ : ∃ c₂, run (emit_step Dx_in Wd_k Xm Xt Dd_m) c₁ = c₂ :=
    ⟨_, rfl⟩
  obtain ⟨hk₂, hx₂⟩ := @run_step c₁ Dx_in Wd_k Xm Xt Dd_m k hwd hxm hk₁
    hlo hhi
  have hy₂ := hy c₁
  obtain ⟨c₃, hc₃⟩ : ∃ c₃, run (emit_step Dx_in Wd_k Xm Xt Dd_m) c₂ = c₃ :=
    ⟨_, rfl⟩
  rw [hc₂] at hk₂ hx₂ hy₂
  rw [← hk'] at hk₂
  obtain ⟨hk₃, hx₃⟩ := @run_step c₂ Dx_in Wd_k Xm Xt Dd_m k' hwd hxm hk₂
    hlo'.1 hlo'.2
  have hy₃ := hy c₂
  rw [hc₃] at hk₃ hx₃ hy₃
  obtain ⟨c₄, hc₄⟩ : ∃ c₄, run (emit_last Dx_in Wd_k Xm Xt Dd_m Dd_norm)
      c₃ = c₄ := ⟨_, rfl⟩
  have hn₄ := @run_last c₃ Dx_in Wd_k Xm Xt Dd_m Dd_norm _ hwd hxm hk₃
    hlo''.1 hlo''.2
  have hy₄ := hy' c₃
  rw [hc₄] at hn₄ hy₄
  have hn₅ := @run_infinity c₄ Dy_in Xm Xt Xf Dd_m Dd_norm hf
    (Ne.symm hmn)
  have hy₅ := hy'' c₄
  have hstep : Forward.closed (emit_step Dx_in Wd_k Xm Xt Dd_m) = true :=
    rfl
  have hstages : Forward.closed ([emit_fcvtzs false Wd_k Dy_in,
      emit_mrs_nzcv Xnzcv] ++ emit_step Dx_in Wd_k Xm Xt Dd_m
      ++ emit_step Dx_in Wd_k Xm Xt Dd_m : Code) = true := rfl
  have hlast := Forward.closed_append hstages
    (show Forward.closed (emit_last Dx_in Wd_k Xm Xt Dd_m Dd_norm)
      = true from rfl)
  have hinf := Forward.closed_append hlast
    (show Forward.closed (emit_infinity Dy_in Xm Xt Xf Dd_m Dd_norm)
      = true from rfl)
  have hmsr : ∀ c : Cpu, (run ([emit_msr_nzcv Xnzcv] : Code) c).d = c.d :=
    fun _ => rfl
  unfold emit_inline_fscale_core
  rw [run_append (Forward.closed_append hinf closed_select), hmsr,
    run_append hinf, run_select, run_append hlast, run_append hstages,
    run_append (Forward.closed_append rfl hstep), run_append rfl, hc₁,
    hc₂, hc₃, hc₄, hn₅, hy₅, hn₄, hy₄, hy₃, hx₃, hy₂, hx₂, hd₁]

end

end

-- ========================================================== the result

section
variable {x y : BitVec 64} {neg : Bool} {p : Nat}

theorem mul_posInf (hp : p ≤ binary64.inf) :
    Double.mul (Double.ofParts neg p) posInf
      = if p = 0 then Double.defaultNaN
        else Double.ofParts neg binary64.inf := by
  have hlt : p < 2 ^ 63 := Nat.lt_of_le_of_lt hp Double.inf_lt
  have hnan : Double.isNaN posInf = false := rfl
  have hinf : Double.isInf posInf = true := rfl
  have hzero : Double.isZero posInf = false := rfl
  have hmsb : posInf.msb = false := by decide
  unfold Double.mul Double.isZero
  dsimp only
  rw [Double.isNaN_ofParts hp, hnan, hinf, hmsb, Double.msb_ofParts hlt,
    Double.magnitude_ofParts hlt]
  have h0 : Double.magnitude posInf ≠ 0 := by decide
  by_cases h : p = 0 <;> simp [h, h0]

theorem mul_factor_zero (hp : p ≤ binary64.inf) :
    Double.mul (Double.ofParts neg p) 0
      = if p = binary64.inf then Double.defaultNaN
        else Double.ofParts neg 0 := by
  have hlt : p < 2 ^ 63 := Nat.lt_of_le_of_lt hp Double.inf_lt
  have hnan : Double.isNaN 0 = false := rfl
  have hinf : Double.isInf 0 = false := rfl
  have hzero : Double.isZero 0 = true := rfl
  have hmsb : (0 : BitVec 64).msb = false := by decide
  have hsig : binary64.sig (Double.magnitude 0) = 0 := rfl
  unfold Double.mul
  dsimp only
  rw [Double.isNaN_ofParts hp, hnan, hinf, hzero, hmsb, hsig,
    Double.msb_ofParts hlt]
  unfold Double.isInf Double.isZero
  rw [Double.magnitude_ofParts hlt]
  by_cases h : p = binary64.inf <;> simp [h, Format.pattern]

/-- An infinite exponent is out of every range. -/
theorem chop_posInf : 2098 ≤ roundInt .chop (Double.value posInf) := by
  apply le_roundInt_of_le
  have hval : Double.value posInf = binary64.val binary64.inf := by
    unfold Double.value Double.withSign
    rw [show posInf.msb = false by decide,
      show Double.magnitude posInf = binary64.inf from rfl]
    rfl
  have hlow : ((2098 : Int) : Rat) ≤ Format.two 12 := by norm_num
  rw [hval, Double.val_inf]
  exact hlow.trans (Format.two_mono (by decide))

theorem chop_negInf : roundInt .chop (Double.value negInf) ≤ -2099 := by
  apply roundInt_le_of_le
  have hval : Double.value negInf = -binary64.val binary64.inf := by
    unfold Double.value Double.withSign
    rw [show negInf.msb = true by decide,
      show Double.magnitude negInf = binary64.inf from rfl]
    rfl
  have hlow : ((2099 : Int) : Rat) ≤ Format.two 12 := by norm_num
  rw [hval, Double.val_inf, Int.cast_neg]
  exact neg_le_neg (hlow.trans (Format.two_mono (by decide)))

theorem stepOf_range (k : Int) : -1022 ≤ stepOf k ∧ stepOf k ≤ 1023 := by
  unfold stepOf
  split
  · omega
  · split <;> omega

theorem clamp_range (k : Int) : -1022 ≤ clamp k ∧ clamp k ≤ 1023 := by
  unfold clamp
  omega

/-- The three products of the stages. -/
def stages (x y : BitVec 64) : BitVec 64 :=
  let k := Double.toSigned .chop 32 y
  let k' := k - stepOf k
  Double.mul (Double.mul (Double.mul x (Double.power (stepOf k)))
    (Double.power (stepOf k'))) (Double.power (clamp (k' - stepOf k')))

/-- Of numbers, they are one scaling that keeps the sign. -/
theorem stages_eq (hx : Double.isNaN x = false)
    (hy : Double.isNaN y = false) :
    stages x y = Double.ofParts x.msb (Double.grow (Double.magnitude x)
      (roundInt .chop (Double.value y))) := by
  have hp := Double.magnitude_le hx
  have hk : Double.toSigned .chop 32 y
      = Double.saturate 32 (roundInt .chop (Double.value y)) := by
    unfold Double.toSigned
    rw [hy]
    rfl
  unfold stages
  dsimp only
  obtain ⟨k, hkk⟩ : ∃ k, Double.toSigned .chop 32 y = k := ⟨_, rfl⟩
  rw [hkk] at hk ⊢
  have hr := stepOf_range k
  have hr' := stepOf_range (k - stepOf k)
  have hr'' := clamp_range (k - stepOf k - stepOf (k - stepOf k))
  rw [← Double.ofParts_self x, Double.mul_power hp hr.1 hr.2,
    Double.mul_power Double.grow_le hr'.1 hr'.2,
    Double.mul_power Double.grow_le hr''.1 hr''.2,
    grow_stages hp hk rfl, Double.ofParts_self x]

theorem isNaN_stages (hx : Double.isNaN x = true) :
    Double.isNaN (stages x y) = true :=
  Double.isNaN_mul (Double.isNaN_mul (Double.isNaN_mul hx _) _) _

/-- An invalid operation is found by the last factor. -/
theorem mul_factor_invalid (hx : Double.isNaN x = false)
    (h : Invalid x y) :
    Double.mul (stages x y) (factor y) = Double.defaultNaN := by
  rcases h with ⟨h0, rfl⟩ | ⟨hinf, rfl⟩
  · have hmag : Double.magnitude x = 0 := of_decide_eq_true h0
    rw [stages_eq hx rfl, hmag, Double.grow_of_zero,
      show factor posInf = posInf by decide,
      mul_posInf (Nat.zero_le _), if_pos rfl]
  · have hmag : Double.magnitude x = binary64.inf :=
      of_decide_eq_true hinf
    rw [stages_eq hx rfl, hmag, Double.grow_inf,
      show factor negInf = 0 by decide,
      mul_factor_zero (Nat.le_refl _), if_pos rfl]

/-- What the product is otherwise. -/
theorem mul_factor_valid (hx : Double.isNaN x = false)
    (hy : Double.isNaN y = false) (h : ¬Invalid x y) :
    ∃ p ≤ binary64.inf, Double.mul (stages x y) (factor y)
      = Double.ofParts x.msb p ∧ Scaled x y p := by
  have hp := Double.magnitude_le hx
  have hinf : Double.isInf x = true ↔ Double.magnitude x = binary64.inf :=
    decide_eq_true_iff
  rw [stages_eq hx hy]
  by_cases hpos : y = posInf
  · subst hpos
    have h0 : Double.magnitude x ≠ 0 := fun h0 =>
      h (.inl ⟨decide_eq_true h0, rfl⟩)
    refine ⟨binary64.inf, Nat.le_refl _, ?_, fun _ => rfl,
      fun _ hne => absurd hne (by decide),
      fun _ hno => absurd hno (by decide)⟩
    rw [Double.grow_far_up h0 chop_posInf,
      show factor posInf = posInf by decide, mul_posInf (Nat.le_refl _),
      if_neg (by decide)]
  by_cases hneg : y = negInf
  · subst hneg
    have hne : Double.magnitude x ≠ binary64.inf := fun hne =>
      h (.inr ⟨hinf.mpr hne, rfl⟩)
    refine ⟨0, Nat.zero_le _, ?_, ?_, fun _ _ => rfl,
      fun _ hno => absurd hno (by decide)⟩
    · rw [Double.grow_far_down (Nat.lt_of_le_of_ne hp hne) chop_negInf,
        show factor negInf = 0 by decide, mul_factor_zero (Nat.zero_le _),
        if_neg (by decide)]
    · rintro (hi | hi)
      · exact absurd (hinf.mp hi) hne
      · exact absurd hi hpos
  · have hfactor : factor y = Double.power 0 := by
      rw [factor, if_neg hneg, if_neg hpos]
    refine ⟨Double.grow (Double.magnitude x)
      (roundInt .chop (Double.value y)), Double.grow_le, ?_, ?_,
      fun _ hy' => absurd hy' hneg, ?_⟩
    · rw [hfactor, Double.mul_power Double.grow_le (by decide)
        (by decide), Double.grow_zero Double.grow_le]
    · rintro (hi | hi)
      · rw [hinf.mp hi, Double.grow_inf]
      · exact absurd hi hpos
    · intro hfin _
      have hne : Double.magnitude x ≠ binary64.inf := by
        intro he
        rw [hinf.mpr he] at hfin
        cases hfin
      rw [Double.grow_of_lt (Nat.lt_of_le_of_ne hp hne)]
      exact binary64.isNearest_scale _ _

/-- The products are `FSCALE`. -/
theorem isFscale_stages (x y : BitVec 64) :
    IsFscale x y (if Double.isNaN y then y
      else Double.mul (stages x y) (factor y)) where
  nan_y h := if_pos h
  nan_x hy hx := by
    rw [hy, if_neg Bool.false_ne_true]
    exact Double.isNaN_mul (isNaN_stages hx) _
  invalid hy hx h := by
    rw [hy, if_neg Bool.false_ne_true]
    exact mul_factor_invalid hx h
  number hy hx h := by
    obtain ⟨p, hp, hmul, hscaled⟩ := mul_factor_valid hx hy h
    have hlt : p < 2 ^ 63 := Nat.lt_of_le_of_lt hp Double.inf_lt
    rw [hy, if_neg Bool.false_ne_true, hmul,
      Double.magnitude_ofParts hlt]
    exact ⟨Double.isNaN_ofParts hp, Double.msb_ofParts hlt, hscaled⟩

end

/-- The guest's flags are as they were. -/
theorem flags_core (c : Cpu)
    {Dx_in Dy_in Wd_k Xnzcv Xm Xt Xf Dd_m Dd_norm : Nat}
    (hregs : [31, Wd_k, Xnzcv, Xm, Xt].Nodup) (hf : Xf ≠ Xnzcv) :
    (run (emit_inline_fscale_core Dx_in Dy_in Wd_k Xnzcv Xm Xt Xf Dd_m
      Dd_norm) c).flags = c.flags := by
  simp at hregs
  obtain ⟨⟨-, hn31, -, -⟩, ⟨hkn, -, -⟩, ⟨hnm, hnt⟩, -⟩ := hregs
  have hsaved : (run ([emit_fcvtzs false Wd_k Dy_in,
      emit_mrs_nzcv Xnzcv] : Code) c).reg Xnzcv = Flags.word c.flags := by
    simp [Cpu.run, Forward.run, Ne.symm hn31]
  obtain ⟨body, hbody⟩ : ∃ body : Code,
      emit_step Dx_in Wd_k Xm Xt Dd_m ++ emit_step Dx_in Wd_k Xm Xt Dd_m
        ++ emit_last Dx_in Wd_k Xm Xt Dd_m Dd_norm
        ++ emit_infinity Dy_in Xm Xt Xf Dd_m Dd_norm
        ++ emit_fcmp_f64 Dy_in Dy_in
          :: emit_fcsel_f64 Dd_norm Dy_in Dd_norm .vs = body := ⟨_, rfl⟩
  have hclosed : Forward.closed body = true := by
    rw [← hbody]
    exact Forward.closed_append rfl closed_select
  have hkept : ∀ c : Cpu, (run body c).reg Xnzcv = c.reg Xnzcv := by
    intro c
    apply run_reg_of_ne
    rw [← hbody]
    simp [emit_step, emit_last, emit_infinity, emit_fcsel_f64,
      Cpu.Op.dest, hkn, Ne.symm hnm, Ne.symm hnt, hf, hn31]
  have hsplit : emit_inline_fscale_core Dx_in Dy_in Wd_k Xnzcv Xm Xt Xf
        Dd_m Dd_norm
      = [emit_fcvtzs false Wd_k Dy_in, emit_mrs_nzcv Xnzcv]
        ++ body ++ [emit_msr_nzcv Xnzcv] := by
    rw [← hbody]
    simp only [emit_inline_fscale_core, List.append_assoc]
  have hmsr : ∀ c : Cpu, (run ([emit_msr_nzcv Xnzcv] : Code) c).flags
      = Flags.ofWord (c.reg Xnzcv) := fun _ => rfl
  rw [hsplit, run_append (Forward.closed_append rfl hclosed), hmsr,
    run_append rfl, hkept, hsaved, Flags.ofWord_word]

/-- A machine with two numbers in its first floating-point registers. -/
def scaling (x y : BitVec 64) : Cpu where
  x _ := 0
  sp := 0
  mem _ := 0
  d r := if r = 0 then x else y
  flags := ⟨false, false, false, false⟩
  flush := 0

end X87Sidecar.Fscale
