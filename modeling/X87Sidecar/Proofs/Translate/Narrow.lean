/-
Narrowing to binary64 is correctly rounded.

Both emitters compute one function of the 80-bit pattern (`toDouble`).
Its value is the nearest, by `isNearest_narrowed`; rounded to odd, it
still narrows to the nearest binary32 (`isNearest_odd`), because the
lowest bit remembers that something was cut off.
-/
import X87Sidecar.Proofs.Translate.NarrowConvert

namespace X87Sidecar

open Lib Lib.Cpu Lib.Word F80

/-- The magnitude of a number in binary64: to nearest even, or to odd. -/
def narrowedBy (odd : Bool) (m e : Nat) : Nat :=
  if odd then narrowedOdd m e else narrowed m e

/-- The pattern that the emitted code computes. -/
def Extended.toDouble (odd : Bool) (x : Extended) : BitVec 64 :=
  if x.unsupported then 0xFFF8000000000000
  else BitVec.ofNat 64 ((if x.isNaN then binary64.quiet (x.fraction / 2 ^ 11)
      else narrowedBy odd x.m x.exponent) + x.neg.toNat * 2 ^ 63)

-- ===================================================== the three ranges

section
variable {odd : Bool} {m e : Nat}

theorem narrowedBy_small (he : e < 15361) :
    narrowedBy odd m e = cut odd m (15372 - e) := by
  unfold narrowedBy narrowedOdd narrowed cut
  rw [if_pos he, if_pos he]

theorem narrowedBy_normal (hlo : 15361 ≤ e) (hhi : e < 17407) :
    narrowedBy odd m e = (e - 15361) * 2 ^ 52 + cut odd m 11 := by
  unfold narrowedBy cut
  cases odd with
  | false =>
      show narrowed m e = _
      unfold narrowed
      rw [if_neg (by omega), if_pos hhi]
      rfl
  | true =>
      show narrowedOdd m e = _
      unfold narrowedOdd
      dsimp only
      rw [if_neg (by omega), if_pos hhi]
      rfl

theorem narrowedBy_big (he : 17407 ≤ e) :
    narrowedBy odd m e = binary64.inf := by
  unfold narrowedBy
  cases odd with
  | false =>
      show narrowed m e = _
      unfold narrowed
      rw [if_neg (by omega), if_neg (by omega)]
  | true =>
      show narrowedOdd m e = _
      unfold narrowedOdd
      dsimp only
      rw [if_neg (by omega), if_neg (by omega)]

/-- A number stays one, or becomes infinity. -/
theorem narrowedBy_le (hlt : m < 2 ^ 64) :
    narrowedBy odd m e ≤ binary64.inf := by
  have hinf : binary64.inf = 2047 * 2 ^ 52 := by decide
  rcases Nat.lt_or_ge e 15361 with he | hlo
  · have := @cut_le m odd (15372 - e) hlt (by omega)
    rw [narrowedBy_small he]
    omega
  · rcases Nat.lt_or_ge e 17407 with hhi | hhi
    · have := @cut_le m odd 11 hlt (by omega)
      rw [narrowedBy_normal hlo hhi]
      omega
    · rw [narrowedBy_big hhi]

end

-- ======================================================== the emitters

namespace Extended

variable {x : Extended} {odd : Bool}

theorem m_lt : x.m < 2 ^ 64 := x.mant.isLt

theorem exponent_lt : x.exponent < 2 ^ 15 := Nat.mod_lt _ (by decide)

/-- The halfword as sign and exponent. -/
theorem se_eq : x.se.setWidth 64
    = word (x.neg.toNat * 2 ^ 15 + x.exponent) := by
  have hlt := x.se.isLt
  have hneg : x.neg.toNat = x.se.toNat / 2 ^ 15 := by
    unfold neg
    rw [BitVec.msb_eq_decide]
    rcases Nat.lt_or_ge x.se.toNat (2 ^ 15) with h | h
    · rw [decide_eq_false (by omega), Nat.div_eq_of_lt h]
      rfl
    · rw [decide_eq_true (by omega)]
      show 1 = _
      omega
  apply BitVec.eq_of_toNat_eq
  rw [BitVec.toNat_setWidth, BitVec.toNat_ofNat, hneg]
  unfold exponent
  congr 1
  omega

theorem mant_eq : x.mant = word x.m := by
  apply BitVec.eq_of_toNat_eq
  rw [toNat_word m_lt]
  rfl

theorem neg_lt : x.neg.toNat < 2 := Bool.toNat_lt _

/-- What is supported has its integer bit, or exponent zero. -/
theorem supported (h : x.unsupported = false) :
    2 ^ 63 ≤ x.m ∨ x.exponent = 0 := by
  have h' := of_decide_eq_false (p := x.m < 2 ^ 63 ∧ x.exponent ≠ 0)
    (by rw [← h, unsupported, Bool.decide_and])
  omega

theorem unsupported_iff :
    x.unsupported = true ↔ x.m < 2 ^ 63 ∧ x.exponent ≠ 0 := by
  unfold unsupported
  rw [Bool.and_eq_true, decide_eq_true_iff, decide_eq_true_iff]

theorem isNaN_iff (h : x.unsupported = false) :
    x.isNaN = true ↔ x.exponent = 2 ^ 15 - 1 ∧ x.m ≠ 2 ^ 63 := by
  have hlt := @m_lt x
  have hok := supported h
  unfold isNaN fraction
  rw [h, Bool.not_false, Bool.true_and, Bool.and_eq_true,
    decide_eq_true_iff, decide_eq_true_iff]
  constructor
  · rintro ⟨he, hf⟩
    exact ⟨he, by omega⟩
  · rintro ⟨he, hm⟩
    exact ⟨he, by omega⟩

/-- `emit_f80_bits_to_f64` computes `toDouble`. -/
theorem bits_toDouble {c : Cpu} {Xm Wx Xt1 Xt2 : Nat}
    (h : [31, Xm, Wx, Xt1, Xt2].Nodup) (hm : c.reg Xm = x.mant)
    (hw : c.reg Wx = x.se.setWidth 64) :
    (run (emit_f80_bits_to_f64 Xm Wx Xt1 Xt2 odd) c).reg Xm
      = x.toDouble odd := by
  have hlt := @m_lt x
  have he := @exponent_lt x
  have hs := @neg_lt x
  rw [mant_eq] at hm
  rw [se_eq] at hw
  unfold toDouble
  cases hu : x.unsupported with
  | true =>
      obtain ⟨h63, h0⟩ := unsupported_iff.mp hu
      rw [if_pos rfl]
      exact bits_default_path h hm h63 hw he (by omega)
  | false =>
      have hok := supported hu
      rw [if_neg (by decide)]
      by_cases hnan : x.isNaN = true
      · obtain ⟨hexp, hm63⟩ := (isNaN_iff hu).mp hnan
        rw [hexp] at hw
        rw [if_pos hnan]
        exact bits_nan_path h hm hlt hw hs (by omega) (by omega)
      · rw [if_neg hnan]
        rcases Nat.lt_or_ge x.exponent 15361 with hsmall | hlo
        · rw [narrowedBy_small hsmall]
          exact bits_small_path h hm hlt hw hs hsmall hok
        · rcases Nat.lt_or_ge x.exponent 17407 with hhi | hbig
          · rw [narrowedBy_normal hlo hhi]
            exact bits_normal_path h hm hlt hw hs hlo hhi (by omega)
          · have hinf : x.exponent < 2 ^ 15 - 1
                ∨ x.exponent = 2 ^ 15 - 1 ∧ x.m = 2 ^ 63 := by
              by_contra hcon
              exact hnan ((isNaN_iff hu).mpr (by omega))
            rw [narrowedBy_big hbig]
            exact bits_inf_path h hm hlt hw hs hbig (by omega) hinf

/-- `emit_f80_to_f64_convert` computes it rounded to nearest. -/
theorem convert_toDouble {c : Cpu} {Xmant Wexp Xsign Wd_aux Wd_tmp : Nat}
    (h : [31, Xmant, Wexp, Xsign, Wd_aux, Wd_tmp].Nodup)
    (hm : c.reg Xmant = x.mant) (hw : c.reg Wexp = x.se.setWidth 64) :
    (run (emit_f80_to_f64_convert Xmant Wexp Xsign Wd_aux Wd_tmp) c).reg
      Xmant = x.toDouble false := by
  have hlt := @m_lt x
  have he := @exponent_lt x
  have hs := @neg_lt x
  rw [mant_eq] at hm
  rw [se_eq] at hw
  unfold toDouble
  cases hu : x.unsupported with
  | true =>
      obtain ⟨h63, h0⟩ := unsupported_iff.mp hu
      rw [if_pos rfl]
      exact convert_default_path h hm h63 hw hs he (by omega)
  | false =>
      have hok := supported hu
      rw [if_neg (by decide)]
      rcases Nat.lt_or_ge x.exponent 15361 with hsmall | hlo
      · have hnan : ¬ x.isNaN = true := fun hn => by
          have := ((isNaN_iff hu).mp hn).1
          omega
        rw [if_neg hnan, narrowedBy_small hsmall]
        exact convert_small_path h hm hlt hw hs hsmall hok
      · by_cases hexp : x.exponent = 2 ^ 15 - 1
        · have hpath := convert_nan_path h hm hlt (hexp ▸ hw) hs (by omega)
          rw [hpath]
          by_cases hm63 : x.m = 2 ^ 63
          · have hnan : ¬ x.isNaN = true := fun hn =>
              ((isNaN_iff hu).mp hn).2 hm63
            rw [if_neg hnan, if_pos hm63, narrowedBy_big (by omega)]
          · rw [if_pos ((isNaN_iff hu).mpr ⟨hexp, hm63⟩), if_neg hm63]
            rfl
        · have hnan : ¬ x.isNaN = true := fun hn =>
            hexp ((isNaN_iff hu).mp hn).1
          rw [if_neg hnan, convert_normal_path h hm hlt hw hs hlo (by omega)
            (by omega)]
          split
          · rw [narrowedBy_normal hlo ‹_›]
          · rw [narrowedBy_big (by omega)]

-- ========================================================= the rounding

end Extended

/-- The sign and magnitude of a pattern put together from them. -/
theorem msb_pattern {p : Nat} {neg : Bool} (hp : p < 2 ^ 63) :
    (word (p + neg.toNat * 2 ^ 63)).msb = neg
      ∧ Double.magnitude (word (p + neg.toNat * 2 ^ 63)) = p := by
  unfold Double.magnitude
  rw [BitVec.msb_eq_decide, BitVec.toNat_ofNat]
  cases neg with
  | false =>
      rw [Bool.toNat_false, Nat.mod_eq_of_lt (by omega)]
      exact ⟨decide_eq_false (by omega), by omega⟩
  | true =>
      rw [Bool.toNat_true, Nat.mod_eq_of_lt (by omega)]
      exact ⟨decide_eq_true (by omega), by omega⟩

namespace Extended

variable {x : Extended} {odd : Bool}

/-- What becomes of the sign and the magnitude. -/
theorem toDouble_spec (h : x.unsupported = false) :
    (x.toDouble odd).msb = x.neg
      ∧ Double.magnitude (x.toDouble odd)
        = if x.isNaN then binary64.quiet (x.fraction / 2 ^ 11)
          else narrowedBy odd x.m x.exponent := by
  unfold toDouble
  rw [if_neg (by rw [h]; decide)]
  apply msb_pattern
  split
  · apply quiet_lt
    have : x.fraction < 2 ^ 63 := Nat.mod_lt _ (by decide)
    omega
  · apply Nat.lt_of_le_of_lt (narrowedBy_le m_lt)
    decide

/-- Rounded to nearest, it is the nearest. -/
theorem toDouble_rounds : x.Rounds binary64 (x.toDouble false).msb
    (Double.magnitude (x.toDouble false)) := by
  unfold Rounds
  cases hu : x.unsupported with
  | true =>
      rw [if_pos rfl]
      unfold toDouble
      rw [if_pos hu]
      exact ⟨by decide, by decide⟩
  | false =>
      rw [if_neg (by decide)]
      obtain ⟨hsign, hmag⟩ := @toDouble_spec x false hu
      refine ⟨hsign, ?_⟩
      rw [hmag]
      split
      · rfl
      · exact isNearest_narrowed m_lt (supported hu)

end Extended

-- ========================================================= once, not twice

/-- A quieted payload, cut, is quieted. -/
theorem quiet_cut {p : Nat} (hp : p < 2 ^ 52) :
    binary32.quiet (binary64.quiet p % 2 ^ 52 / 2 ^ 29)
      = binary32.quiet (p / 2 ^ 29) := by
  have hor : p ||| 2 ^ 51 < 2 ^ 52 := Nat.or_lt_two_pow hp (by decide)
  have hmod : binary64.quiet p % 2 ^ 52 = p ||| 2 ^ 51 := by
    show (2047 * 2 ^ 52 + (p ||| 2 ^ 51)) % 2 ^ 52 = _
    rw [Nat.mul_add_mod_self_right, Nat.mod_eq_of_lt hor]
  have hdiv : (p ||| 2 ^ 51) / 2 ^ 29 = p / 2 ^ 29 ||| 2 ^ 22 := by
    rw [← Nat.shiftRight_eq_div_pow, Nat.shiftRight_or_distrib,
      Nat.shiftRight_eq_div_pow]
    rfl
  rw [hmod, hdiv]
  unfold Format.quiet
  rw [Nat.or_assoc]
  rfl

/-- Past the range of binary64 everything is infinite in binary32. -/
theorem isNearest_far {y : Rat} (h : binary64.val binary64.inf ≤ y)
    (p : Nat) : binary32.IsNearest y p ↔ p = binary32.inf := by
  have hval : binary32.val binary32.inf ≤ binary64.val binary64.inf := by
    have h32 := @Format.val_scaled binary32 254 (2 ^ 23) (by decide)
      (.inr (by decide))
    have hinf : binary32.inf = 254 * 2 ^ binary32.t + 2 ^ 23 := by decide
    rw [val_inf, hinf, h32,
      show ((2 ^ 23 : Nat) : Rat) = Format.two (23 : Nat) from
        (Format.two_nat 23).symm, ← Format.two_add]
    apply zpow_le_zpow_right₀ (by norm_num)
    decide
  have hnear := Format.isNearest_inf (hval.trans h)
  constructor
  · intro hp
    exact hp.unique hnear
  · rintro rfl
    exact hnear

/-- Rounded to odd, narrowing once more rounds once. -/
theorem Extended.toDouble_odd (x : Extended) (neg : Bool) (p : Nat) :
    Double.Rounds binary32 (x.toDouble true) neg p
      ↔ x.Rounds binary32 neg p := by
  unfold Double.Rounds Extended.Rounds
  cases hu : x.unsupported with
  | true =>
      rw [if_pos rfl]
      unfold Extended.toDouble
      rw [if_pos hu]
      exact Iff.rfl
  | false =>
      rw [if_neg (show ¬ (false = true) by decide)]
      obtain ⟨hsign, hmag⟩ := @Extended.toDouble_spec x true hu
      have hlt := @Extended.m_lt x
      rw [hsign]
      unfold Double.isNaN
      rw [hmag]
      apply and_congr Iff.rfl
      by_cases hnan : x.isNaN = true
      · have hfrac : x.fraction / 2 ^ 11 < 2 ^ 52 := by
          have : x.fraction < 2 ^ 63 := Nat.mod_lt _ (by decide)
          omega
        have hinf : binary64.inf < binary64.quiet (x.fraction / 2 ^ 11) := by
          have hpos : 2 ^ 51 ≤ x.fraction / 2 ^ 11 ||| 2 ^ 51 :=
            Nat.right_le_or
          show _ < binary64.inf + (x.fraction / 2 ^ 11 ||| 2 ^ 51)
          omega
        rw [if_pos hnan, if_pos (decide_eq_true hinf), if_pos hnan]
        show p = binary32.quiet (_ % 2 ^ 52 / 2 ^ 29) ↔ _
        rw [quiet_cut hfrac, Nat.div_div_eq_div_mul]
        exact Iff.rfl
      · have hle := @narrowedBy_le true x.m x.exponent hlt
        rw [if_neg hnan, if_neg (by rw [decide_eq_true_iff]; omega),
          if_neg hnan]
        have hok := Extended.supported hu
        rcases Nat.lt_or_ge x.exponent 17407 with he | he
        · exact Format.isNearest_odd (by decide) (by decide)
            (isOdd_narrowedOdd hlt hok he) p
        · have hm : 2 ^ 63 ≤ x.m := by omega
          have hfar : binary64.val binary64.inf ≤ x.magnitude :=
            val_inf_le hm he
          rw [narrowedBy_big he, isNearest_far (le_refl _),
            isNearest_far hfar]

/-- Both emitters narrow every pattern to the same binary64, the nearest
one, and rounding to odd narrows to the nearest binary32. -/
theorem f80_to_f64_correctly_rounded (x : Extended) {c c' : Cpu}
    {Xmant Wexp Xsign Wd_aux Wd_tmp Xm Wx Xt1 Xt2 : Nat}
    (h : [31, Xmant, Wexp, Xsign, Wd_aux, Wd_tmp].Nodup)
    (hm : c.reg Xmant = x.mant) (hw : c.reg Wexp = x.se.setWidth 64)
    (h' : [31, Xm, Wx, Xt1, Xt2].Nodup)
    (hm' : c'.reg Xm = x.mant) (hw' : c'.reg Wx = x.se.setWidth 64) :
    let convert := (run (emit_f80_to_f64_convert Xmant Wexp Xsign Wd_aux
      Wd_tmp) c).reg Xmant
    let bits (round_to_odd : Bool) :=
      (run (emit_f80_bits_to_f64 Xm Wx Xt1 Xt2 round_to_odd) c').reg Xm
    x.Rounds binary64 convert.msb (Double.magnitude convert)
      ∧ bits false = convert
      ∧ ∀ neg p, Double.Rounds binary32 (bits true) neg p
        ↔ x.Rounds binary32 neg p := by
  dsimp only
  rw [Extended.convert_toDouble h hm hw, Extended.bits_toDouble h' hm' hw',
    Extended.bits_toDouble h' hm' hw']
  exact ⟨Extended.toDouble_rounds, rfl, x.toDouble_odd⟩

/-- A machine with a pattern in its registers. -/
def holding (x : Extended) : Cpu where
  x r := if r = 0 then x.mant else x.se.setWidth 64
  sp := 0
  mem := fun _ => 0
  d _ := 0
  flags := ⟨false, false, false, false⟩
  flush := 0

/-- Halfway between two numbers, the even one is the nearest. -/
theorem f80_to_f64_halfway :
    (⟨0x8000000000000C00, 0xBFFF⟩ : Extended).Rounds binary64 true
        0x3FF0000000000002
      ∧ (run (emit_f80_bits_to_f64 0 1 2 3 false)
          (holding ⟨0x8000000000000C00, 0xBFFF⟩)).reg 0
        = 0xBFF0000000000002 := by
  have h := @f80_to_f64_correctly_rounded ⟨0x8000000000000C00, 0xBFFF⟩
    (holding ⟨0x8000000000000C00, 0xBFFF⟩)
    (holding ⟨0x8000000000000C00, 0xBFFF⟩) 0 1 2 3 4 0 1 2 3
    (by decide) rfl rfl (by decide) rfl rfl
  have hrun : (run (emit_f80_to_f64_convert 0 1 2 3 4)
      (holding ⟨0x8000000000000C00, 0xBFFF⟩)).reg 0
      = 0xBFF0000000000002 := by
    decide +kernel
  dsimp only at h
  rw [hrun] at h
  exact ⟨h.1, h.2.1⟩

end X87Sidecar
