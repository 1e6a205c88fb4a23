/-
Widening to 80 bits loses nothing.

Both encoders write one function of the pattern (`toExtended`). It keeps
the sign, gives a finite number its value with the integer bit set
(`toExtended_finite`), and keeps the fraction of a NaN as it is. A value
of binary64 is its own nearest and its own rounding to odd, so narrowing
gives it back (`toDouble_toExtended`).
-/
import X87Sidecar.Proofs.Translate.Narrow

namespace X87Sidecar

open Lib Lib.Cpu Lib.Word Lines F80

/-- The ten bytes of a pattern, from an address on. -/
def Extended.store (x : Extended) (mem : Mem 64) (a : BitVec 64) : Mem 64 :=
  (mem.store a 8 x.mant).store (a + 8) 2 x.se

/-- An 80-bit pattern from numbers. -/
def extended (m : Nat) (neg : Bool) (e : Nat) : Extended :=
  ⟨BitVec.ofNat 64 m, BitVec.ofNat 16 (e + neg.toNat * 2 ^ 15)⟩

/-- What a binary64 pattern widens to: a number normalised, infinities and
NaNs with their fraction. -/
def Lib.Double.toExtended (b : BitVec 64) : Extended :=
  let E := Double.magnitude b / 2 ^ 52
  let F := Double.magnitude b % 2 ^ 52
  if E = 0 then
    if F = 0 then extended 0 b.msb 0
    else
      let k := 63 - Nat.log2 (F * 2 ^ 11)
      extended (F * 2 ^ (11 + k)) b.msb (15361 - k)
  else if E = 0x7FF then extended (2 ^ 63 + F * 2 ^ 11) b.msb 0x7FFF
  else extended (2 ^ 63 + F * 2 ^ 11) b.msb (E + 15360)

namespace F80

attribute [local simp] Arm.Logical.eval Shift.eval bit_of_lt bit_of_ge
  narrow_word narrow_word_wrap narrow_add narrow_add_wrap narrow_sub
  narrow_sub_neg add_word ubfm_down ubfm_up shl_word shr_word
  step_mask_7fff step_mask_8000 step_mask_top
  word_eq_zero narrow_neg toNat_word zero_cmpW carry_cmpW Cond.eval

/-- The sign of a halfword. -/
theorem and_8000 {a : Nat} (h : a < 2 ^ 16) :
    word a &&& 32768#64 = word (a / 2 ^ 15 * 2 ^ 15) := by
  have hlow : a % 2 ^ 15 < 2 ^ 15 := Nat.mod_lt _ (by decide)
  have hbit : a / 2 ^ 15 < 2 := by omega
  apply BitVec.eq_of_getLsbD_eq
  intro i hi
  have hmask : (32768#64).getLsbD i = decide (i = 15) := by
    rw [show (32768#64) = word (2 ^ 15) from rfl, BitVec.getLsbD_ofNat,
      Nat.testBit_two_pow, decide_eq_true hi, Bool.true_and]
    exact decide_eq_decide.mpr eq_comm
  rw [BitVec.getLsbD_and, hmask, BitVec.getLsbD_ofNat,
    BitVec.getLsbD_ofNat, decide_eq_true hi, Bool.true_and, Bool.true_and,
    Nat.mul_comm, Nat.testBit_two_pow_mul]
  rcases Nat.lt_trichotomy i 15 with h15 | rfl | h15
  · rw [decide_eq_false (show ¬ i = 15 by omega),
      decide_eq_false (show ¬ i ≥ 15 by omega), Bool.and_false,
      Bool.false_and]
  · rw [decide_eq_true rfl, Bool.and_true, Nat.sub_self,
      Nat.testBit_div_two_pow]
    simp
  · rw [decide_eq_false (show ¬ i = 15 by omega), Bool.and_false,
      Nat.testBit_lt_two_pow, Bool.and_false]
    have hpow : 2 ^ 1 ≤ 2 ^ (i - 15) :=
      Nat.pow_le_pow_right (by decide) (by omega)
    exact Nat.lt_of_lt_of_le hbit hpow

/-- The integer bit set, whether it was or not. -/
theorem or_top {t a : Nat} (ht : t < 2) (ha : a < 2 ^ 63) :
    word (t * 2 ^ 63 + a) ||| 9223372036854775808#64
      = word (2 ^ 63 + a) := by
  have hset : word a ||| 9223372036854775808#64 = word (2 ^ 63 + a) := by
    refine (@or_high a 1 63 ha).trans (word_congr ?_)
    omega
  rcases Nat.le_one_iff_eq_zero_or_eq_one.mp (Nat.le_of_lt_succ ht) with
    rfl | rfl
  · rw [Nat.zero_mul, Nat.zero_add, hset]
  · rw [Nat.one_mul, ← hset, BitVec.or_assoc, BitVec.or_self]

theorem half_word {a : Nat} :
    (word a).setWidth 16 = BitVec.ofNat 16 a := by
  apply BitVec.eq_of_toNat_eq
  rw [BitVec.toNat_setWidth, BitVec.toNat_ofNat, BitVec.toNat_ofNat]
  exact Nat.mod_mod_of_dvd _ (by decide)

/-- Exponent and sign put together. -/
theorem half_sign {s e : Nat} (hs : s < 2) (he : e < 2 ^ 15) :
    BitVec.setWidth 16 (Arm.narrow false (word e ||| word (s * 32768)))
      = BitVec.ofNat 16 (e + s * 2 ^ 15) := by
  have hor : word e ||| word (s * 32768) = word (e + s * 2 ^ 15) :=
    or_high 15 he
  rw [hor, narrow_word (by omega), half_word]

section
variable {c : Cpu} {Xaddr Dd Xb We Wt s E F : Nat}

/-- The ten bytes of a significand, sign and exponent. -/
def stored (c : Cpu) (Xaddr m s e : Nat) : Mem 64 :=
  (c.mem.store (c.reg Xaddr) 8 (word m)).store (c.reg Xaddr + 8) 2
    (BitVec.ofNat 16 (e + s * 2 ^ 15))

theorem top_fraction (hF : F < 2 ^ 52) :
    word ((E % 2 * 4503599627370496 + F) * 2048)
        ||| 9223372036854775808#64
      = word (2 ^ 63 + F * 2 ^ 11) := by
  rw [Nat.add_mul, Nat.mul_assoc]
  exact or_top (Nat.mod_lt _ (by decide)) (by omega)

theorem widen_normal (h : [31, Xaddr, Xb, We, Wt].Nodup)
    (hb : c.d Dd = word (s * 2 ^ 63 + E * 2 ^ 52 + F)) (hs : s < 2)
    (hF : F < 2 ^ 52) (hE : 0 < E) (hE' : E < 0x7FF) :
    (run (emit_f64_to_f80 Xaddr Dd Xb We Wt) c).mem
      = stored c Xaddr (2 ^ 63 + F * 2 ^ 11) s (E + 15360) := by
  obtain ⟨⟨_, _, _, _⟩, ⟨_, _, _, _, _, _⟩, _, _, _, _, _, _⟩ :=
    apart_four h
  have h1 : (s * 9223372036854775808 + E * 4503599627370496 + F)
      / 4503599627370496 % 2048 = E := by omega
  have h2 : (s * 9223372036854775808 + E * 4503599627370496 + F)
      / 281474976710656 % 65536 / 32768 = s := by omega
  have h3 : (s * 9223372036854775808 + E * 4503599627370496 + F)
      % 9007199254740992 = E % 2 * 4503599627370496 + F := by omega
  have hne : E ≠ 0 := by omega
  have hne' : E ≠ 2047 := by omega
  simp (disch := first | exact Apart.ne ‹_› | omega) [run, Forward.run,
    emit_f64_to_f80, hb, h1, h2, h3, hne, hne', and_8000,
    -BitVec.getLsbD_eq_getElem]
  rw [top_fraction hF, show E + 12288 + 3072 = E + 15360 by omega,
    half_sign hs (by omega)]
  rfl

/-- The exponent of infinities under the sign. -/
theorem special_sign (hs : s < 2) :
    BitVec.setWidth 16 (Arm.narrow false (word (s * 32768) ||| 32767#64))
      = BitVec.ofNat 16 (0x7FFF + s * 2 ^ 15) := by
  have hor : word (s * 32768) ||| 32767#64 = word (0x7FFF + s * 2 ^ 15) :=
    or_low 15 (by decide)
  rw [hor, narrow_word (by omega), half_word]

theorem widen_special (h : [31, Xaddr, Xb, We, Wt].Nodup)
    (hb : c.d Dd = word (s * 2 ^ 63 + 0x7FF * 2 ^ 52 + F)) (hs : s < 2)
    (hF : F < 2 ^ 52) :
    (run (emit_f64_to_f80 Xaddr Dd Xb We Wt) c).mem
      = stored c Xaddr (2 ^ 63 + F * 2 ^ 11) s 0x7FFF := by
  obtain ⟨⟨_, _, _, _⟩, ⟨_, _, _, _, _, _⟩, _, _, _, _, _, _⟩ :=
    apart_four h
  have h1 : (s * 9223372036854775808 + 9218868437227405312 + F)
      / 4503599627370496 % 2048 = 2047 := by omega
  have h2 : (s * 9223372036854775808 + 9218868437227405312 + F)
      / 281474976710656 % 65536 / 32768 = s := by omega
  have h3 : (s * 9223372036854775808 + 9218868437227405312 + F)
      % 9007199254740992 = 2047 % 2 * 4503599627370496 + F := by omega
  simp (disch := first | exact Apart.ne ‹_› | omega) [run, Forward.run,
    emit_f64_to_f80, hb, h1, h2, and_8000, -BitVec.getLsbD_eq_getElem]
  rw [h3, top_fraction hF, special_sign hs]
  rfl

theorem widen_zero (h : [31, Xaddr, Xb, We, Wt].Nodup)
    (hb : c.d Dd = word (s * 2 ^ 63)) (hs : s < 2) :
    (run (emit_f64_to_f80 Xaddr Dd Xb We Wt) c).mem
      = stored c Xaddr 0 s 0 := by
  obtain ⟨⟨_, _, _, _⟩, ⟨_, _, _, _, _, _⟩, _, _, _, _, _, _⟩ :=
    apart_four h
  have h1 : s * 9223372036854775808
      / 4503599627370496 % 2048 = 0 := by omega
  have h2 : s * 9223372036854775808
      / 281474976710656 % 65536 / 32768 = s := by omega
  have h3 : s * 9223372036854775808 % 9007199254740992 = 0 := by omega
  simp (disch := first | exact Apart.ne ‹_› | omega) [run, Forward.run,
    emit_f64_to_f80, hb, h1, h2, h3, and_8000, -BitVec.getLsbD_eq_getElem]
  unfold stored
  rw [Nat.zero_add]
  rfl

theorem widen_subnormal (h : [31, Xaddr, Xb, We, Wt].Nodup)
    (hb : c.d Dd = word (s * 2 ^ 63 + F)) (hs : s < 2) (h0 : 0 < F)
    (hF : F < 2 ^ 52) {k : Nat} (hk : leadingZeros (word (F * 2 ^ 11)) = k)
    (hpos : 0 < k) (hk64 : k < 64) :
    (run (emit_f64_to_f80 Xaddr Dd Xb We Wt) c).mem
      = stored c Xaddr (F * 2 ^ 11 * 2 ^ k) s (15361 - k) := by
  obtain ⟨⟨_, _, _, _⟩, ⟨_, _, _, _, _, _⟩, _, _, _, _, _, _⟩ :=
    apart_four h
  have h1 : (s * 9223372036854775808 + F)
      / 4503599627370496 % 2048 = 0 := by omega
  have h2 : (s * 9223372036854775808 + F)
      / 281474976710656 % 65536 / 32768 = s := by omega
  have h3 : (s * 9223372036854775808 + F) % 9007199254740992 = F := by omega
  have hne : F ≠ 0 := by omega
  have hk' : leadingZeros (word (F * 2048)) = k := hk
  have hmod : k % 64 = k := Nat.mod_eq_of_lt hk64
  have hexp : 4294967296 - k - 4294955008 + 3073 = 15361 - k := by omega
  simp (disch := first | exact Apart.ne ‹_› | omega) [run, Forward.run,
    emit_f64_to_f80, hb, h1, h2, h3, hne, hk', hmod, hexp, and_8000,
    -BitVec.getLsbD_eq_getElem]
  rw [half_sign hs (by omega)]
  rfl

theorem widen_bits_normal (h : [31, Xaddr, Xb, We, Wt].Nodup)
    (hb : c.reg Xb = word (s * 2 ^ 63 + E * 2 ^ 52 + F)) (hs : s < 2)
    (hF : F < 2 ^ 52) (hE : 0 < E) (hE' : E < 0x7FF) :
    (run (emit_f64_bits_to_f80 Xaddr Xb We Wt) c).mem
      = stored c Xaddr (2 ^ 63 + F * 2 ^ 11) s (E + 15360) := by
  obtain ⟨⟨_, _, _, _⟩, ⟨_, _, _, _, _, _⟩, _, _, _, _, _, _⟩ :=
    apart_four h
  have h1 : (s * 9223372036854775808 + E * 4503599627370496 + F)
      / 4503599627370496 % 2048 = E := by omega
  have h2 : (s * 9223372036854775808 + E * 4503599627370496 + F)
      / 281474976710656 % 65536 / 32768 = s := by omega
  have h3 : (s * 9223372036854775808 + E * 4503599627370496 + F)
      % 9007199254740992 = E % 2 * 4503599627370496 + F := by omega
  have hne : E ≠ 0 := by omega
  simp (disch := first | exact Apart.ne ‹_› | omega) [run, Forward.run,
    emit_f64_bits_to_f80, hb, h1, h2, h3, hne, and_8000,
    -BitVec.getLsbD_eq_getElem]
  rw [top_fraction hF, Nat.add_assoc E, Nat.add_assoc E,
    half_sign hs (by omega)]
  rfl

theorem widen_bits_special (h : [31, Xaddr, Xb, We, Wt].Nodup)
    (hb : c.reg Xb = word (s * 2 ^ 63 + 0x7FF * 2 ^ 52 + F)) (hs : s < 2)
    (hF : F < 2 ^ 52) :
    (run (emit_f64_bits_to_f80 Xaddr Xb We Wt) c).mem
      = stored c Xaddr (2 ^ 63 + F * 2 ^ 11) s 0x7FFF := by
  obtain ⟨⟨_, _, _, _⟩, ⟨_, _, _, _, _, _⟩, _, _, _, _, _, _⟩ :=
    apart_four h
  have h1 : (s * 9223372036854775808 + 9218868437227405312 + F)
      / 4503599627370496 % 2048 = 2047 := by omega
  have h2 : (s * 9223372036854775808 + 9218868437227405312 + F)
      / 281474976710656 % 65536 / 32768 = s := by omega
  have h3 : (s * 9223372036854775808 + 9218868437227405312 + F)
      % 9007199254740992 = 2047 % 2 * 4503599627370496 + F := by omega
  simp (disch := first | exact Apart.ne ‹_› | omega) [run, Forward.run,
    emit_f64_bits_to_f80, hb, h1, h2, and_8000, -BitVec.getLsbD_eq_getElem]
  rw [h3, top_fraction hF, special_sign hs]
  rfl

theorem widen_bits_zero (h : [31, Xaddr, Xb, We, Wt].Nodup)
    (hb : c.reg Xb = word (s * 2 ^ 63)) (hs : s < 2) :
    (run (emit_f64_bits_to_f80 Xaddr Xb We Wt) c).mem
      = stored c Xaddr 0 s 0 := by
  obtain ⟨⟨_, _, _, _⟩, ⟨_, _, _, _, _, _⟩, _, _, _, _, _, _⟩ :=
    apart_four h
  have h1 : s * 9223372036854775808
      / 4503599627370496 % 2048 = 0 := by omega
  have h2 : s * 9223372036854775808
      / 281474976710656 % 65536 / 32768 = s := by omega
  have h3 : s * 9223372036854775808 % 9007199254740992 = 0 := by omega
  simp (disch := first | exact Apart.ne ‹_› | omega) [run, Forward.run,
    emit_f64_bits_to_f80, hb, h1, h2, h3, and_8000,
    -BitVec.getLsbD_eq_getElem]
  unfold stored
  rw [Nat.zero_add]
  rfl

theorem widen_bits_subnormal (h : [31, Xaddr, Xb, We, Wt].Nodup)
    (hb : c.reg Xb = word (s * 2 ^ 63 + F)) (hs : s < 2) (h0 : 0 < F)
    (hF : F < 2 ^ 52) {k : Nat} (hk : leadingZeros (word (F * 2 ^ 11)) = k)
    (hpos : 0 < k) (hk64 : k < 64) :
    (run (emit_f64_bits_to_f80 Xaddr Xb We Wt) c).mem
      = stored c Xaddr (F * 2 ^ 11 * 2 ^ k) s (15361 - k) := by
  obtain ⟨⟨_, _, _, _⟩, ⟨_, _, _, _, _, _⟩, _, _, _, _, _, _⟩ :=
    apart_four h
  have h1 : (s * 9223372036854775808 + F)
      / 4503599627370496 % 2048 = 0 := by omega
  have h2 : (s * 9223372036854775808 + F)
      / 281474976710656 % 65536 / 32768 = s := by omega
  have h3 : (s * 9223372036854775808 + F) % 9007199254740992 = F := by omega
  have hne : F ≠ 0 := by omega
  have hk' : leadingZeros (word (F * 2048)) = k := hk
  have hmod : k % 64 = k := Nat.mod_eq_of_lt hk64
  have hexp : 4294967296 - k - 4294955008 + 3073 = 15361 - k := by omega
  simp (disch := first | exact Apart.ne ‹_› | omega) [run, Forward.run,
    emit_f64_bits_to_f80, hb, h1, h2, h3, hne, hk', hmod, hexp, and_8000,
    -BitVec.getLsbD_eq_getElem]
  rw [half_sign hs (by omega)]
  rfl

end

end F80

-- ======================================================= what is widened

section
variable {m e : Nat} {neg : Bool}

theorem extended_m (h : m < 2 ^ 64) : (extended m neg e).m = m :=
  toNat_word h

theorem extended_exponent (h : e < 2 ^ 15) :
    (extended m neg e).exponent = e := by
  show (BitVec.ofNat 16 _).toNat % 2 ^ 15 = e
  rw [BitVec.toNat_ofNat]
  cases neg <;> simp <;> omega

theorem extended_neg (h : e < 2 ^ 15) : (extended m neg e).neg = neg := by
  show (BitVec.ofNat 16 _).msb = neg
  rw [BitVec.msb_eq_decide, BitVec.toNat_ofNat]
  cases neg with
  | false => simp; omega
  | true => simp; omega

end

section
variable (b : BitVec 64)

theorem magnitude_lt : Double.magnitude b < 2 ^ 63 :=
  Nat.mod_lt _ (by decide)

/-- A pattern put together from its parts. -/
theorem pattern_eq : b = word (b.msb.toNat * 2 ^ 63
    + Double.magnitude b / 2 ^ 52 * 2 ^ 52
    + Double.magnitude b % 2 ^ 52) := by
  have hlt := b.isLt
  have hmsb : b.msb.toNat = b.toNat / 2 ^ 63 := by
    rw [BitVec.msb_eq_decide]
    rcases Nat.lt_or_ge b.toNat (2 ^ 63) with h | h
    · rw [decide_eq_false (by omega), Nat.div_eq_of_lt h]
      rfl
    · rw [decide_eq_true (by omega)]
      show 1 = _
      omega
  apply BitVec.eq_of_toNat_eq
  rw [BitVec.toNat_ofNat, hmsb]
  unfold Double.magnitude
  omega

/-- The normalising shift of a subnormal number. -/
theorem normalise {F : Nat} (h0 : 0 < F) (hF : F < 2 ^ 52) :
    0 < 63 - Nat.log2 (F * 2 ^ 11) ∧ 63 - Nat.log2 (F * 2 ^ 11) < 53
      ∧ 2 ^ 63 ≤ F * 2 ^ (11 + (63 - Nat.log2 (F * 2 ^ 11)))
      ∧ F * 2 ^ (11 + (63 - Nat.log2 (F * 2 ^ 11))) < 2 ^ 64
      ∧ leadingZeros (word (F * 2 ^ 11)) = 63 - Nat.log2 (F * 2 ^ 11) := by
  have hne : F * 2 ^ 11 ≠ 0 := by omega
  have hlo := Nat.log2_self_le hne
  have hhi := Nat.lt_log2_self (n := F * 2 ^ 11)
  have h63 : Nat.log2 (F * 2 ^ 11) < 63 := (Nat.log2_lt hne).mpr (by omega)
  have h11 : 11 ≤ Nat.log2 (F * 2 ^ 11) := by
    rw [Nat.le_log2 hne]
    omega
  have hzeros : leadingZeros (word (F * 2 ^ 11))
      = 63 - Nat.log2 (F * 2 ^ 11) := by
    unfold leadingZeros
    have hword : ¬ word (F * 2 ^ 11) = 0 := fun h =>
      hne ((word_eq_zero (by omega)).mp h)
    rw [if_neg hword, toNat_word (by omega)]
  generalize hl : Nat.log2 (F * 2 ^ 11) = l at *
  have hpow : 2 ^ 63 = 2 ^ l * 2 ^ (63 - l) := by
    rw [← Nat.pow_add, Nat.add_sub_cancel' (by omega)]
  have hprod : F * 2 ^ (11 + (63 - l)) = F * 2 ^ 11 * 2 ^ (63 - l) := by
    rw [Nat.pow_add, Nat.mul_assoc]
  have hpos : 0 < 2 ^ (63 - l) := Nat.two_pow_pos _
  refine ⟨by omega, by omega, ?_, ?_, hzeros⟩
  · rw [hprod, hpow]
    exact Nat.mul_le_mul_right _ hlo
  · have hpow' : 2 ^ 64 = 2 ^ (l + 1) * 2 ^ (63 - l) := by
      rw [← Nat.pow_add, show l + 1 + (63 - l) = 64 by omega]
    rw [hprod, hpow']
    exact Nat.mul_lt_mul_of_pos_right hhi hpos

end

namespace F80

section
variable {c : Cpu} {Xaddr Dd Xb We Wt : Nat} {b : BitVec 64}

theorem stored_extended {m e : Nat} {neg : Bool} :
    stored c Xaddr m neg.toNat e
      = (extended m neg e).store c.mem (c.reg Xaddr) := rfl

/-- The bytes that `emit_f64_to_f80` writes. -/
theorem f64_to_f80_stores (h : [31, Xaddr, Xb, We, Wt].Nodup)
    (hb : c.d Dd = b) :
    (run (emit_f64_to_f80 Xaddr Dd Xb We Wt) c).mem
      = (Double.toExtended b).store c.mem (c.reg Xaddr) := by
  have hlt := magnitude_lt b
  have hs : b.msb.toNat < 2 := Bool.toNat_lt _
  have hF : Double.magnitude b % 2 ^ 52 < 2 ^ 52 := Nat.mod_lt _ (by decide)
  have hE : Double.magnitude b / 2 ^ 52 < 2 ^ 11 := by omega
  rw [pattern_eq b] at hb
  unfold Double.toExtended
  dsimp only
  generalize Double.magnitude b / 2 ^ 52 = E at *
  generalize Double.magnitude b % 2 ^ 52 = F at *
  by_cases hE0 : E = 0
  · rw [if_pos hE0]
    rw [hE0, Nat.zero_mul, Nat.add_zero] at hb
    by_cases hF0 : F = 0
    · rw [if_pos hF0]
      rw [hF0, Nat.add_zero] at hb
      exact widen_zero h hb hs
    · obtain ⟨hpos, hk, -, -, hzeros⟩ := normalise (by omega : 0 < F) hF
      rw [if_neg hF0, ← stored_extended, Nat.pow_add, ← Nat.mul_assoc]
      exact widen_subnormal h hb hs (by omega) hF hzeros hpos (by omega)
  · rw [if_neg hE0]
    by_cases hE7 : E = 0x7FF
    · rw [if_pos hE7]
      rw [hE7] at hb
      exact widen_special h hb hs hF
    · rw [if_neg hE7]
      exact widen_normal h hb hs hF (by omega) (by omega)

/-- The bytes that `emit_f64_bits_to_f80` writes. -/
theorem f64_bits_to_f80_stores (h : [31, Xaddr, Xb, We, Wt].Nodup)
    (hb : c.reg Xb = b) :
    (run (emit_f64_bits_to_f80 Xaddr Xb We Wt) c).mem
      = (Double.toExtended b).store c.mem (c.reg Xaddr) := by
  have hlt := magnitude_lt b
  have hs : b.msb.toNat < 2 := Bool.toNat_lt _
  have hF : Double.magnitude b % 2 ^ 52 < 2 ^ 52 := Nat.mod_lt _ (by decide)
  have hE : Double.magnitude b / 2 ^ 52 < 2 ^ 11 := by omega
  rw [pattern_eq b] at hb
  unfold Double.toExtended
  dsimp only
  generalize Double.magnitude b / 2 ^ 52 = E at *
  generalize Double.magnitude b % 2 ^ 52 = F at *
  by_cases hE0 : E = 0
  · rw [if_pos hE0]
    rw [hE0, Nat.zero_mul, Nat.add_zero] at hb
    by_cases hF0 : F = 0
    · rw [if_pos hF0]
      rw [hF0, Nat.add_zero] at hb
      exact widen_bits_zero h hb hs
    · obtain ⟨hpos, hk, -, -, hzeros⟩ := normalise (by omega : 0 < F) hF
      rw [if_neg hF0, ← stored_extended, Nat.pow_add, ← Nat.mul_assoc]
      exact widen_bits_subnormal h hb hs (by omega) hF hzeros hpos
        (by omega)
  · rw [if_neg hE0]
    by_cases hE7 : E = 0x7FF
    · rw [if_pos hE7]
      rw [hE7] at hb
      exact widen_bits_special h hb hs hF
    · rw [if_neg hE7]
      exact widen_bits_normal h hb hs hF (by omega) (by omega)

end
end F80

-- ======================================================== its value

/-- The value of a finite pattern, by exponent and fraction. -/
theorem val_parts {E F : Nat} (hF : F < 2 ^ 52) (hE : 0 < E) :
    binary64.val (E * 2 ^ 52 + F)
      = ((2 ^ 52 + F : Nat) : Rat) * Format.two (E - 1075) := by
  have hparts : E * 2 ^ 52 + F = (E - 1) * 2 ^ 52 + (2 ^ 52 + F) := by omega
  rw [hparts]
  refine (@Format.val_scaled binary64 (E - 1) (2 ^ 52 + F)
    (by show 2 ^ 52 + F ≤ 2 ^ 53; omega) (.inr (Nat.le_add_right _ _))).trans ?_
  congr 2
  show ((E - 1 : Nat) : Int) + -1074 = _
  omega

theorem val_subnormal {F : Nat} (hF : F < 2 ^ 52) :
    binary64.val F = F * Format.two (-1074) := by
  unfold Format.val
  exact if_pos hF

/-- The exponent that goes with a normalising shift. -/
theorem shift_exponent {k : Nat} (hk : k < 64) : ((11 + k : Nat) : Int)
    + (((max (15361 - k) 1 : Nat) : Int) - 16446) = -1074 := by
  omega

/-- What a finite pattern widens to has its magnitude, is in the range of
binary64 and is normalised. -/
theorem toExtended_finite {b : BitVec 64}
    (h : Double.magnitude b < binary64.inf) :
    (Double.toExtended b).neg = b.msb
      ∧ (Double.toExtended b).exponent < 17407
      ∧ (2 ^ 63 ≤ (Double.toExtended b).m
        ∨ (Double.toExtended b).m = 0 ∧ (Double.toExtended b).exponent = 0)
      ∧ (Double.toExtended b).magnitude
        = binary64.val (Double.magnitude b) := by
  have hF : Double.magnitude b % 2 ^ 52 < 2 ^ 52 := Nat.mod_lt _ (by decide)
  have hE : Double.magnitude b / 2 ^ 52 < 0x7FF := by
    have hinf : binary64.inf = 0x7FF * 2 ^ 52 := by decide
    omega
  have hparts := Nat.div_add_mod' (Double.magnitude b) (2 ^ 52)
  unfold Double.toExtended Extended.magnitude
  dsimp only
  generalize Double.magnitude b / 2 ^ 52 = E at *
  generalize Double.magnitude b % 2 ^ 52 = F at *
  rw [← hparts]
  by_cases hE0 : E = 0
  · subst hE0
    rw [if_pos rfl, Nat.zero_mul, Nat.zero_add, val_subnormal hF]
    by_cases hF0 : F = 0
    · subst hF0
      rw [if_pos rfl, extended_neg (by decide), extended_m (by decide),
        extended_exponent (by decide)]
      refine ⟨rfl, by decide, .inr ⟨rfl, rfl⟩, ?_⟩
      rw [Nat.cast_zero, zero_mul, zero_mul]
    · obtain ⟨-, hk, hge, hlt, -⟩ := normalise (by omega : 0 < F) hF
      generalize 63 - Nat.log2 (F * 2 ^ 11) = k at *
      rw [if_neg hF0, extended_neg (by omega), extended_m hlt,
        extended_exponent (by omega)]
      refine ⟨rfl, by omega, .inl hge, ?_⟩
      have hexp : ((11 + k : Nat) : Int)
          + (((max (15361 - k) 1 : Nat) : Int) - 16446) = -1074 :=
        shift_exponent (by omega)
      rw [Nat.cast_mul, ← Format.two_nat (11 + k), mul_assoc,
        ← Format.two_add, hexp]
  · rw [if_neg hE0, if_neg (by omega), extended_neg (by omega),
      extended_m (by omega), extended_exponent (by omega),
      val_parts hF (by omega)]
    refine ⟨rfl, by omega, .inl (by omega), ?_⟩
    rw [show 2 ^ 63 + F * 2 ^ 11 = (2 ^ 52 + F) * 2 ^ 11 by omega,
      Nat.cast_mul, ← Format.two_nat 11, mul_assoc, ← Format.two_add]
    refine congrArg (fun x => ((2 ^ 52 + F : Nat) : Rat) * Format.two x) ?_
    omega


/-- Rounded to odd, a value of the format stays what it is. -/
theorem eq_of_isOdd {f : Format} {p q : Nat}
    (h : f.IsOdd (f.val q) p) : p = q := by
  rcases h with h | ⟨-, hlo, hhi⟩
  · exact f.val_strictMono.injective h
  · have hlo' := f.val_strictMono.lt_iff_lt.mp hlo
    have hhi' := f.val_strictMono.lt_iff_lt.mp hhi
    omega

/-- A finite pattern comes back. -/
theorem narrowedBy_toExtended {b : BitVec 64} (odd : Bool)
    (h : Double.magnitude b < binary64.inf) :
    narrowedBy odd (Double.toExtended b).m (Double.toExtended b).exponent
      = Double.magnitude b := by
  obtain ⟨-, he, hcanon, hval⟩ := toExtended_finite h
  have hok : 2 ^ 63 ≤ (Double.toExtended b).m
      ∨ (Double.toExtended b).exponent = 0 := by
    rcases hcanon with h | h
    · exact .inl h
    · exact .inr h.2
  unfold Extended.magnitude at hval
  cases odd with
  | false =>
      have hnear := isNearest_narrowed Extended.m_lt hok
      rw [hval] at hnear
      exact hnear.unique (Format.isNearest_val (Nat.le_of_lt h))
  | true =>
      have hodd := isOdd_narrowedOdd Extended.m_lt hok he
      rw [hval] at hodd
      exact eq_of_isOdd hodd

/-- What infinities and NaNs widen to. -/
theorem toExtended_special {b : BitVec 64}
    (h : binary64.inf ≤ Double.magnitude b) :
    (Double.toExtended b).neg = b.msb
      ∧ (Double.toExtended b).exponent = 0x7FFF
      ∧ (Double.toExtended b).m
        = 2 ^ 63 + Double.magnitude b % 2 ^ 52 * 2 ^ 11 := by
  have hlt := magnitude_lt b
  have hinf : binary64.inf = 0x7FF * 2 ^ 52 := by decide
  unfold Double.toExtended
  dsimp only
  rw [if_neg (by omega), if_pos (by omega)]
  exact ⟨extended_neg (by decide), extended_exponent (by decide),
    extended_m (by omega)⟩

/-- What a pattern denotes is what it widens to: a number normalised and
of the same value, an infinity, or a NaN with the same payload. -/
def Extended.Denotes (x : Extended) (b : BitVec 64) : Prop :=
  x.neg = b.msb ∧
    if Double.isNaN b then
      x.isNaN = true ∧ x.fraction = Double.magnitude b % 2 ^ 52 * 2 ^ 11
    else if Double.isInf b then x.isInf = true
    else x.isNaN = false ∧ x.isInf = false
      ∧ (2 ^ 63 ≤ x.m ∨ x.m = 0 ∧ x.exponent = 0)
      ∧ x.value = Double.value b

theorem toExtended_denotes (b : BitVec 64) :
    (Double.toExtended b).Denotes b := by
  have hlt := magnitude_lt b
  have hF : Double.magnitude b % 2 ^ 52 < 2 ^ 52 := Nat.mod_lt _ (by decide)
  have hinf : binary64.inf = 0x7FF * 2 ^ 52 := by decide
  unfold Extended.Denotes
  rcases Nat.lt_or_ge (Double.magnitude b) binary64.inf with h | h
  · obtain ⟨hneg, he, hcanon, hval⟩ := toExtended_finite h
    have hnan : ¬ Double.isNaN b = true := by
      unfold Double.isNaN
      rw [decide_eq_true_iff]
      omega
    have hnoinf : ¬ Double.isInf b = true := by
      unfold Double.isInf
      rw [decide_eq_true_iff]
      omega
    rw [if_neg hnan, if_neg hnoinf]
    have hexp : ¬ (Double.toExtended b).exponent = 0x7FFF := by omega
    refine ⟨hneg, ?_, ?_, hcanon, ?_⟩
    · unfold Extended.isNaN
      simp [hexp]
    · unfold Extended.isInf
      simp [hexp]
    · unfold Extended.value Double.value
      rw [hneg, hval]
  · obtain ⟨hneg, he, hm⟩ := toExtended_special h
    have hu : (Double.toExtended b).unsupported = false := by
      rw [← Bool.not_eq_true, Extended.unsupported_iff]
      omega
    have hfrac : (Double.toExtended b).fraction
        = Double.magnitude b % 2 ^ 52 * 2 ^ 11 := by
      unfold Extended.fraction
      omega
    refine ⟨hneg, ?_⟩
    by_cases h0 : Double.magnitude b = binary64.inf
    · have hnan : ¬ Double.isNaN b = true := by
        unfold Double.isNaN
        rw [decide_eq_true_iff]
        omega
      have hisinf : Double.isInf b = true := decide_eq_true h0
      rw [if_neg hnan, if_pos hisinf]
      unfold Extended.isInf
      rw [hu, he, hfrac]
      have : Double.magnitude b % 2 ^ 52 * 2 ^ 11 = 0 := by omega
      rw [this]
      rfl
    · have hnan : Double.isNaN b = true := decide_eq_true (by omega)
      rw [if_pos hnan]
      refine ⟨?_, hfrac⟩
      unfold Extended.isNaN
      rw [hu, he, hfrac]
      have hne : Double.magnitude b % 2 ^ 52 * 2 ^ 11 ≠ 0 := by omega
      rw [Bool.not_false, Bool.true_and, Bool.and_eq_true]
      exact ⟨rfl, decide_eq_true hne⟩

/-- A pattern with the quiet bit of a NaN set. -/
def Lib.Double.quieted (b : BitVec 64) : BitVec 64 :=
  if Double.isNaN b then b ||| 0x0008000000000000 else b

/-- Narrowing what a pattern widened to gives the pattern back, a NaN
quiet. -/
theorem toDouble_toExtended (odd : Bool) (b : BitVec 64) :
    (Double.toExtended b).toDouble odd = Double.quieted b := by
  have hlt := magnitude_lt b
  have hF : Double.magnitude b % 2 ^ 52 < 2 ^ 52 := Nat.mod_lt _ (by decide)
  have hinf : binary64.inf = 0x7FF * 2 ^ 52 := by decide
  have hdenotes := toExtended_denotes b
  have hparts : b = word (Double.magnitude b + b.msb.toNat * 2 ^ 63) := by
    refine (pattern_eq b).trans (word_congr ?_)
    omega
  have hu : (Double.toExtended b).unsupported = false := by
    rw [← Bool.not_eq_true, Extended.unsupported_iff]
    rcases Nat.lt_or_ge (Double.magnitude b) binary64.inf with h | h
    · have := (toExtended_finite h).2.2.1
      omega
    · have := (toExtended_special h).2.2
      omega
  unfold Extended.toDouble Double.quieted
  rw [if_neg (by rw [hu]; decide), hdenotes.1]
  have hright := hdenotes.2
  by_cases hnan : Double.isNaN b = true
  · rw [if_pos hnan] at hright ⊢
    rw [if_pos hright.1, hright.2,
      Nat.mul_div_cancel _ (show 0 < 2 ^ 11 by decide)]
    have hbits : b = word (Double.magnitude b % 2 ^ 52)
        ||| 9218868437227405312#64 ||| word (b.msb.toNat * 2 ^ 63) := by
      have hfrac : word (Double.magnitude b % 2 ^ 52)
          ||| 9218868437227405312#64 = word (Double.magnitude b) := by
        refine (@or_high _ 2047 52 hF).trans (word_congr ?_)
        have := of_decide_eq_true hnan
        omega
      rw [hfrac, or_high 63 hlt]
      exact hparts
    have hquiet : word (binary64.quiet (Double.magnitude b % 2 ^ 52)
        + b.msb.toNat * 2 ^ 63)
        = word (Double.magnitude b % 2 ^ 52) ||| 2251799813685248#64
          ||| 9218868437227405312#64 ||| word (b.msb.toNat * 2 ^ 63) := by
      rw [word_quiet hF, or_high 63 (quiet_lt hF)]
    refine hquiet.trans ?_
    conv_rhs => rw [hbits]
    ac_rfl
  · rw [if_neg hnan] at hright ⊢
    have hnan' : ¬ (Double.toExtended b).isNaN = true := by
      by_cases hi : Double.isInf b = true
      · rw [if_pos hi] at hright
        unfold Extended.isInf at hright
        unfold Extended.isNaN
        rw [Bool.and_eq_true, decide_eq_true_iff] at hright ⊢
        exact fun hn => hn.2 hright.2
      · rw [if_neg hi] at hright
        rw [hright.1]
        decide
    rw [if_neg hnan']
    refine Eq.trans ?_ hparts.symm
    apply word_congr
    apply congrArg (· + b.msb.toNat * 2 ^ 63)
    rcases Nat.lt_or_ge (Double.magnitude b) binary64.inf with h | h
    · exact narrowedBy_toExtended odd h
    · have hle : ¬ binary64.inf < Double.magnitude b := fun hgt =>
        hnan (decide_eq_true hgt)
      rw [narrowedBy_big (by rw [(toExtended_special h).2.1]; decide)]
      omega

/-- Both emitters write the ten bytes of one 80-bit number, which denotes
what the pattern denotes, and either narrowing gives the pattern back, a
NaN quiet. -/
theorem f64_to_f80_widens (b : BitVec 64) {c c' : Cpu}
    {Xaddr_slot Dd_src Xbits Wexp Wd_tmp Xaddr Xb We Wt : Nat}
    (h : [31, Xaddr_slot, Xbits, Wexp, Wd_tmp].Nodup) (hb : c.d Dd_src = b)
    (h' : [31, Xaddr, Xb, We, Wt].Nodup) (hb' : c'.reg Xb = b) :
    let x := Double.toExtended b
    (run (emit_f64_to_f80 Xaddr_slot Dd_src Xbits Wexp Wd_tmp) c).mem
        = x.store c.mem (c.reg Xaddr_slot)
      ∧ (run (emit_f64_bits_to_f80 Xaddr Xb We Wt) c').mem
        = x.store c'.mem (c'.reg Xaddr)
      ∧ x.Denotes b
      ∧ (∀ (d : Cpu) (Xmant Wexp Xsign Wd_aux Wd_tmp : Nat),
          [31, Xmant, Wexp, Xsign, Wd_aux, Wd_tmp].Nodup →
          d.reg Xmant = x.mant → d.reg Wexp = x.se.setWidth 64 →
          (run (emit_f80_to_f64_convert Xmant Wexp Xsign Wd_aux Wd_tmp)
            d).reg Xmant = Double.quieted b)
      ∧ ∀ (d : Cpu) (Xm Wx Xt1 Xt2 : Nat) (round_to_odd : Bool),
          [31, Xm, Wx, Xt1, Xt2].Nodup →
          d.reg Xm = x.mant → d.reg Wx = x.se.setWidth 64 →
          (run (emit_f80_bits_to_f64 Xm Wx Xt1 Xt2 round_to_odd) d).reg Xm
            = Double.quieted b := by
  refine ⟨f64_to_f80_stores h hb, f64_bits_to_f80_stores h' hb',
    toExtended_denotes b, ?_, ?_⟩
  · intro d Xmant Wexp Xsign Wd_aux Wd_tmp hd hm hw
    rw [Extended.convert_toDouble hd hm hw, toDouble_toExtended]
  · intro d Xm Wx Xt1 Xt2 round_to_odd hd hm hw
    rw [Extended.bits_toDouble hd hm hw, toDouble_toExtended]

/-- A machine with a pattern in a floating-point register and in the
registers that are not zero. -/
def widening (b : BitVec 64) : Cpu where
  x r := if r = 0 then 0 else b
  sp := 0
  mem := fun _ => 0
  d _ := b
  flags := ⟨false, false, false, false⟩
  flush := 0

/-- -1.5 widens to -1.5. -/
theorem f64_to_f80_negative :
    (run (emit_f64_to_f80 0 0 1 2 3) (widening 0xBFF8000000000000)).mem
        = (⟨0xC000000000000000, 0xBFFF⟩ : Extended).store (fun _ => 0) 0
      ∧ (run (emit_f64_bits_to_f80 0 1 2 3)
          (widening 0xBFF8000000000000)).mem
        = (⟨0xC000000000000000, 0xBFFF⟩ : Extended).store (fun _ => 0)
          0 := by
  have h := @f64_to_f80_widens 0xBFF8000000000000
    (widening 0xBFF8000000000000) (widening 0xBFF8000000000000)
    0 0 1 2 3 0 1 2 3 (by decide) rfl (by decide) rfl
  have hx : Double.toExtended 0xBFF8000000000000
      = ⟨0xC000000000000000, 0xBFFF⟩ := by
    decide
  dsimp only at h
  rw [hx] at h
  exact ⟨h.1, h.2.1⟩

/-- A signalling NaN is widened as it is: bit 62, which makes a NaN of 80
bits quiet, stays clear. -/
theorem f64_to_f80_signalling :
    Double.isNaN 0x7FF0000000000001 = true
      ∧ ((run (emit_f64_to_f80 0 0 1 2 3)
          (widening 0x7FF0000000000001)).mem.load 0 8).getLsbD 62 = false
      ∧ ((run (emit_f64_bits_to_f80 0 1 2 3)
          (widening 0x7FF0000000000001)).mem.load 0 8).getLsbD 62
        = false := by
  decide +kernel

end X87Sidecar
