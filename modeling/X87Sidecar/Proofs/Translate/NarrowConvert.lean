/-
The paths of `emit_f80_to_f64_convert`.

It rounds with flags and selections where the other emitter branches: the
carry of the significand comes back as a flag and is added to the
exponent, and overflow selects infinity (`convert_rounded`).
-/
import X87Sidecar.Proofs.Translate.NarrowBits

namespace X87Sidecar.F80

open Lib Lib.Cpu Lib.Word Lines

/-- The sign put on top. -/
theorem bfm_sign {s p : Nat} (hs : s < 2) (hp : p < 2 ^ 63) :
    bfmEval 64 1 0 (word s) (word p) = word (p + s * 2 ^ 63) :=
  bfm_up (by decide) hp hs

/-- The exponent put above the fraction. -/
theorem bfm_exponent {p e : Nat} (he : e < 2 ^ 11) (hp : p < 2 ^ 52) :
    bfmEval 64 12 10 (word e) (word p) = word (p + e * 2 ^ 52) :=
  bfm_up (by decide) hp he

/-- The quiet bit of a payload set. -/
theorem or_quiet {p : Nat} :
    word p ||| 2251799813685248#64 = word (p ||| 2 ^ 51) := or_word

/-- With the largest exponent that is a quiet NaN. -/
theorem quiet_eq {p : Nat} :
    (p ||| 2 ^ 51) + 2047 * 2 ^ 52 = binary64.quiet p :=
  Nat.add_comm _ _

/-- The fraction of a significand. -/
theorem and_fraction (a : Nat) :
    word a &&& 4503599627370495#64 = word (a % 2 ^ 52) :=
  and_ones 52 (by decide)

/-- To nearest even by what is shifted out: one more above the half, and at
the half where the significand is odd. -/
theorem sticky_word {q t : Nat} :
    word q + (if 9223372036854775808 ≤ t ∧ ¬ t = 9223372036854775808
        then 1#64 else 0#64)
      + ((if t = 9223372036854775808 then 1#64 else 0#64) &&& word q)
      = word (q + if 2 ^ 63 < t ∨ t = 2 ^ 63 ∧ q % 2 = 1 then 1
        else 0) := by
  have hand : 1#64 &&& word q = word (q % 2) := by
    rw [BitVec.and_comm]
    exact and_ones 1 (by decide)
  rcases Nat.lt_trichotomy t (2 ^ 63) with h | h | h
  · rw [if_neg (by omega), if_neg (by omega), if_neg (by omega)]
    simp
  · rw [if_neg (by omega), if_pos (show t = 9223372036854775808 from h),
      hand]
    have hodd : (if 2 ^ 63 < t ∨ t = 2 ^ 63 ∧ q % 2 = 1 then 1 else 0)
        = q % 2 := by
      split <;> omega
    rw [hodd, BitVec.add_zero, add_word]
  · rw [if_pos (by omega), if_neg (by omega), if_pos (by omega)]
    rw [BitVec.zero_and, BitVec.add_zero]
    exact add_word

-- ============================================================== paths

attribute [local simp] Arm.Logical.eval Shift.eval bit_of_lt bit_of_ge
  narrow_word narrow_word_wrap narrow_add narrow_add_wrap narrow_sub
  narrow_sub_neg add_word ubfm_down ubfm_up shl_word shr_word
  step_mask_7fff step_mask_quiet step_mask_fraction and_7fff and_fraction
  word_eq_zero narrow_neg neg_word toNat_word zero_cmpW carry_cmpW
  zero_cmpX carry_cmpX carry_adds Cond.eval

section
variable {c : Cpu} {Xmant Wexp Xsign Wd_aux Wd_tmp m s e : Nat}

/-- The integer bit clear under a nonzero exponent: the default NaN. -/
theorem convert_default_path
    (h : [31, Xmant, Wexp, Xsign, Wd_aux, Wd_tmp].Nodup)
    (hm : c.reg Xmant = word m) (hlt : m < 2 ^ 63)
    (hw : c.reg Wexp = word (s * 2 ^ 15 + e)) (hs : s < 2) (he : e < 2 ^ 15)
    (h0 : 0 < e) :
    (run (emit_f80_to_f64_convert Xmant Wexp Xsign Wd_aux Wd_tmp) c).reg
      Xmant = word 0xFFF8000000000000 := by
  obtain ⟨⟨_, _, _, _, _⟩, ⟨_, _, _, _, _, _, _, _, _, _⟩, _, _, _, _,
    _, _, _, _, _, _⟩ := apart_five h
  have hexp : (s * 32768 + e) % 32768 = e := by omega
  have hne : e ≠ 0 := by omega
  simp (disch := first | exact Apart.ne ‹_› | omega) [run, Forward.run,
    emit_f80_to_f64_convert, hm, hw, hexp, hne, -BitVec.getLsbD_eq_getElem]

/-- Below the normal numbers the significand is shifted down and rounded,
or nothing is left of it but its rounding. -/
theorem convert_small_path
    (h : [31, Xmant, Wexp, Xsign, Wd_aux, Wd_tmp].Nodup)
    (hm : c.reg Xmant = word m) (hlt : m < 2 ^ 64)
    (hw : c.reg Wexp = word (s * 2 ^ 15 + e)) (hs : s < 2)
    (he : e < 15361) (hok : 2 ^ 63 ≤ m ∨ e = 0) :
    (run (emit_f80_to_f64_convert Xmant Wexp Xsign Wd_aux Wd_tmp) c).reg
      Xmant = word (cut false m (15372 - e) + s * 2 ^ 63) := by
  obtain ⟨⟨_, _, _, _, _⟩, ⟨_, _, _, _, _, _, _, _, _, _⟩, _, _, _, _,
    _, _, _, _, _, _⟩ := apart_five h
  have hexp : (s * 32768 + e) % 32768 = e := by omega
  have hsign : (s * 32768 + e) / 32768 % 2 = s := by omega
  have hle : e < 15360 ∨ e = 15360 := by omega
  have hcut := @cut_le m false (15372 - e) hlt (by omega)
  rcases Nat.lt_or_ge (15372 - e) 64 with hk | hk
  · have hk' : ¬ 64 ≤ 15372 - e := by omega
    have hleft : (18446744073709551616 - (15372 - e)) % 64
        = 64 - (15372 - e) := by omega
    have hright : (15372 - e) % 64 = 15372 - e := by omega
    have htlt : m % 2 ^ (15372 - e) * 2 ^ (64 - (15372 - e)) < 2 ^ 64 := by
      calc m % 2 ^ (15372 - e) * 2 ^ (64 - (15372 - e))
          < 2 ^ (15372 - e) * 2 ^ (64 - (15372 - e)) :=
            Nat.mul_lt_mul_of_pos_right
              (Nat.mod_lt _ (Nat.two_pow_pos _)) (Nat.two_pow_pos _)
        _ = 2 ^ 64 := by
            rw [← Nat.pow_add, Nat.add_sub_cancel' (by omega)]
    have hcut' := @cut_eq m false (15372 - e) _ (by omega) rfl
    simp only [Bool.false_eq_true, if_false] at hcut'
    have hshifted := @word_shifted m (15372 - e) (by omega)
    generalize m % 2 ^ (15372 - e) * 2 ^ (64 - (15372 - e)) = t at *
    simp (disch := first | exact Apart.ne ‹_› | omega) [run, Forward.run,
      emit_f80_to_f64_convert, hm, hw, hexp, hsign, if_pos hle, hk', hleft,
      hright, hshifted, -BitVec.getLsbD_eq_getElem]
    rw [sticky_word, hcut']
    exact bfm_sign hs (by omega)
  · have hfar := @cut_far m false _ hlt hk
    simp only [Bool.false_eq_true, if_false] at hfar
    rcases Nat.lt_or_ge m (2 ^ 63) with h63 | h63
    · obtain rfl : e = 0 := by omega
      have hs2 : s % 2 = s := by omega
      rw [if_neg (by omega)] at hfar
      rw [← hfar]
      simp (disch := first | exact Apart.ne ‹_› | omega) [run, Forward.run,
        emit_f80_to_f64_convert, hm, hw, hs2, -BitVec.getLsbD_eq_getElem]
      rw [← Nat.zero_add (s * _)]
      exact bfm_sign hs (by decide)
    · have hbit : ((if 9223372036854775808 ≤ m ∧ ¬m = 9223372036854775808
          then 1#64 else 0#64) &&& if 15372 - e = 64 then 1#64 else 0#64)
          = word (cut false m (15372 - e)) := by
        rw [← hfar]
        by_cases hup : 2 ^ 63 < m
        · by_cases h64 : 15372 - e = 64
          · rw [if_pos (by omega), if_pos h64, if_pos (by omega)]
            rfl
          · have hno : ¬ (15372 - e - 64 = 0 ∧ 2 ^ 63 < m) := by omega
            rw [if_neg h64, if_neg hno, BitVec.and_zero]
        · have hno : ¬ (15372 - e - 64 = 0 ∧ 2 ^ 63 < m) := by omega
          have hno' : ¬ (9223372036854775808 ≤ m
              ∧ ¬ m = 9223372036854775808) := by omega
          rw [if_neg hno, if_neg hno', BitVec.zero_and]
      simp (disch := first | exact Apart.ne ‹_› | omega) [run, Forward.run,
        emit_f80_to_f64_convert, hm, hw, hexp, hsign, if_pos hle, hk, hbit,
        -BitVec.getLsbD_eq_getElem]
      exact bfm_sign hs (by omega)

/-- Infinities, and NaNs made quiet. -/
theorem convert_nan_path
    (h : [31, Xmant, Wexp, Xsign, Wd_aux, Wd_tmp].Nodup)
    (hm : c.reg Xmant = word m) (hlt : m < 2 ^ 64)
    (hw : c.reg Wexp = word (s * 2 ^ 15 + (2 ^ 15 - 1))) (hs : s < 2)
    (hge : 2 ^ 63 ≤ m) :
    (run (emit_f80_to_f64_convert Xmant Wexp Xsign Wd_aux Wd_tmp) c).reg
      Xmant = word ((if m = 2 ^ 63 then binary64.inf else
        binary64.quiet (m % 2 ^ 63 / 2 ^ 11)) + s * 2 ^ 63) := by
  obtain ⟨⟨_, _, _, _, _⟩, ⟨_, _, _, _, _, _, _, _, _, _⟩, _, _, _, _,
    _, _, _, _, _, _⟩ := apart_five h
  have hexp : (s * 32768 + 32767) % 32768 = 32767 := by omega
  have hsign : (s * 32768 + 32767) / 32768 % 2 = s := by omega
  have hpayload : m / 2048 % 4503599627370496
      = m % 9223372036854775808 / 2048 := by omega
  by_cases hinf : m = 2 ^ 63
  · subst hinf
    simp (disch := first | exact Apart.ne ‹_› | omega) [run, Forward.run,
      emit_f80_to_f64_convert, hm, hw, hexp, hsign,
      -BitVec.getLsbD_eq_getElem]
    rw [bfm_exponent (by decide) (by decide)]
    exact bfm_sign hs (by decide)
  · have hnan : m % 9223372036854775808 ≠ 0 := by omega
    simp (disch := first | exact Apart.ne ‹_› | omega) [run, Forward.run,
      emit_f80_to_f64_convert, hm, hw, hexp, hsign, hnan, hpayload,
      -BitVec.getLsbD_eq_getElem]
    have hlt52 : m % 9223372036854775808 / 2048 < 2 ^ 52 := by omega
    rw [if_neg (show ¬ m = 9223372036854775808 from hinf), or_quiet,
      bfm_exponent (by decide) (Nat.or_lt_two_pow hlt52 (by decide)),
      quiet_eq]
    exact bfm_sign hs (quiet_lt hlt52)

/-- Rounding adds below the cut; where it carries out of the word, the
exponent is one more, and what then is too big is infinite. -/
theorem convert_rounded
    (h : [31, Xmant, Wexp, Xsign, Wd_aux, Wd_tmp].Nodup) {f r : Nat}
    (hm : c.reg Xmant = word m) (hlt : m < 2 ^ 64)
    (hw : c.reg Wexp = word (s * 2 ^ 15 + e)) (hs : s < 2)
    (hlo : 15361 ≤ e) (hhi : e < 2 ^ 15 - 1) (hge : 2 ^ 63 ≤ m)
    (hf : Arm.narrow false (Arm.narrow false (word e - 16384#64)
      + 1024#64) = word f) (hflt : f < 2 ^ 15)
    (hr : m + (m / 2048 % 2 + 1023) = r) :
    (run (emit_f80_to_f64_convert Xmant Wexp Xsign Wd_aux Wd_tmp) c).reg
      Xmant = word ((if 2 ^ 64 ≤ r then
          if 2047 ≤ f + 1 then binary64.inf else (f + 1) * 2 ^ 52
        else if 2047 ≤ f then binary64.inf
        else r / 2048 % 2 ^ 52 + f * 2 ^ 52) + s * 2 ^ 63) := by
  obtain ⟨⟨_, _, _, _, _⟩, ⟨_, _, _, _, _, _, _, _, _, _⟩, _, _, _, _,
    _, _, _, _, _, _⟩ := apart_five h
  have hexp : (s * 32768 + e) % 32768 = e := by omega
  have hsign : (s * 32768 + e) / 32768 % 2 = s := by omega
  have hle : ¬ (e < 15360 ∨ e = 15360) := by omega
  have hne : ¬ e = 32767 := by omega
  have hinf : bfmEval 64 12 10 (word 2047) 0#64 = word binary64.inf :=
    bfm_exponent (by decide) (by decide)
  by_cases hcarry : 18446744073709551616 ≤ r
  · obtain ⟨r', rfl⟩ := Nat.exists_eq_add_of_le hcarry
    have hwrap : word (18446744073709551616 + r') = word r' := by
      apply BitVec.eq_of_toNat_eq
      rw [BitVec.toNat_ofNat, BitVec.toNat_ofNat]
      exact Nat.add_mod_left _ _
    have hsmall : r' < 1024 := by omega
    have hr' : r' / 2048 % 4503599627370496 = 0 := by
      rw [Nat.div_eq_of_lt (by omega)]
    by_cases hover : 2047 ≤ f + 1
    · simp (disch := first | exact Apart.ne ‹_› | omega) [run, Forward.run,
        emit_f80_to_f64_convert, hm, hw, hexp, hsign, if_neg hle, hne, hf,
        hr, hwrap, hr', hover, -BitVec.getLsbD_eq_getElem]
      rw [hinf]
      exact bfm_sign hs (by decide)
    · simp (disch := first | exact Apart.ne ‹_› | omega) [run, Forward.run,
        emit_f80_to_f64_convert, hm, hw, hexp, hsign, if_neg hle, hne, hf,
        hr, hwrap, hr', hover, -BitVec.getLsbD_eq_getElem]
      rw [bfm_exponent (by omega) (by decide), Nat.zero_add]
      exact bfm_sign hs (by omega)
  · by_cases hover : 2047 ≤ f
    · simp (disch := first | exact Apart.ne ‹_› | omega) [run, Forward.run,
        emit_f80_to_f64_convert, hm, hw, hexp, hsign, if_neg hle, hne, hf,
        hr, hcarry, hover, -BitVec.getLsbD_eq_getElem]
      rw [hinf]
      exact bfm_sign hs (by decide)
    · simp (disch := first | exact Apart.ne ‹_› | omega) [run, Forward.run,
        emit_f80_to_f64_convert, hm, hw, hexp, hsign, if_neg hle, hne, hf,
        hr, hcarry, hover, -BitVec.getLsbD_eq_getElem]
      have hfrac : r / 2048 % 4503599627370496 < 2 ^ 52 := by omega
      rw [bfm_exponent (by omega) hfrac]
      exact bfm_sign hs (by omega)

/-- The carry of the rounding is the next exponent. -/
theorem convert_normal_path
    (h : [31, Xmant, Wexp, Xsign, Wd_aux, Wd_tmp].Nodup)
    (hm : c.reg Xmant = word m) (hlt : m < 2 ^ 64)
    (hw : c.reg Wexp = word (s * 2 ^ 15 + e)) (hs : s < 2)
    (hlo : 15361 ≤ e) (hhi : e < 2 ^ 15 - 1) (hge : 2 ^ 63 ≤ m) :
    (run (emit_f80_to_f64_convert Xmant Wexp Xsign Wd_aux Wd_tmp) c).reg
      Xmant = word ((if e < 17407 then (e - 15361) * 2 ^ 52 + cut false m 11
        else binary64.inf) + s * 2 ^ 63) := by
  have hf : Arm.narrow false (Arm.narrow false (word e - 16384#64)
      + 1024#64) = word (e - 15360) := by
    rcases Nat.lt_or_ge e 16384 with h1 | h1
    · rw [narrow_sub_neg h1 (by decide), narrow_add_wrap (by omega)
        (by omega)]
      apply word_congr
      omega
    · rw [narrow_sub h1 (by omega), narrow_add (by omega)]
      apply word_congr
      omega
  rw [convert_rounded h hm hlt hw hs hlo hhi hge hf (by omega) rfl]
  have hrne : cut false m 11 = (m + (m / 2048 % 2 + 1023)) / 2048 := by
    show Format.rne m 11 = _
    unfold Format.rne
    split <;> omega
  have hinf : binary64.inf = 2047 * 2 ^ 52 := by decide
  rw [hrne, hinf]
  apply word_congr
  apply congrArg (· + s * 2 ^ 63)
  by_cases hcarry : 2 ^ 64 ≤ m + (m / 2048 % 2 + 1023)
  · rw [if_pos hcarry]
    split <;> split <;> omega
  · rw [if_neg hcarry]
    split <;> split <;> omega

end

end X87Sidecar.F80
