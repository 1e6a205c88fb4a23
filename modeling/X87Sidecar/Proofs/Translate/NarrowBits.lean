/-
The blocks of `emit_f80_bits_to_f64` and the paths through them.

The registers hold numbers: the significand, sign and exponent, and the
scratch values of each block (`Lib.Word`). A block has a lemma for each
way out of it, and a path is its blocks one after the other (`bits_run`),
past the ones that are skipped on the way to a label.
-/
import X87Sidecar.Machine.Extended
import X87Sidecar.Proofs.Translate.Lines
import X87Sidecar.Translate.F80

namespace X87Sidecar.F80

open Lib Lib.Cpu Lib.Word Lines

-- ============================================================ rounding

/-- A significand cut at a bit: to nearest even, or with what is cut off
kept in the lowest bit. -/
def cut (odd : Bool) (m s : Nat) : Nat :=
  if odd then m / 2 ^ s ||| if m % 2 ^ s = 0 then 0 else 1
  else Format.rne m s

section
variable {m : Nat} {odd : Bool}

/-- Rounding by the bits shifted out. -/
theorem cut_eq {k t : Nat} (hk64 : k ≤ 64)
    (ht : t = m % 2 ^ k * 2 ^ (64 - k)) :
    (if odd then m / 2 ^ k ||| if t = 0 then 0 else 1
      else m / 2 ^ k
        + if 2 ^ 63 < t ∨ t = 2 ^ 63 ∧ m / 2 ^ k % 2 = 1 then 1 else 0)
      = cut odd m k := by
  have hpos : 0 < 2 ^ (64 - k) := Nat.two_pow_pos _
  have hhalf : 2 ^ 63 * 2 = 2 ^ k * 2 ^ (64 - k) := by
    rw [← Nat.pow_add, Nat.add_sub_cancel' hk64]
    rfl
  have hlt : 2 ^ 63 < t ↔ 2 ^ k < 2 * (m % 2 ^ k) := by
    rw [← Nat.mul_lt_mul_right hpos (b := 2 ^ k), ← hhalf, Nat.mul_assoc,
      ← ht]
    omega
  have heq : t = 2 ^ 63 ↔ 2 * (m % 2 ^ k) = 2 ^ k := by
    rw [← Nat.mul_left_inj hpos.ne' (b := 2 * (m % 2 ^ k)), ← hhalf,
      Nat.mul_assoc, ← ht]
    omega
  have hzero : t = 0 ↔ m % 2 ^ k = 0 := by
    rw [ht, Nat.mul_eq_zero]
    omega
  unfold cut Format.rne
  simp only [hlt, heq, hzero]

/-- Rounding where everything is shifted out. -/
theorem cut_far {k : Nat} (hlt : m < 2 ^ 64) (hk : 64 ≤ k) :
    (if odd then if m = 0 then 0 else 1
      else if k - 64 = 0 ∧ 2 ^ 63 < m then 1 else 0) = cut odd m k := by
  have hpow : 2 ^ 64 ≤ 2 ^ k := Nat.pow_le_pow_right (by decide) hk
  unfold cut Format.rne
  rw [Nat.div_eq_of_lt (by omega), Nat.mod_eq_of_lt (by omega),
    Nat.zero_or, Nat.zero_add]
  congr 1
  have hiff : (k - 64 = 0 ∧ 2 ^ 63 < m)
      ↔ (2 ^ k < 2 * m ∨ 2 * m = 2 ^ k ∧ 0 % 2 = 1) := by
    rcases Nat.eq_or_lt_of_le hk with rfl | hgt
    · omega
    · have : 2 ^ 65 ≤ 2 ^ k := Nat.pow_le_pow_right (by decide) hgt
      omega
  simp only [hiff]

/-- What is left has at most 53 bits, or is the first number with more. -/
theorem cut_le {k : Nat} (hlt : m < 2 ^ 64) (hk : 11 ≤ k) :
    cut odd m k ≤ 2 ^ 53 := by
  have hq : m / 2 ^ k < 2 ^ 53 := by
    have hle : m / 2 ^ k ≤ m / 2 ^ 11 :=
      Nat.div_le_div_left (Nat.pow_le_pow_right (by decide) hk) (by decide)
    omega
  unfold cut Format.rne
  split
  · apply Nat.le_of_lt
    apply Nat.or_lt_two_pow hq
    split <;> decide
  · split <;> omega

end

-- ============================================================== masks

/-- The exponent of a halfword. -/
theorem and_7fff (a : Nat) : word a &&& 32767#64 = word (a % 2 ^ 15) :=
  and_ones 15 (by decide)

/-- The bits that are cut off. -/
theorem and_7ff (a : Nat) : word a &&& 2047#64 = word (a % 2 ^ 11) :=
  and_ones 11 (by decide)

/-- The sign of a halfword set. -/
theorem or_sign {s e : Nat} (hs : s < 2) (he : e < 2 ^ 15) :
    word (s * 2 ^ 15 + e) ||| 32768#64 = word (e + 2 ^ 15) := by
  have hset : word e ||| 32768#64 = word (e + 2 ^ 15) := by
    have := @or_high e 1 15 he
    rwa [Nat.one_mul] at this
  rcases Nat.le_one_iff_eq_zero_or_eq_one.mp (Nat.le_of_lt_succ hs) with
    rfl | rfl
  · rw [Nat.zero_mul, Nat.zero_add, hset]
  · rw [Nat.one_mul, Nat.add_comm, ← hset, BitVec.or_assoc, BitVec.or_self]

/-- A NaN made quiet has no sign. -/
theorem quiet_lt {p : Nat} (hp : p < 2 ^ 52) : binary64.quiet p < 2 ^ 63 := by
  have hor : p ||| 2 ^ 51 < 2 ^ 52 := Nat.or_lt_two_pow hp (by decide)
  show 0x7FF0000000000000 + (p ||| 2 ^ 51) < 2 ^ 63
  omega

/-- The exponent and the quiet bit of a NaN set. -/
theorem word_quiet {p : Nat} (hp : p < 2 ^ 52) :
    word p ||| 2251799813685248#64 ||| 9218868437227405312#64
      = word (binary64.quiet p) := by
  have hor : p ||| 2 ^ 51 < 2 ^ 52 := Nat.or_lt_two_pow hp (by decide)
  have hquiet : word p ||| 2251799813685248#64 = word (p ||| 2 ^ 51) :=
    or_word
  rw [hquiet]
  refine (@or_high _ 2047 52 hor).trans (word_congr ?_)
  show _ = 0x7FF0000000000000 + (p ||| 2 ^ 51)
  omega

-- ============================================================= blocks

attribute [local simp] Arm.Logical.eval Shift.eval bit_of_lt bit_of_ge
  narrow_word narrow_word_wrap narrow_add narrow_add_wrap narrow_sub
  narrow_sub_neg add_word ubfm_down ubfm_up shl_word shr_word
  step_mask_7fff step_mask_7ff step_mask_one step_mask_quiet step_mask_inf
  step_mask_8000 and_7fff and_7ff word_eq_zero narrow_neg toNat_word
  bfm_bit

section
variable {c : Cpu} {Xm Wx Xt1 Xt2 m s e : Nat} {odd : Bool}

/-- A valid value goes on as it is. -/
theorem bits_invalid_pass (h : [31, Xm, Wx, Xt1, Xt2].Nodup)
    (hm : c.reg Xm = word m) (hlt : m < 2 ^ 64)
    (hw : c.reg Wx = word (s * 2 ^ 15 + e))
    (he : e < 2 ^ 15) (hok : 2 ^ 63 ≤ m ∨ e = 0) :
    ∃ c', Cpu.exec (bits_invalid Xm Wx Xt1) (.on, c) = (.on, c')
      ∧ c'.reg Xm = word m ∧ c'.reg Wx = word (s * 2 ^ 15 + e) := by
  obtain ⟨⟨_, _, _, _⟩, ⟨_, _, _, _, _, _⟩, _, _, _, _, _, _⟩ :=
    apart_four h
  have hexp : (s * 32768 + e) % 32768 = e := by omega
  rcases Nat.lt_or_ge m (2 ^ 63) with h63 | h63
  · have h0 : e = 0 := by omega
    simp (disch := first | exact Apart.ne ‹_› | omega) [Cpu.exec,
      bits_invalid, hm, hw, h0, -BitVec.getLsbD_eq_getElem]
  · simp (disch := first | exact Apart.ne ‹_› | omega) [Cpu.exec,
      bits_invalid, hm, hw, -BitVec.getLsbD_eq_getElem]

/-- The exponent of a normal result, rebased. -/
theorem bits_range_normal (h : [31, Xm, Wx, Xt1, Xt2].Nodup)
    (hm : c.reg Xm = word m)
    (hw : c.reg Wx = word (s * 2 ^ 15 + e))
    (he : e < 2 ^ 15) (hlo : 15361 ≤ e) (hhi : e < 17407) :
    ∃ c', Cpu.exec (bits_range Wx Xt1 Xt2) (.on, c) = (.on, c')
      ∧ c'.reg Xm = word m ∧ c'.reg Wx = word (s * 2 ^ 15 + e)
      ∧ c'.reg Xt1 = word (e - 15361) := by
  obtain ⟨⟨_, _, _, _⟩, ⟨_, _, _, _, _, _⟩, _, _, _, _, _, _⟩ :=
    apart_four h
  have hexp : (s * 32768 + e) % 32768 = e := by omega
  rcases Nat.lt_or_ge e 16384 with h1 | h1
  · simp (disch := first | exact Apart.ne ‹_› | omega) [Cpu.exec,
      bits_range, hm, hw, hexp, -BitVec.getLsbD_eq_getElem]
  · simp (disch := first | exact Apart.ne ‹_› | omega) [Cpu.exec,
      bits_range, hm, hw, hexp, -BitVec.getLsbD_eq_getElem]
    apply word_congr
    omega

/-- Below it the exponent is rebased too, and is negative. -/
theorem bits_range_small (h : [31, Xm, Wx, Xt1, Xt2].Nodup)
    (hm : c.reg Xm = word m)
    (hw : c.reg Wx = word (s * 2 ^ 15 + e))
    (hhi : e < 15361) :
    ∃ c', Cpu.exec (bits_range Wx Xt1 Xt2) (.on, c) = (.seek .small, c')
      ∧ c'.reg Xm = word m ∧ c'.reg Wx = word (s * 2 ^ 15 + e)
      ∧ c'.reg Xt1 = word (2 ^ 32 + e - 15361) := by
  obtain ⟨⟨_, _, _, _⟩, ⟨_, _, _, _, _, _⟩, _, _, _, _, _, _⟩ :=
    apart_four h
  have hexp : (s * 32768 + e) % 32768 = e := by omega
  simp (disch := first | exact Apart.ne ‹_› | omega) [Cpu.exec, bits_range,
      hm, hw, hexp, -BitVec.getLsbD_eq_getElem]
  apply word_congr
  omega

/-- Above it nothing is done. -/
theorem bits_range_big (h : [31, Xm, Wx, Xt1, Xt2].Nodup)
    (hm : c.reg Xm = word m)
    (hw : c.reg Wx = word (s * 2 ^ 15 + e))
    (he : e < 2 ^ 15) (hlo : 17407 ≤ e) :
    ∃ c', Cpu.exec (bits_range Wx Xt1 Xt2) (.on, c) = (.seek .big, c')
      ∧ c'.reg Xm = word m ∧ c'.reg Wx = word (s * 2 ^ 15 + e) := by
  obtain ⟨⟨_, _, _, _⟩, ⟨_, _, _, _, _, _⟩, _, _, _, _, _, _⟩ :=
    apart_four h
  have hexp : (s * 32768 + e) % 32768 = e := by omega
  simp (disch := first | exact Apart.ne ‹_› | omega) [Cpu.exec, bits_range,
      hm, hw, hexp, -BitVec.getLsbD_eq_getElem]

/-- Sign and exponent of the result, side by side. -/
theorem bits_sign_exponent_on (h : [31, Xm, Wx, Xt1, Xt2].Nodup)
    {k : Nat} (hm : c.reg Xm = word m)
    (hw : c.reg Wx = word (s * 2 ^ 15 + e)) (hs : s < 2)
    (he : e < 2 ^ 15) (ht : c.reg Xt1 = word k) (hk : k < 2 ^ 11) :
    ∃ c', Cpu.exec (bits_sign_exponent Wx Xt1 Xt2) (.on, c) = (.on, c')
      ∧ c'.reg Xm = word m ∧ c'.reg Xt1 = word (k + s * 2 ^ 11) := by
  obtain ⟨⟨_, _, _, _⟩, ⟨_, _, _, _, _, _⟩, _, _, _, _, _, _⟩ :=
    apart_four h
  have hsign : (s * 32768 + e) / 32768 % 2 = s := by omega
  simp (disch := first | exact Apart.ne ‹_› | omega) [Cpu.exec,
    bits_sign_exponent, hm, hw, ht, hsign, -BitVec.getLsbD_eq_getElem]

/-- The significand cut at 53 bits. -/
theorem bits_round_on (h : [31, Xm, Wx, Xt1, Xt2].Nodup)
    {k : Nat} (hm : c.reg Xm = word m) (hlt : m < 2 ^ 64)
    (ht : c.reg Xt1 = word k) :
    ∃ c', Cpu.exec (bits_round Xm Wx Xt2 odd) (.on, c) = (.on, c')
      ∧ c'.reg Xm = word (cut odd m 11) ∧ c'.reg Xt1 = word k := by
  obtain ⟨⟨_, _, _, _⟩, ⟨_, _, _, _, _, _⟩, _, _, _, _, _, _⟩ :=
    apart_four h
  have hq : m / 2048 % 9007199254740992 = m / 2048 := by omega
  cases odd
  · simp (disch := first | exact Apart.ne ‹_› | omega) [Cpu.exec,
      bits_round, cut, Format.rne, hm, ht, hq, -BitVec.getLsbD_eq_getElem]
    apply word_congr
    split <;> omega
  · simp (disch := first | exact Apart.ne ‹_› | omega) [Cpu.exec,
      bits_round, cut, hm, ht, hq, -BitVec.getLsbD_eq_getElem]
    rw [show (m % 2048 + 2047) / 2048 = if m % 2048 = 0 then 0 else 1 by
      split <;> omega]

/-- Added to them, its carry goes into the exponent. -/
theorem bits_assemble_on (h : [31, Xm, Wx, Xt1, Xt2].Nodup)
    {k : Nat} (hm : c.reg Xm = word m) (ht : c.reg Xt1 = word k) :
    ∃ c', Cpu.exec (bits_assemble Xm Xt1) (.on, c)
        = (.seek .done_normal, c')
      ∧ c'.reg Xm = word (m + k * 2 ^ 52) := by
  obtain ⟨⟨_, _, _, _⟩, ⟨_, _, _, _, _, _⟩, _, _, _, _, _, _⟩ :=
    apart_four h
  simp (disch := first | exact Apart.ne ‹_› | omega) [Cpu.exec,
    bits_assemble, hm, ht, -BitVec.getLsbD_eq_getElem]

/-- The significand shifted into place, with what leaves it at the top of
the scratch word. -/
theorem bits_shift_on (h : [31, Xm, Wx, Xt1, Xt2].Nodup)
    {k : Nat} (hm : c.reg Xm = word m) (hlt : m < 2 ^ 64)
    (hw : c.reg Wx = word (s * 2 ^ 15 + e)) (hs : s < 2)
    (he : e < 2 ^ 15) (ht : c.reg Xt1 = word (2 ^ 32 - k)) (hpos : 0 < k)
    (hk : k < 53) :
    ∃ c', Cpu.exec (bits_shift Xm Wx Xt1 Xt2) (.seek .small, c) = (.on, c')
      ∧ c'.reg Xm = word (m / 2 ^ (k + 11))
      ∧ c'.reg Wx = word (m * 2 ^ (53 - k))
      ∧ c'.reg Xt1 = word s := by
  obtain ⟨⟨_, _, _, _⟩, ⟨_, _, _, _, _, _⟩, _, _, _, _, _, _⟩ :=
    apart_four h
  have hsign : (s * 32768 + e) / 32768 % 2 = s := by omega
  have hk32 : 4294967296 - (4294967296 - k) = k := by omega
  have hleft : (4294967285 - k) % 64 = 53 - k := by omega
  have hright : (k + 11) % 64 = k + 11 := by omega
  simp (disch := first | exact Apart.ne ‹_› | omega) [Cpu.exec, bits_shift,
    hm, hw, ht, hsign, hk32, hleft, hright, -BitVec.getLsbD_eq_getElem]

/-- Too far for a shift: the distance is left. -/
theorem bits_shift_tiny (h : [31, Xm, Wx, Xt1, Xt2].Nodup)
    {k : Nat} (hm : c.reg Xm = word m)
    (hw : c.reg Wx = word (s * 2 ^ 15 + e)) (hs : s < 2)
    (he : e < 2 ^ 15) (ht : c.reg Xt1 = word (2 ^ 32 - k)) (hlo : 53 ≤ k)
    (hk : k < 2 ^ 15) :
    ∃ c', Cpu.exec (bits_shift Xm Wx Xt1 Xt2) (.seek .small, c)
        = (.seek .tiny, c')
      ∧ c'.reg Xm = word m ∧ c'.reg Wx = word (k - 53)
      ∧ c'.reg Xt1 = word s := by
  obtain ⟨⟨_, _, _, _⟩, ⟨_, _, _, _, _, _⟩, _, _, _, _, _, _⟩ :=
    apart_four h
  have hsign : (s * 32768 + e) / 32768 % 2 = s := by omega
  have hk32 : 4294967296 - (4294967296 - k) = k := by omega
  have hk53 : k + 11 - 64 = k - 53 := by omega
  simp (disch := first | exact Apart.ne ‹_› | omega) [Cpu.exec, bits_shift,
    hm, hw, ht, hsign, hk32, hk53, -BitVec.getLsbD_eq_getElem]

/-- What was shifted out rounds the significand. -/
theorem bits_small_on (h : [31, Xm, Wx, Xt1, Xt2].Nodup)
    {k q t : Nat} (hm : c.reg Xm = word q)
    (hw : c.reg Wx = word t) (htlt : t < 2 ^ 64)
    (ht : c.reg Xt1 = word k) :
    ∃ c', Cpu.exec (bits_small Xm Wx odd) (.on, c) = (.on, c')
      ∧ c'.reg Xm = word (if odd then q ||| if t = 0 then 0 else 1
        else q + if 2 ^ 63 < t ∨ t = 2 ^ 63 ∧ q % 2 = 1 then 1 else 0)
      ∧ c'.reg Xt1 = word k := by
  obtain ⟨⟨_, _, _, _⟩, ⟨_, _, _, _, _, _⟩, _, _, _, _, _, _⟩ :=
    apart_four h
  cases odd
  · rcases Nat.lt_or_ge t (2 ^ 63) with h63 | h63
    · have hc : ¬ (9223372036854775808 < t
          ∨ t = 9223372036854775808 ∧ q % 2 = 1) := by omega
      simp (disch := first | exact Apart.ne ‹_› | omega) [Cpu.exec,
        bits_small, hm, hw, ht, hc, -BitVec.getLsbD_eq_getElem]
    · by_cases hup : t % 9223372036854775808 = 0 ∧ q % 2 = 0
      · have hc : ¬ (9223372036854775808 < t
            ∨ t = 9223372036854775808 ∧ q % 2 = 1) := by omega
        simp (disch := first | exact Apart.ne ‹_› | omega) [Cpu.exec,
          bits_small, hm, hw, ht, if_pos hup, hc,
          -BitVec.getLsbD_eq_getElem]
      · have hc : 9223372036854775808 < t
            ∨ t = 9223372036854775808 ∧ q % 2 = 1 := by omega
        simp (disch := first | exact Apart.ne ‹_› | omega) [Cpu.exec,
          bits_small, hm, hw, ht, if_neg hup, if_pos hc,
          -BitVec.getLsbD_eq_getElem]
  · by_cases h0 : t = 0
    · simp (disch := first | exact Apart.ne ‹_› | omega) [Cpu.exec,
        bits_small, hm, hw, ht, h0, -BitVec.getLsbD_eq_getElem]
    · simp (disch := first | exact Apart.ne ‹_› | omega) [Cpu.exec,
        bits_small, hm, hw, ht, h0, -BitVec.getLsbD_eq_getElem]

/-- The sign of a small result. -/
theorem bits_small_sign_on (h : [31, Xm, Wx, Xt1, Xt2].Nodup)
    {p : Nat} (hm : c.reg Xm = word p) (hp : p < 2 ^ 63)
    (ht : c.reg Xt1 = word s) :
    ∃ c', Cpu.exec (bits_small_sign Xm Xt1) (.on, c)
        = (.seek .done_small, c')
      ∧ c'.reg Xm = word (p + s * 2 ^ 63) := by
  obtain ⟨⟨_, _, _, _⟩, ⟨_, _, _, _, _, _⟩, _, _, _, _, _, _⟩ :=
    apart_four h
  simp (disch := first | exact Apart.ne ‹_› | omega) [Cpu.exec,
    bits_small_sign, hm, ht, -BitVec.getLsbD_eq_getElem]
  exact or_high 63 hp

/-- The sign of a tiny one. -/
theorem bits_tiny_sign_on (h : [31, Xm, Wx, Xt1, Xt2].Nodup)
    {p : Nat} (hm : c.reg Xm = word p) (hp : p < 2 ^ 63)
    (ht : c.reg Xt1 = word s) :
    ∃ c', Cpu.exec (bits_tiny_sign Xm Xt1) (.on, c)
        = (.seek .done_tiny, c')
      ∧ c'.reg Xm = word (p + s * 2 ^ 63) := by
  obtain ⟨⟨_, _, _, _⟩, ⟨_, _, _, _, _, _⟩, _, _, _, _, _, _⟩ :=
    apart_four h
  simp (disch := first | exact Apart.ne ‹_› | omega) [Cpu.exec,
    bits_tiny_sign, hm, ht, -BitVec.getLsbD_eq_getElem]
  exact or_high 63 hp

/-- Nothing of a tiny value is left but its rounding. -/
theorem bits_tiny_on (h : [31, Xm, Wx, Xt1, Xt2].Nodup)
    {k : Nat} (hm : c.reg Xm = word m) (hlt : m < 2 ^ 64)
    (hw : c.reg Wx = word k) (hk : k < 2 ^ 32)
    (ht : c.reg Xt1 = word s) :
    ∃ c', Cpu.exec (bits_tiny Xm Wx odd) (.on, c) = (.on, c')
      ∧ c'.reg Xm = word (if odd then if m = 0 then 0 else 1
        else if k = 0 ∧ 2 ^ 63 < m then 1 else 0)
      ∧ c'.reg Xt1 = word s := by
  obtain ⟨⟨_, _, _, _⟩, ⟨_, _, _, _, _, _⟩, _, _, _, _, _, _⟩ :=
    apart_four h
  cases odd
  · by_cases h0 : k = 0
    · rcases Nat.lt_or_ge m (2 ^ 63) with h63 | h63
      · have hc : ¬ 9223372036854775808 < m := by omega
        simp (disch := first | exact Apart.ne ‹_› | omega) [Cpu.exec,
          bits_tiny, hm, hw, ht, h0, hc, -BitVec.getLsbD_eq_getElem]
      · by_cases hup : m % 9223372036854775808 = 0
        · have hc : ¬ 9223372036854775808 < m := by omega
          simp (disch := first | exact Apart.ne ‹_› | omega) [Cpu.exec,
            bits_tiny, hm, hw, ht, h0, hc, hup, -BitVec.getLsbD_eq_getElem]
        · have hc : 9223372036854775808 < m := by omega
          simp (disch := first | exact Apart.ne ‹_› | omega) [Cpu.exec,
            bits_tiny, hm, hw, ht, h0, hc, hup, -BitVec.getLsbD_eq_getElem]
    · simp (disch := first | exact Apart.ne ‹_› | omega) [Cpu.exec,
        bits_tiny, hm, hw, ht, h0, -BitVec.getLsbD_eq_getElem]
  · by_cases h0 : m = 0
    · simp (disch := first | exact Apart.ne ‹_› | omega) [Cpu.exec,
        bits_tiny, hm, ht, h0, -BitVec.getLsbD_eq_getElem]
    · simp (disch := first | exact Apart.ne ‹_› | omega) [Cpu.exec,
        bits_tiny, hm, ht, h0, -BitVec.getLsbD_eq_getElem]

/-- Too big, or infinite. -/
theorem bits_big_inf (h : [31, Xm, Wx, Xt1, Xt2].Nodup)
    (hm : c.reg Xm = word m)
    (hw : c.reg Wx = word (s * 2 ^ 15 + e)) (hs : s < 2)
    (he : e < 2 ^ 15 - 1 ∨ e = 2 ^ 15 - 1 ∧ m = 2 ^ 63) :
    ∃ c', Cpu.exec (bits_big Xm Wx Xt2) (.seek .big, c) = (.on, c')
      ∧ c'.reg Xm = word (binary64.inf + s * 2 ^ 63) := by
  obtain ⟨⟨_, _, _, _⟩, ⟨_, _, _, _, _, _⟩, _, _, _, _, _, _⟩ :=
    apart_four h
  have hor : word (s * 32768 + e) ||| 32768#64 = word (e + 32768) :=
    or_sign hs (by omega)
  have hsign : (s * 32768 + e) / 32768 % 2 = s := by omega
  rcases he with he | ⟨he, rfl⟩
  · simp (disch := first | exact Apart.ne ‹_› | omega) [Cpu.exec, bits_big,
      hm, hw, hor, hsign, -BitVec.getLsbD_eq_getElem]
    exact @or_high binary64.inf s 63 (by decide)
  · obtain rfl : e = 32767 := he
    simp (disch := first | exact Apart.ne ‹_› | omega) [Cpu.exec, bits_big,
      hm, hw, hor, hsign, -BitVec.getLsbD_eq_getElem]
    exact @or_high binary64.inf s 63 (by decide)

/-- A NaN keeps the top of its payload and is made quiet. -/
theorem bits_big_nan (h : [31, Xm, Wx, Xt1, Xt2].Nodup)
    (hm : c.reg Xm = word m) (hlt : m < 2 ^ 64) (hnan : m % 2 ^ 63 ≠ 0)
    (hw : c.reg Wx = word (s * 2 ^ 15 + (2 ^ 15 - 1))) (hs : s < 2) :
    ∃ c', Cpu.exec (bits_big Xm Wx Xt2) (.seek .big, c) = (.on, c')
      ∧ c'.reg Xm
        = word (binary64.quiet (m % 2 ^ 63 / 2 ^ 11) + s * 2 ^ 63) := by
  obtain ⟨⟨_, _, _, _⟩, ⟨_, _, _, _, _, _⟩, _, _, _, _, _, _⟩ :=
    apart_four h
  have hor : word (s * 32768 + 32767) ||| 32768#64 = word 65535 :=
    or_sign hs (by omega)
  have hsign : (s * 32768 + 32767) / 32768 % 2 = s := by omega
  have hnan' : m % 9223372036854775808 ≠ 0 := hnan
  have hpayload : m / 2048 % 4503599627370496
      = m % 9223372036854775808 / 2048 := by omega
  simp (disch := first | exact Apart.ne ‹_› | omega) [Cpu.exec, bits_big,
      hm, hw, hor, hsign, hnan', hpayload, -BitVec.getLsbD_eq_getElem]
  rw [word_quiet (by omega)]
  exact or_high 63 (quiet_lt (by omega))

-- ============================================================== paths

/-- The blocks one after the other. -/
theorem bits_run : run (emit_f80_bits_to_f64 Xm Wx Xt1 Xt2 odd) c
    = (Cpu.exec bits_done <| Cpu.exec (bits_big Xm Wx Xt2)
        <| Cpu.exec (bits_tiny_sign Xm Xt1) <| Cpu.exec (bits_tiny Xm Wx odd)
        <| Cpu.exec (bits_small_sign Xm Xt1)
        <| Cpu.exec (bits_small Xm Wx odd)
        <| Cpu.exec (bits_shift Xm Wx Xt1 Xt2)
        <| Cpu.exec (bits_assemble Xm Xt1)
        <| Cpu.exec (bits_round Xm Wx Xt2 odd)
        <| Cpu.exec (bits_sign_exponent Wx Xt1 Xt2)
        <| Cpu.exec (bits_range Wx Xt1 Xt2)
        <| Cpu.exec (bits_invalid Xm Wx Xt1) (.on, c)).2 := by
  unfold emit_f80_bits_to_f64 run Forward.run
  simp only [Forward.exec_append]

/-- A block that does not bind a label is passed over on the way to it. -/
theorem exec_past {code : Code} {l : Label}
    (h : code.any (Forward.Item.binds l) = false) (c : Cpu) :
    Cpu.exec code (.seek l, c) = (.seek l, c) :=
  Forward.exec_seek h c

/-- No label is bound in the block that rounds. -/
theorem round_past (l : Label) (c : Cpu) :
    Cpu.exec (bits_round Xm Wx Xt2 odd) (.seek l, c) = (.seek l, c) :=
  exec_past (by cases odd <;> rfl) c

/-- The block of small results has two labels only. -/
theorem small_past {l : Label}
    (hl : l = .tiny ∨ l = .big ∨ l = .done_normal ∨ l = .done_invalid)
    (c : Cpu) :
    Cpu.exec (bits_small Xm Wx odd) (.seek l, c) = (.seek l, c) := by
  apply exec_past
  rcases hl with rfl | rfl | rfl | rfl <;> cases odd <;> rfl

/-- So has the block of tiny ones. -/
theorem tiny_past {l : Label}
    (hl : l = .big ∨ l = .done_normal ∨ l = .done_small ∨ l = .done_invalid)
    (c : Cpu) :
    Cpu.exec (bits_tiny Xm Wx odd) (.seek l, c) = (.seek l, c) := by
  apply exec_past
  rcases hl with rfl | rfl | rfl | rfl <;> cases odd <;> rfl

/-- The integer bit clear under a nonzero exponent: the default NaN. -/
theorem bits_default_path (h : [31, Xm, Wx, Xt1, Xt2].Nodup)
    (hm : c.reg Xm = word m) (hlt : m < 2 ^ 63)
    (hw : c.reg Wx = word (s * 2 ^ 15 + e)) (he : e < 2 ^ 15)
    (h0 : 0 < e) :
    (run (emit_f80_bits_to_f64 Xm Wx Xt1 Xt2 odd) c).reg Xm
      = word 0xFFF8000000000000 := by
  obtain ⟨⟨_, _, _, _⟩, ⟨_, _, _, _, _, _⟩, _, _, _, _, _, _⟩ :=
    apart_four h
  have hexp : (s * 32768 + e) % 32768 = e := by omega
  have hne : e ≠ 0 := by omega
  obtain ⟨c1, h1, hm1⟩ : ∃ c', Cpu.exec (bits_invalid Xm Wx Xt1) (.on, c)
      = (.seek .done_invalid, c')
        ∧ c'.reg Xm = word 0xFFF8000000000000 := by
    simp (disch := first | exact Apart.ne ‹_› | omega) [Cpu.exec,
      bits_invalid, hm, hw, hexp, hne, -BitVec.getLsbD_eq_getElem]
  rw [bits_run, h1, exec_past rfl, exec_past rfl, round_past,
    exec_past rfl, exec_past rfl, small_past (.inr (.inr (.inr rfl))),
    exec_past rfl, tiny_past (.inr (.inr (.inr rfl))), exec_past rfl,
    exec_past rfl]
  exact hm1

/-- The result of `emit_f80_bits_to_f64` for small exponents. -/
theorem bits_small_path (h : [31, Xm, Wx, Xt1, Xt2].Nodup)
    (hm : c.reg Xm = word m) (hlt : m < 2 ^ 64)
    (hw : c.reg Wx = word (s * 2 ^ 15 + e)) (hs : s < 2)
    (he : e < 15361) (hok : 2 ^ 63 ≤ m ∨ e = 0) :
    (run (emit_f80_bits_to_f64 Xm Wx Xt1 Xt2 odd) c).reg Xm
      = word (cut odd m (15372 - e) + s * 2 ^ 63) := by
  have hcut := @cut_le m odd (15372 - e) hlt (by omega)
  obtain ⟨c1, h1, hm1, hw1⟩ :=
    bits_invalid_pass h hm hlt hw (by omega) hok
  obtain ⟨c2, h2, hm2, hw2, ht2⟩ := bits_range_small h hm1 hw1 he
  rw [bits_run, h1, h2, exec_past rfl, round_past, exec_past rfl]
  rw [show 2 ^ 32 + e - 15361 = 2 ^ 32 - (15361 - e) by omega] at ht2
  rcases Nat.lt_or_ge (15361 - e) 53 with hk | hk
  · obtain ⟨c3, h3, hm3, hw3, ht3⟩ := bits_shift_on h hm2 hlt hw2 hs
      (by omega) ht2 (by omega) hk
    rw [show 53 - (15361 - e) = 64 - (15372 - e) by omega,
      word_shifted (by omega)] at hw3
    rw [show 15361 - e + 11 = 15372 - e by omega] at hm3
    have htlt : m % 2 ^ (15372 - e) * 2 ^ (64 - (15372 - e)) < 2 ^ 64 := by
      calc m % 2 ^ (15372 - e) * 2 ^ (64 - (15372 - e))
          < 2 ^ (15372 - e) * 2 ^ (64 - (15372 - e)) :=
            Nat.mul_lt_mul_of_pos_right
              (Nat.mod_lt _ (Nat.two_pow_pos _)) (Nat.two_pow_pos _)
        _ = 2 ^ 64 := by
            rw [← Nat.pow_add, Nat.add_sub_cancel' (by omega)]
    obtain ⟨c4, h4, hm4, ht4⟩ :=
      @bits_small_on _ _ _ _ _ odd h _ _ _ hm3 hw3 htlt ht3
    rw [cut_eq (by omega) rfl] at hm4
    obtain ⟨c5, h5, hm5⟩ := bits_small_sign_on h hm4 (by omega) ht4
    rw [h3, h4, h5, tiny_past (.inr (.inr (.inl rfl))), exec_past rfl,
      exec_past rfl]
    exact hm5
  · obtain ⟨c3, h3, hm3, hw3, ht3⟩ := bits_shift_tiny h hm2 hw2 hs
      (by omega) ht2 hk (by omega)
    obtain ⟨c4, h4, hm4, ht4⟩ :=
      @bits_tiny_on _ _ _ _ _ _ _ odd h _ hm3 hlt hw3 (by omega) ht3
    rw [show 15361 - e - 53 = 15372 - e - 64 by omega,
      cut_far hlt (by omega)] at hm4
    obtain ⟨c5, h5, hm5⟩ := bits_tiny_sign_on h hm4 (by omega) ht4
    have hbind : Cpu.exec (bits_small_sign Xm Xt1) (.seek .tiny, c3)
        = (.on, c3) := rfl
    rw [h3, small_past (.inl rfl), hbind, h4, h5, exec_past rfl]
    exact hm5

/-- In the middle range. -/
theorem bits_normal_path (h : [31, Xm, Wx, Xt1, Xt2].Nodup)
    (hm : c.reg Xm = word m) (hlt : m < 2 ^ 64)
    (hw : c.reg Wx = word (s * 2 ^ 15 + e)) (hs : s < 2)
    (hlo : 15361 ≤ e) (hhi : e < 17407) (hge : 2 ^ 63 ≤ m) :
    (run (emit_f80_bits_to_f64 Xm Wx Xt1 Xt2 odd) c).reg Xm
      = word ((e - 15361) * 2 ^ 52 + cut odd m 11 + s * 2 ^ 63) := by
  obtain ⟨c1, h1, hm1, hw1⟩ :=
    bits_invalid_pass h hm hlt hw (by omega) (.inl hge)
  obtain ⟨c2, h2, hm2, hw2, ht2⟩ :=
    bits_range_normal h hm1 hw1 (by omega) hlo hhi
  obtain ⟨c3, h3, hm3, ht3⟩ :=
    bits_sign_exponent_on h hm2 hw2 hs (by omega) ht2 (by omega)
  obtain ⟨c4, h4, hm4, ht4⟩ := @bits_round_on _ _ _ _ _ _ odd h _ hm3 hlt ht3
  obtain ⟨c5, h5, hm5⟩ := bits_assemble_on h hm4 ht4
  rw [bits_run, h1, h2, h3, h4, h5, exec_past rfl,
    small_past (.inr (.inr (.inl rfl))), exec_past rfl,
    tiny_past (.inr (.inl rfl)), exec_past rfl, exec_past rfl]
  refine hm5.trans (word_congr ?_)
  omega

/-- Above it: overflow and infinities. -/
theorem bits_inf_path (h : [31, Xm, Wx, Xt1, Xt2].Nodup)
    (hm : c.reg Xm = word m) (hlt : m < 2 ^ 64)
    (hw : c.reg Wx = word (s * 2 ^ 15 + e)) (hs : s < 2)
    (hlo : 17407 ≤ e) (hge : 2 ^ 63 ≤ m)
    (he : e < 2 ^ 15 - 1 ∨ e = 2 ^ 15 - 1 ∧ m = 2 ^ 63) :
    (run (emit_f80_bits_to_f64 Xm Wx Xt1 Xt2 odd) c).reg Xm
      = word (binary64.inf + s * 2 ^ 63) := by
  obtain ⟨c1, h1, hm1, hw1⟩ :=
    bits_invalid_pass h hm hlt hw (by omega) (.inl hge)
  obtain ⟨c2, h2, hm2, hw2⟩ :=
    bits_range_big h hm1 hw1 (by omega) hlo
  obtain ⟨c3, h3, hm3⟩ := bits_big_inf h hm2 hw2 hs he
  rw [bits_run, h1, h2, exec_past rfl, round_past, exec_past rfl,
    exec_past rfl, small_past (.inr (.inl rfl)), exec_past rfl,
    tiny_past (.inl rfl), exec_past rfl, h3]
  exact hm3

/-- NaNs. -/
theorem bits_nan_path (h : [31, Xm, Wx, Xt1, Xt2].Nodup)
    (hm : c.reg Xm = word m) (hlt : m < 2 ^ 64)
    (hw : c.reg Wx = word (s * 2 ^ 15 + (2 ^ 15 - 1))) (hs : s < 2)
    (hge : 2 ^ 63 ≤ m) (hnan : m % 2 ^ 63 ≠ 0) :
    (run (emit_f80_bits_to_f64 Xm Wx Xt1 Xt2 odd) c).reg Xm
      = word (binary64.quiet (m % 2 ^ 63 / 2 ^ 11) + s * 2 ^ 63) := by
  obtain ⟨c1, h1, hm1, hw1⟩ :=
    bits_invalid_pass h hm hlt hw (by decide) (.inl hge)
  obtain ⟨c2, h2, hm2, hw2⟩ :=
    bits_range_big h hm1 hw1 (by decide) (by decide)
  obtain ⟨c3, h3, hm3⟩ := bits_big_nan h hm2 hlt hnan hw2 hs
  rw [bits_run, h1, h2, exec_past rfl, round_past, exec_past rfl,
    exec_past rfl, small_past (.inr (.inl rfl)), exec_past rfl,
    tiny_past (.inl rfl), exec_past rfl, h3]
  exact hm3

end

end X87Sidecar.F80
