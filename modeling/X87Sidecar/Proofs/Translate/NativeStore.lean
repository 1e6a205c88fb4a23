/-
Native integer stores are exact.

A slot's significand, shifted by its exponent, is an integer and a
fraction (`Fraction`), or the number is below one half (`rest_number`);
the rounding block adds one where the direction asks for it, which is
`roundNat` of the significand (`run_round`). Sign and range then leave the
reference integer (`slot_to_int_exact`). What is no number, or too large,
goes to the indefinite without meeting a label (`rest_indef`).
-/
import X87Sidecar.Proofs.Translate.Fist
import X87Sidecar.Proofs.Translate.Widen

namespace X87Sidecar

open Lib Lib.Cpu Lib.Word Lines F80

-- ====================================================== the reference

/-- What an x87 integer store of `w` bits stores of an 80-bit number: its
value rounded, when that is a signed integer of the width, and the integer
indefinite otherwise. -/
def Extended.storedInt (w : Nat) (mode : Rounding) (x : Extended) :
    BitVec w :=
  if x.unsupported ∨ x.isNaN ∨ x.isInf
      ∨ ¬Double.Fits w (roundInt mode x.value) then Fist.indefinite w
  else BitVec.ofInt w (roundInt mode x.value)

namespace F80

/-- The direction in which a store rounds. -/
def NativeIntRound.mode (cw : BitVec 16) : NativeIntRound → Rounding
  | .kChop => .chop
  | .kNearest => .nearest
  | .kControlWord => Fist.rcMode (Fist.roundingControl cw)

-- =================================================== the shifted number

/-- `f` is the fraction below the integer `m / 2 ^ s`, its binary point
above bit 63, as far as rounding asks: against one half, and against
nothing. -/
structure Fraction (m s f : Nat) : Prop where
  lt : f < 2 ^ 64
  half : 2 ^ 63 ≤ f ↔ 2 ^ s ≤ 2 * (m % 2 ^ s)
  exact : f = 2 ^ 63 ↔ 2 * (m % 2 ^ s) = 2 ^ s
  zero : f = 0 ↔ m % 2 ^ s = 0

/-- The bits shifted out, moved to the top. -/
theorem fraction_shifted {m s : Nat} (h' : s ≤ 64) :
    Fraction m s (m % 2 ^ s * 2 ^ (64 - s)) := by
  have hpow : 2 ^ 64 = 2 ^ s * 2 ^ (64 - s) := by
    rw [← Nat.pow_add, Nat.add_sub_cancel' h']
  have hhalf : 2 * 2 ^ 63 = 2 ^ s * 2 ^ (64 - s) := hpow
  have hpos : 0 < 2 ^ (64 - s) := Nat.two_pow_pos _
  have hmod := Nat.mod_lt m (Nat.two_pow_pos s)
  obtain ⟨r, hr⟩ : ∃ r, m % 2 ^ s = r := ⟨_, rfl⟩
  rw [hr] at hmod ⊢
  generalize 2 ^ (64 - s) = u at *
  refine ⟨?_, ?_, ?_, ?_⟩
  · rw [hpow]
    exact Nat.mul_lt_mul_of_pos_right hmod hpos
  · rw [hr, ← Nat.mul_le_mul_left_iff (show 0 < 2 by decide), hhalf,
      ← Nat.mul_assoc]
    exact Nat.mul_le_mul_right_iff hpos
  · rw [hr, ← Nat.mul_right_inj (show 2 ≠ 0 by decide), hhalf,
      ← Nat.mul_assoc]
    exact Nat.mul_left_inj hpos.ne'
  · rw [hr, Nat.mul_eq_zero]
    omega

/-- A number below one half: all that counts is whether it is zero. -/
theorem fraction_tiny {m s : Nat} (hm : m < 2 ^ 64) (h : 65 ≤ s) :
    Fraction m s (m / 2 ||| m % 2) := by
  have hpow : 2 ^ 65 ≤ 2 ^ s := Nat.pow_le_pow_right (by decide) h
  have hmod : m % 2 ^ s = m := Nat.mod_eq_of_lt (by omega)
  have hlt : m / 2 ||| m % 2 < 2 ^ 63 :=
    Nat.or_lt_two_pow (by omega) (by omega)
  refine ⟨by omega, by omega, by omega, ?_⟩
  rw [Nat.or_eq_zero_iff, hmod]
  omega

/-- Whether the magnitude goes up by one. -/
theorem roundsUp_fraction {m s f : Nat} (h : Fraction m s f)
    (mode : Rounding) :
    roundsUp mode m s = match mode with
      | .nearest => decide (2 ^ 63 ≤ f
          ∧ (f % 2 ^ 63 ≠ 0 ∨ m / 2 ^ s % 2 = 1))
      | .up => decide (f ≠ 0)
      | .down | .chop => false := by
  obtain ⟨hlt, hhalf, hexact, hzero⟩ := h
  unfold roundsUp
  cases mode with
  | nearest =>
      rw [Bool.eq_iff_iff]
      simp only [Bool.or_eq_true, Bool.and_eq_true, decide_eq_true_eq,
        beq_iff_eq]
      omega
  | up =>
      rw [Bool.eq_iff_iff]
      simp only [bne_iff_ne, decide_eq_true_eq, ne_eq, hzero]
  | down => rfl
  | chop => rfl

attribute [local simp] Arm.Logical.eval Shift.eval bit_of_lt bit_of_ge
  narrow_word narrow_word_wrap narrow_add narrow_add_wrap narrow_sub
  narrow_sub_neg add_word ubfm_down ubfm_up shl_word shr_word
  step_mask_7fff step_mask_8000 step_mask_top step_mask_one
  word_eq_zero narrow_neg toNat_word zero_cmpW carry_cmpW Cond.eval

@[simp] theorem load_set {c : Cpu} {r size : Nat} {v a : BitVec 64} :
    (c.set r v).load size a = c.load size a := by
  unfold Cpu.load
  rw [mem_set]

section
variable {c : Cpu} {Xbase Xslot Xint Xm Wx We m s e : Nat}

/-- The exponent, less 16446. -/
theorem exponent_less (h : e < 16446) : ∃ k, k + (16446 - e) = 2 ^ 32 ∧
    Arm.narrow false (Arm.narrow false (word e - word 16384) - word 62)
      = word k := by
  refine ⟨2 ^ 32 - (16446 - e), by omega, ?_⟩
  rcases Nat.lt_or_ge e 16384 with hlt | hge
  · rw [narrow_sub_neg hlt (by decide),
      narrow_sub (by omega) (by omega)]
    apply word_congr
    omega
  · rw [narrow_sub hge (by omega), narrow_sub_neg (by omega) (by decide)]
    apply word_congr
    omega

/-- The slot holds a significand, a sign and an exponent. -/
structure SlotAt (c : Cpu) (Xslot m s e : Nat) : Prop where
  mant : c.load 3 (c.reg Xslot) = word m
  se : c.load 1 (c.reg Xslot + 8#64) = word (s * 2 ^ 15 + e)
  m_lt : m < 2 ^ 64
  s_lt : s < 2
  e_lt : e < 2 ^ 15

/-- An unnormal. -/
theorem unpack_unsupported (h : [31, Xslot, Xint, Xm, Wx, We].Nodup)
    (hc : SlotAt c Xslot m s e) (hm : m < 2 ^ 63) (he : e ≠ 0) :
    ∃ c', Cpu.exec (slot_unpack Xslot Xint Xm Wx We) (.on, c)
      = (.seek .to_indef, c') := by
  obtain ⟨⟨_, _, _, _, _⟩, ⟨_, _, _, _, _, _, _, _, _, _⟩, _, _, _, _,
    _, _, _, _, _, _⟩ := apart_five h
  obtain ⟨h1, h2, h3, h4, h5⟩ := hc
  have hmod : (s * 32768 + e) % 32768 = e := by omega
  simp (disch := first | exact Apart.ne ‹_› | omega) [Cpu.exec,
    slot_unpack, h1, h2, and_7fff, hmod, he, -BitVec.getLsbD_eq_getElem]

/-- Too large, an infinity or not a number. -/
theorem unpack_large (h : [31, Xslot, Xint, Xm, Wx, We].Nodup)
    (hc : SlotAt c Xslot m s e) (hm : 2 ^ 63 ≤ m) (he : 16446 ≤ e) :
    ∃ c', Cpu.exec (slot_unpack Xslot Xint Xm Wx We) (.on, c)
      = (.seek .to_indef, c') := by
  obtain ⟨⟨_, _, _, _, _⟩, ⟨_, _, _, _, _, _, _, _, _, _⟩, _, _, _, _,
    _, _, _, _, _, _⟩ := apart_five h
  obtain ⟨h1, h2, h3, h4, h5⟩ := hc
  have hmod : (s * 32768 + e) % 32768 = e := by omega
  simp (disch := first | exact Apart.ne ‹_› | omega) [Cpu.exec,
    slot_unpack, h1, h2, and_7fff, hmod, -BitVec.getLsbD_eq_getElem]

/-- A number taken apart: the significand and the halfword. -/
structure Unpacked (c : Cpu) (Xm Wx m s e : Nat) : Prop where
  mant : c.reg Xm = word m
  sign : c.reg Wx = word (s * 2 ^ 15 + e)

/-- A number of at least one half. -/
theorem unpack_number (h : [31, Xslot, Xint, Xm, Wx, We].Nodup)
    (hc : SlotAt c Xslot m s e) (hm : 2 ^ 63 ≤ m) (he : e < 16446)
    (he' : 16382 ≤ e) :
    ∃ c', Cpu.exec (slot_unpack Xslot Xint Xm Wx We) (.on, c)
        = (.on, c') ∧ Unpacked c' Xm Wx m s e
      ∧ ∃ k, k + (16446 - e) = 2 ^ 32 ∧ c'.reg We = word k := by
  obtain ⟨⟨_, _, _, _, _⟩, ⟨_, _, _, _, _, _, _, _, _, _⟩, _, _, _, _,
    _, _, _, _, _, _⟩ := apart_five h
  obtain ⟨h1, h2, h3, h4, h5⟩ := hc
  have hmod : (s * 32768 + e) % 32768 = e := by omega
  obtain ⟨k, hk, hless⟩ := exponent_less he
  have htop : (word k).getLsbD 31 = true :=
    bit_of_ge (by omega) (by omega) (by decide)
  simp (disch := first | exact Apart.ne ‹_› | omega) [Cpu.exec,
    slot_unpack, h1, h2, and_7fff, hmod, hless, htop,
    -BitVec.getLsbD_eq_getElem]
  refine ⟨⟨?_, ?_⟩, k, hk, ?_⟩ <;>
    simp (disch := first | exact Apart.ne ‹_› | omega)

/-- A number below one half, and zero. -/
theorem unpack_tiny (h : [31, Xslot, Xint, Xm, Wx, We].Nodup)
    (hc : SlotAt c Xslot m s e) (hm : 2 ^ 63 ≤ m ∨ e = 0)
    (he : e < 16382) :
    ∃ c', Cpu.exec (slot_unpack Xslot Xint Xm Wx We) (.on, c)
        = (.seek .tiny, c') ∧ Unpacked c' Xm Wx m s e := by
  obtain ⟨⟨_, _, _, _, _⟩, ⟨_, _, _, _, _, _, _, _, _, _⟩, _, _, _, _,
    _, _, _, _, _, _⟩ := apart_five h
  obtain ⟨h1, h2, h3, h4, h5⟩ := hc
  have hmod : (s * 32768 + e) % 32768 = e := by omega
  rcases Nat.lt_or_ge m (2 ^ 63) with hlt | hge
  · obtain rfl : e = 0 := by omega
    simp (disch := first | exact Apart.ne ‹_› | omega) [Cpu.exec,
      slot_unpack, h1, h2, and_7fff, -BitVec.getLsbD_eq_getElem]
    constructor <;> simp (disch := first | exact Apart.ne ‹_› | omega)
  · simp (disch := first | exact Apart.ne ‹_› | omega) [Cpu.exec,
      slot_unpack, h1, h2, and_7fff, hmod, -BitVec.getLsbD_eq_getElem]
    constructor <;> simp (disch := first | exact Apart.ne ‹_› | omega)

/-- The integer and its sign, and the fraction where it counts. -/
structure Split (c : Cpu) (Xint Wx Xf m s e k : Nat) (need_frac : Bool) :
    Prop where
  int : c.reg Xint = word (m / 2 ^ k)
  sign : c.reg Wx = word (s * 2 ^ 15 + e)
  frac : need_frac = true →
    ∃ f, Fraction m k f ∧ c.reg Xf = word f

/-- The significand is shifted to the right by one and then by one less
than its scale, which may be 64. -/
theorem split_number (h : [31, Xslot, Xint, Xm, Wx, We].Nodup)
    (hc : Unpacked c Xm Wx m s e) (hm : m < 2 ^ 64) (he : e < 16446)
    (he' : 16382 ≤ e) {k : Nat} (hk : k + (16446 - e) = 2 ^ 32)
    (hwe : c.reg We = word k) (need_frac : Bool) :
    ∃ c', Cpu.exec (slot_split Xint Xm We Xslot need_frac) (.on, c)
        = (.on, c')
      ∧ Split c' Xint Wx Xslot m s e (16446 - e) need_frac := by
  obtain ⟨⟨_, _, _, _, _⟩, ⟨_, _, _, _, _, _, _, _, _, _⟩, _, _, _, _,
    _, _, _, _, _, _⟩ := apart_five h
  obtain ⟨h1, h2⟩ := hc
  obtain ⟨n, hn⟩ : ∃ n, 16446 - e = n + 1 := ⟨16445 - e, by omega⟩
  have hshift : 2 ^ 32 - k - 1 = n := by omega
  have hint : m / 2 % 2 ^ 63 / 2 ^ (n % 64) = m / 2 ^ (n + 1) := by
    rw [Nat.mod_eq_of_lt (show m / 2 < 2 ^ 63 by omega),
      Nat.mod_eq_of_lt (show n < 64 by omega), Nat.div_div_eq_div_mul,
      pow_succ']
  have hlow : word (m * 2 ^ (k % 64))
      = word (m % 2 ^ (n + 1) * 2 ^ (64 - (n + 1))) := by
    rcases Nat.lt_or_ge n 63 with hlt | hge
    · rw [show k % 64 = 64 - (n + 1) by omega, word_shifted (by omega)]
    · rw [show k % 64 = 0 by omega, show n + 1 = 64 by omega,
        Nat.mod_eq_of_lt hm]
  rw [hn]
  cases need_frac
  · simp (disch := first | exact Apart.ne ‹_› | omega) [Cpu.exec,
      slot_split, h1, hwe]
    refine ⟨?_, ?_, fun h => Bool.noConfusion h⟩
    · rw [reg_set_self (Apart.ne ‹_›)]
      exact word_congr ((congrArg (fun n => m / 2 % 2 ^ 63 / 2 ^ (n % 64))
        hshift).trans hint)
    · simp (disch := exact Apart.ne ‹_›) [h2]
  · simp (disch := first | exact Apart.ne ‹_› | omega) [Cpu.exec,
      slot_split, h1, hwe]
    refine ⟨?_, ?_, fun _ => ⟨_, fraction_shifted (by omega), ?_⟩⟩
    · rw [reg_set_of_ne (Apart.ne ‹_›), reg_set_self (Apart.ne ‹_›)]
      exact word_congr ((congrArg (fun n => m / 2 % 2 ^ 63 / 2 ^ (n % 64))
        hshift).trans hint)
    · simp (disch := exact Apart.ne ‹_›) [h2]
    · rw [reg_set_self (Apart.ne ‹_›)]
      exact hlow

theorem split_tiny (h : [31, Xslot, Xint, Xm, Wx, We].Nodup)
    (hc : Unpacked c Xm Wx m s e) (hm : m < 2 ^ 64) {k : Nat}
    (hk : 65 ≤ k) (need_frac : Bool) :
    ∃ c', Cpu.exec (slot_tiny Xint Xm Xslot need_frac) (.on, c)
        = (.on, c')
      ∧ Split c' Xint Wx Xslot m s e k need_frac := by
  obtain ⟨⟨_, _, _, _, _⟩, ⟨_, _, _, _, _, _, _, _, _, _⟩, _, _, _, _,
    _, _, _, _, _, _⟩ := apart_five h
  obtain ⟨h1, h2⟩ := hc
  have hone : word m &&& 1#64 = word (m % 2) := and_ones 1 (by decide)
  have hzero : m / 2 ^ k = 0 := Nat.div_eq_of_lt (Nat.lt_of_lt_of_le hm
    (Nat.pow_le_pow_right (by decide) (by omega)))
  cases need_frac
  · simp (disch := first | exact Apart.ne ‹_› | omega) [Cpu.exec,
      slot_tiny]
    refine ⟨?_, ?_, fun h => Bool.noConfusion h⟩
    · rw [reg_set_self (Apart.ne ‹_›), hzero]
    · simp (disch := exact Apart.ne ‹_›) [h2]
  · simp (disch := first | exact Apart.ne ‹_› | omega) [Cpu.exec,
      slot_tiny, h1, hone]
    refine ⟨?_, ?_, fun _ => ⟨_, fraction_tiny hm hk, ?_⟩⟩
    · rw [reg_set_self (Apart.ne ‹_›), hzero]
    · simp (disch := exact Apart.ne ‹_›) [h2]
    · rw [reg_set_of_ne (Apart.ne ‹_›), reg_set_self (Apart.ne ‹_›),
        or_word]
      apply word_congr
      rw [show (9223372036854775808 : Nat) = 2 ^ 63 from rfl,
        Nat.mod_eq_of_lt (show m / 2 < 2 ^ 63 by omega)]

-- ======================================================== the rounding

/-- The direction of a control word, from its two bits. -/
theorem rcMode_bits (cw : BitVec 16) :
    Fist.rcMode (Fist.roundingControl cw)
      = if cw.getLsbD 11 then (if cw.getLsbD 10 then .chop else .up)
        else if cw.getLsbD 10 then .down else .nearest := by
  have hbit : ∀ i, i < 2 → (Fist.roundingControl cw).getLsbD i
      = cw.getLsbD (10 + i) := by
    intro i hi
    simp [Fist.roundingControl, hi, -BitVec.getLsbD_eq_getElem]
  have hcases : ∀ rc : BitVec 2, Fist.rcMode rc
      = if rc.getLsbD 1 then (if rc.getLsbD 0 then .chop else .up)
        else if rc.getLsbD 0 then .down else .nearest := by
    decide
  rw [hcases, hbit 0 (by decide), hbit 1 (by decide)]

/-- Rounded: the integer's magnitude, and the sign still there. -/
structure Rounded (c : Cpu) (Xint Wx s e q : Nat) : Prop where
  int : c.reg Xint = word q
  sign : c.reg Wx = word (s * 2 ^ 15 + e)

/-- Whether the magnitude goes up, as the code finds it. -/
inductive Decided : Forward.Going Label → Bool → Prop
  | stays : Decided (.seek .to_rounded) false
  | falls : Decided .on true
  | jumps : Decided (.seek .to_inc) true

/-- The fraction against one half, ties by the lowest bit. -/
theorem exec_nearest (h : [31, Xslot, Xint, Xm, Wx, We].Nodup)
    {half tie odd : Bool} (h1 : (c.reg Xslot).getLsbD 63 = half)
    (h2 : decide (Arm.bitfieldEval 64 false 63 62 (c.reg Xslot) = 0#64)
      = tie)
    (h3 : (c.reg Xint).getLsbD 0 = odd) :
    ∃ g c', Cpu.exec (round_nearest Xint Xm Xslot) (.on, c) = (g, c')
      ∧ Decided g (half && (!tie || odd))
      ∧ c'.reg Xint = c.reg Xint ∧ c'.reg Wx = c.reg Wx := by
  obtain ⟨⟨_, _, _, _, _⟩, ⟨_, _, _, _, _, _, _, _, _, _⟩, _, _, _, _,
    _, _, _, _, _, _⟩ := apart_five h
  obtain ⟨v, hv⟩ : ∃ v,
      Arm.bitfieldEval 64 false 63 62 (c.reg Xslot) = v :=
    ⟨_, rfl⟩
  rw [hv] at h2
  have hint : (c.set Xm v).reg Xint = c.reg Xint :=
    reg_set_of_ne (Apart.ne ‹_›)
  have hsign : (c.set Xm v).reg Wx = c.reg Wx :=
    reg_set_of_ne (Apart.ne ‹_›)
  cases half
  · refine ⟨.seek .to_rounded, c, ?_, .stays, rfl, rfl⟩
    simp (disch := exact Apart.ne ‹_›) [Cpu.exec, round_nearest, h1,
      -BitVec.getLsbD_eq_getElem]
  · cases tie
    · refine ⟨.seek .to_inc, c.set Xm v, ?_, .jumps, hint, hsign⟩
      simp (disch := exact Apart.ne ‹_›) [Cpu.exec, round_nearest, h1, hv,
        of_decide_eq_false h2, -BitVec.getLsbD_eq_getElem]
    · cases odd
      · refine ⟨.seek .to_rounded, c.set Xm v, ?_, .stays, hint, hsign⟩
        simp (disch := exact Apart.ne ‹_›) [Cpu.exec, round_nearest, h1,
          hv, h3, of_decide_eq_true h2, -BitVec.getLsbD_eq_getElem]
      · refine ⟨.on, c.set Xm v, ?_, .falls, hint, hsign⟩
        simp (disch := exact Apart.ne ‹_›) [Cpu.exec, round_nearest, h1,
          hv, h3, of_decide_eq_true h2, -BitVec.getLsbD_eq_getElem]

/-- The same for numbers. -/
theorem decides_nearest (h : [31, Xslot, Xint, Xm, Wx, We].Nodup)
    {q f : Nat} (hf : f < 2 ^ 64) (hq : q < 2 ^ 64)
    (hint : c.reg Xint = word q) (hreg : c.reg Xslot = word f) :
    ∃ g c', Cpu.exec (round_nearest Xint Xm Xslot) (.on, c) = (g, c')
      ∧ Decided g (decide (2 ^ 63 ≤ f ∧ (f % 2 ^ 63 ≠ 0 ∨ q % 2 = 1)))
      ∧ c'.reg Xint = c.reg Xint ∧ c'.reg Wx = c.reg Wx := by
  have hone : (c.reg Xslot).getLsbD 63 = decide (2 ^ 63 ≤ f) := by
    rw [hreg, getLsbD_word hf]
    exact decide_eq_decide.mpr (by omega)
  have hrest : decide (Arm.bitfieldEval 64 false 63 62 (c.reg Xslot) = 0#64)
      = decide (f % 2 ^ 63 = 0) := by
    rw [hreg, ubfm_up (by decide) hf]
    apply decide_eq_decide.mpr
    rw [word_eq_zero (by omega)]
    omega
  have hodd : (c.reg Xint).getLsbD 0 = decide (q % 2 = 1) := by
    rw [hint, getLsbD_word hq, pow_zero, Nat.div_one]
  obtain ⟨g, c', hexec, hg, hregs⟩ := exec_nearest h hone hrest hodd
  refine ⟨g, c', hexec, ?_, hregs⟩
  rwa [Bool.decide_and, Bool.decide_or, decide_not]

/-- The increment. -/
theorem exec_increment (hx : Xint ≠ 31) (hw : Wx ≠ Xint)
    {g : Forward.Going Label} {up : Bool} {q : Nat} (hg : Decided g up)
    (hint : c.reg Xint = word q) :
    ∃ c', Cpu.exec (round_increment Xint) (g, c) = (.on, c')
      ∧ c'.reg Xint = word (q + up.toNat) ∧ c'.reg Wx = c.reg Wx := by
  cases hg with
  | stays => exact ⟨c, rfl, hint, rfl⟩
  | falls =>
      simp [Cpu.exec, round_increment, hx, hw, hint]
  | jumps =>
      simp [Cpu.exec, round_increment, hx, hw, hint]

/-- Where the direction of a control word takes the code. -/
def directed (cw : BitVec 16) : Forward.Going Label :=
  if cw.getLsbD 11 then .seek .up_or_chop
  else if cw.getLsbD 10 then .seek .down else .on

theorem exec_control (hb : Xbase ≠ 31) (hw : We ≠ 31) {cw : BitVec 16}
    (hcw : c.load 1 (c.reg Xbase) = cw.setWidth 64) :
    Cpu.exec (round_control Xbase We) (.on, c)
      = (directed cw, c.set We (cw.setWidth 64)) := by
  have hbit : ∀ i, i < 16 →
      (cw.setWidth 64).getLsbD i = cw.getLsbD i := by
    intro i hi
    rw [BitVec.getLsbD_setWidth, decide_eq_true (by omega), Bool.true_and]
  unfold directed
  cases h11 : cw.getLsbD 11 <;> cases h10 : cw.getLsbD 10 <;>
    simp [Cpu.exec, round_control, hb, hw, hcw, hbit, h11, h10,
      -BitVec.getLsbD_eq_getElem]

/-- Nearest is decided before the directions, which it passes by. -/
theorem exec_passes {g : Forward.Going Label} {up : Bool}
    (hg : Decided g up) :
    ∃ g', Cpu.exec (round_directed Wx We Xslot) (g, c) = (g', c)
      ∧ Decided g' up := by
  cases hg with
  | stays => exact ⟨_, rfl, .stays⟩
  | falls => exact ⟨_, rfl, .jumps⟩
  | jumps => exact ⟨_, rfl, .jumps⟩

/-- Up or chop: a positive number with a fraction goes up. -/
theorem exec_up {chop neg whole : Bool} (h1 : (c.reg We).getLsbD 10 = chop)
    (h2 : (c.reg Wx).getLsbD 15 = neg)
    (h3 : decide (c.reg Xslot = 0#64) = whole) :
    ∃ g, Cpu.exec (round_directed Wx We Xslot) (.seek .up_or_chop, c)
        = (g, c) ∧ Decided g (!chop && !neg && !whole) := by
  cases chop
  · cases neg
    · cases whole
      · refine ⟨.on, ?_, .falls⟩
        simp [Cpu.exec, round_directed, h1, h2, of_decide_eq_false h3,
          -BitVec.getLsbD_eq_getElem]
      · refine ⟨.seek .to_rounded, ?_, .stays⟩
        simp [Cpu.exec, round_directed, h1, h2, of_decide_eq_true h3,
          -BitVec.getLsbD_eq_getElem]
    · refine ⟨.seek .to_rounded, ?_, .stays⟩
      simp [Cpu.exec, round_directed, h1, h2, -BitVec.getLsbD_eq_getElem]
  · refine ⟨.seek .to_rounded, ?_, .stays⟩
    simp [Cpu.exec, round_directed, h1, -BitVec.getLsbD_eq_getElem]

/-- Down: the magnitude of a negative number with a fraction goes up. -/
theorem exec_down {neg whole : Bool} (h2 : (c.reg Wx).getLsbD 15 = neg)
    (h3 : decide (c.reg Xslot = 0#64) = whole) :
    ∃ g, Cpu.exec (round_directed Wx We Xslot) (.seek .down, c)
        = (g, c) ∧ Decided g (neg && !whole) := by
  cases neg
  · refine ⟨.seek .to_rounded, ?_, .stays⟩
    simp [Cpu.exec, round_directed, h2, -BitVec.getLsbD_eq_getElem]
  · cases whole
    · refine ⟨.on, ?_, .falls⟩
      simp [Cpu.exec, round_directed, h2, of_decide_eq_false h3,
        -BitVec.getLsbD_eq_getElem]
    · refine ⟨.seek .to_rounded, ?_, .stays⟩
      simp [Cpu.exec, round_directed, h2, of_decide_eq_true h3,
        -BitVec.getLsbD_eq_getElem]

theorem sign_bit (hs : s < 2) (he : e < 2 ^ 15) :
    (word (s * 2 ^ 15 + e)).getLsbD 15 = decide (s = 1) := by
  rw [getLsbD_word (by omega)]
  exact decide_eq_decide.mpr (by omega)

/-- The direction for the magnitude. -/
def magnitudeMode (mode : Rounding) (s : Nat) : Rounding :=
  if s = 0 then mode else mode.mirror

/-- What the control word asks for is what the code decides. -/
theorem decides_control (hb : Xbase ≠ 31)
    (h : [31, Xslot, Xint, Xm, Wx, We].Nodup) {k f : Nat}
    {cw : BitVec 16} (hcw : c.load 1 (c.reg Xbase) = cw.setWidth 64)
    (hm : m < 2 ^ 64) (hs : s < 2) (he : e < 2 ^ 15)
    (hf : Fraction m k f) (hint : c.reg Xint = word (m / 2 ^ k))
    (hsign : c.reg Wx = word (s * 2 ^ 15 + e))
    (hreg : c.reg Xslot = word f) :
    ∃ g c', Cpu.exec (round_control Xbase We ++ round_nearest Xint Xm Xslot
        ++ round_directed Wx We Xslot) (.on, c) = (g, c')
      ∧ Decided g (roundsUp (magnitudeMode
          (Fist.rcMode (Fist.roundingControl cw)) s) m k)
      ∧ c'.reg Xint = c.reg Xint ∧ c'.reg Wx = c.reg Wx := by
  have hq : m / 2 ^ k < 2 ^ 64 := Nat.lt_of_le_of_lt (Nat.div_le_self _ _) hm
  obtain ⟨⟨_, _, _, _, hwe⟩, ⟨_, _, _, _, _, _, _, _, _, _⟩, _, _, _, _,
    _, _, _, _, _, _⟩ := apart_five h
  obtain ⟨c₁, hc₁⟩ : ∃ c₁,
      c.set We (cw.setWidth 64) = c₁ := ⟨_, rfl⟩
  have hint' : c₁.reg Xint = c.reg Xint :=
    hc₁ ▸ reg_set_of_ne (Apart.ne ‹_›)
  have hsign' : c₁.reg Wx = c.reg Wx :=
    hc₁ ▸ reg_set_of_ne (Apart.ne ‹_›)
  have hreg' : c₁.reg Xslot = word f :=
    hreg ▸ hc₁ ▸ reg_set_of_ne (Apart.ne ‹_›)
  have hwe' : c₁.reg We = cw.setWidth 64 :=
    hc₁ ▸ reg_set_self (Apart.ne hwe)
  have hneg : (c₁.reg Wx).getLsbD 15 = decide (s = 1) := by
    rw [hsign', hsign, sign_bit hs he]
  have hwhole : decide (c₁.reg Xslot = 0#64) = decide (f = 0) := by
    rw [hreg']
    exact decide_eq_decide.mpr (word_eq_zero hf.lt)
  have hs' : s = 0 ∨ s = 1 := by omega
  unfold magnitudeMode
  rw [Cpu.exec_append, Cpu.exec_append,
    exec_control hb (Apart.ne hwe) hcw, hc₁, rcMode_bits,
    roundsUp_fraction hf]
  unfold directed
  cases h11 : cw.getLsbD 11
  · cases h10 : cw.getLsbD 10
    · -- to nearest
      obtain ⟨g, c₂, hexec, hg, hregs⟩ := decides_nearest h hf.lt hq
        (hint'.trans hint) hreg'
      obtain ⟨g', hpass, hg'⟩ := @exec_passes c₂ Xslot Wx We _ _ hg
      refine ⟨g', c₂, ?_, ?_, hregs.1.trans hint', hregs.2.trans hsign'⟩
      · show Cpu.exec _ (Cpu.exec _ (.on, c₁)) = _
        rw [hexec, hpass]
      · rcases hs' with rfl | rfl <;> exact hg'
    · -- down
      obtain ⟨g, hexec, hg⟩ := @exec_down c₁ Xslot Wx We _ _ hneg hwhole
      refine ⟨g, c₁, ?_, ?_, hint', hsign'⟩
      · show Cpu.exec _ (Cpu.exec _ (.seek Label.down, c₁)) = _
        rw [Cpu.exec, Cpu.exec, Forward.exec_seek rfl]
        exact hexec
      · rcases hs' with rfl | rfl
        · exact hg
        · rw [decide_not]
          exact hg
  · -- up, and to zero
    have hchop : (c₁.reg We).getLsbD 10 = cw.getLsbD 10 := by
      rw [hwe', BitVec.getLsbD_setWidth]
      rfl
    obtain ⟨g, hexec, hg⟩ :=
      @exec_up c₁ Xslot Wx We _ _ _ hchop hneg hwhole
    refine ⟨g, c₁, ?_, ?_, hint', hsign'⟩
    · show Cpu.exec _ (Cpu.exec _ (.seek Label.up_or_chop, c₁)) = _
      rw [Cpu.exec, Cpu.exec, Forward.exec_seek rfl]
      exact hexec
    · cases h10 : cw.getLsbD 10 <;> rw [h10] at hg
      · rcases hs' with rfl | rfl
        · rw [decide_not]
          exact hg
        · exact hg
      · rcases hs' with rfl | rfl <;> exact hg

/-- The rounding block. -/
theorem run_round (hb : Xbase ≠ 31)
    (h : [31, Xslot, Xint, Xm, Wx, We].Nodup) {k : Nat}
    {cw : BitVec 16} (hcw : c.load 1 (c.reg Xbase) = cw.setWidth 64)
    (hm : m < 2 ^ 64) (hs : s < 2) (he : e < 2 ^ 15)
    (round : NativeIntRound)
    (hc : Split c Xint Wx Xslot m s e k (round ≠ .kChop)) :
    ∃ c', Cpu.exec (round_integer Xbase Xint Xm Wx We Xslot round) (.on, c)
        = (.on, c')
      ∧ Rounded c' Xint Wx s e
        (roundNat (magnitudeMode (round.mode cw) s) m k) := by
  obtain ⟨⟨_, _, _, _, _⟩, ⟨_, _, _, _, _, _, _, _, _, _⟩, _, _, _, _,
    _, _, _, _, _, _⟩ := apart_five h
  have hq : m / 2 ^ k < 2 ^ 64 := Nat.lt_of_le_of_lt (Nat.div_le_self _ _) hm
  have hs' : s = 0 ∨ s = 1 := by omega
  obtain ⟨hint, hsign, hfrac⟩ := hc
  cases round with
  | kChop =>
      refine ⟨c, rfl, ?_, hsign⟩
      rw [hint]
      rcases hs' with rfl | rfl <;> rfl
  | kNearest =>
      obtain ⟨f, hf, hreg⟩ := hfrac rfl
      obtain ⟨g, c₁, hexec, hg, h1, h2⟩ := decides_nearest h hf.lt hq hint
        hreg
      obtain ⟨c₂, hinc, h1', h2'⟩ := @exec_increment c₁ Xint Wx
        (Apart.ne ‹_›) (Apart.ne ‹_›) _ _ _ hg (h1.trans hint)
      refine ⟨c₂, ?_, ?_, h2'.trans (h2.trans hsign)⟩
      · show Cpu.exec (_ ++ _) _ = _
        rw [Cpu.exec_append, hexec]
        exact hinc
      · have hup := roundsUp_fraction hf .nearest
        rw [h1']
        unfold roundNat
        rcases hs' with rfl | rfl <;> exact hup ▸ rfl
  | kControlWord =>
      obtain ⟨f, hf, hreg⟩ := hfrac rfl
      obtain ⟨g, c₁, hexec, hg, h1, h2⟩ :=
        decides_control hb h hcw hm hs he hf hint hsign hreg
      obtain ⟨c₂, hinc, h1', h2'⟩ := @exec_increment c₁ Xint Wx
        (Apart.ne ‹_›) (Apart.ne ‹_›) _ _ _ hg (h1.trans hint)
      refine ⟨c₂, ?_, ?_, h2'.trans (h2.trans hsign)⟩
      · show Cpu.exec (_ ++ _) _ = _
        rw [Cpu.exec_append, hexec]
        exact hinc
      · rw [h1']
        rfl

-- ================================================== sign and range

/-- The integer of a magnitude and a sign. -/
def signedInt (s q : Nat) : Int := if s = 0 then q else -q

/-- What the width keeps of an integer. -/
def ranged (w : Nat) (n : Int) : BitVec w :=
  if Double.Fits w n then BitVec.ofInt w n else Fist.indefinite w

theorem run_sign (hx : Xint ≠ 31) {q : Nat}
    (hc : Rounded c Xint Wx s e q) (hs : s < 2) (he : e < 2 ^ 15) :
    ∃ c', Cpu.exec (slot_sign Xint Wx) (.on, c) = (.on, c')
      ∧ c'.reg Xint = BitVec.ofInt 64 (signedInt s q) := by
  obtain ⟨hint, hsign⟩ := hc
  have hbit := sign_bit hs he
  rw [← hsign] at hbit
  have hs' : s = 0 ∨ s = 1 := by omega
  rcases hs' with rfl | rfl
  · refine ⟨c, ?_, hint⟩
    simp [Cpu.exec, slot_sign, hbit, -BitVec.getLsbD_eq_getElem]
  · refine ⟨_, by
      simp [Cpu.exec, slot_sign, hbit, -BitVec.getLsbD_eq_getElem]
      rfl, ?_⟩
    rw [reg_setFlags, reg_set_self hx, hint, show word q
      = BitVec.ofInt 64 q from (BitVec.ofInt_natCast 64 q).symm,
      ← BitVec.ofInt_neg]
    rfl

/-- The code that leaves the indefinite. -/
theorem range_indef (hx : Xint ≠ 31) (bits : IntBits) :
    ∃ c', Cpu.exec (slot_range Xint Xm bits) (.seek .to_indef, c)
        = (.on, c')
      ∧ (c'.reg Xint).setWidth bits.width
        = Fist.indefinite bits.width := by
  cases bits <;> simp [Cpu.exec, slot_range, hx, IntBits.width] <;> rfl

/-- What fits 64 bits fits them unchanged, and so it does not fit fewer
bits where the original does not. -/
theorem fits_wrapped {w : Nat} (hw : 0 < w) (hw' : w ≤ 63) {n : Int}
    (hlo : -2 ^ 63 ≤ n) (hhi : n ≤ 2 ^ 63) :
    Double.Fits w (BitVec.ofInt 64 n).toInt ↔ Double.Fits w n := by
  rcases Int.lt_or_le n (2 ^ 63) with h | h
  · rw [BitVec.toInt_ofInt_eq_self (by decide) hlo h]
  · obtain rfl : n = 2 ^ 63 := le_antisymm hhi h
    have hpow : (2 : Int) ^ (w - 1) ≤ 2 ^ 62 :=
      pow_le_pow_right₀ (by decide) (by omega)
    have hwrap : (BitVec.ofInt 64 (2 ^ 63)).toInt = -2 ^ 63 := by decide
    rw [hwrap]
    unfold Double.Fits
    omega

/-- The largest magnitude has the pattern of the indefinite. -/
theorem ranged_top {n : Int} (hlo : -2 ^ 63 ≤ n) (hhi : n ≤ 2 ^ 63) :
    BitVec.ofInt 64 n = ranged 64 n := by
  unfold ranged
  by_cases hfits : Double.Fits 64 n
  · rw [if_pos hfits]
  · have hge : 2 ^ 63 ≤ n := by
      unfold Double.Fits at hfits
      omega
    obtain rfl : n = 2 ^ 63 := le_antisymm hhi hge
    rw [if_neg hfits]
    rfl

theorem run_range (h : Xm ≠ Xint) (hx : Xint ≠ 31) (hm : Xm ≠ 31)
    (bits : IntBits) {n : Int} (hlo : -2 ^ 63 ≤ n) (hhi : n ≤ 2 ^ 63)
    (hc : c.reg Xint = BitVec.ofInt 64 n) :
    ∃ c', Cpu.exec (slot_range Xint Xm bits) (.on, c) = (.on, c')
      ∧ (c'.reg Xint).setWidth bits.width = ranged bits.width n := by
  have hlow : ∀ w, w ≤ 64 →
      (BitVec.ofInt 64 n).setWidth w = BitVec.ofInt w n :=
    fun w hw => Word.setWidth_ofInt hw n
  have hsub : ∀ w, 0 < w → w ≤ 63 →
      (BitVec.ofInt 64 n - signed w (BitVec.ofInt 64 n) = 0#64
        ↔ Double.Fits w n) := by
    intro w hw hw'
    rw [Fist.sub_signed_eq_zero hw (by omega), fits_wrapped hw hw' hlo hhi]
  unfold ranged
  cases bits with
  | b16 =>
      have h16 := hsub 16 (by decide) (by decide)
      by_cases hfits : Double.Fits 16 n
      · simp [Cpu.exec, slot_range, h.symm, hx, hm, hc, IntBits.width, hfits,
          h16.mpr hfits, hlow]
      · simp [Cpu.exec, slot_range, h.symm, hx, hm, hc, IntBits.width, hfits,
          (not_congr h16).mpr hfits, Fist.indefinite]
  | b32 =>
      have h32 := hsub 32 (by decide) (by decide)
      by_cases hfits : Double.Fits 32 n
      · simp [Cpu.exec, slot_range, h.symm, hx, hm, hc, IntBits.width, hfits,
          h32.mpr hfits, hlow]
      · simp [Cpu.exec, slot_range, h.symm, hx, hm, hc, IntBits.width, hfits,
          (not_congr h32).mpr hfits, Fist.indefinite]
  | b64 =>
      refine ⟨c, rfl, ?_⟩
      show (c.reg Xint).setWidth 64 = ranged 64 n
      rw [hc, hlow 64 (by decide), ranged_top hlo hhi]

end

end F80

-- ==================================================== the value rounded

namespace Extended

variable {x : Extended}

/-- A number below `2 ^ 64`, rounded. -/
theorem roundInt_value (mode : Rounding) (he : x.exponent < 16446) :
    roundInt mode x.value = signedInt x.neg.toNat
      (roundNat (magnitudeMode mode x.neg.toNat) x.m
        (16446 - max x.exponent 1)) := by
  have hexp : ((max x.exponent 1 : Nat) : Int) - 16446
      = -((16446 - max x.exponent 1 : Nat) : Int) := by omega
  unfold value Double.withSign magnitude
  rw [hexp]
  unfold magnitudeMode signedInt
  cases x.neg with
  | false => exact roundInt_scaled mode _ _
  | true =>
      simp only [if_true, Bool.toNat_true, Nat.one_ne_zero, if_false]
      rw [roundInt_neg, roundInt_scaled]

/-- A larger one is an integer. -/
theorem roundInt_large (mode : Rounding) (he : 16446 ≤ x.exponent) :
    roundInt mode x.value = signedInt x.neg.toNat
      (x.m * 2 ^ (x.exponent - 16446)) := by
  obtain ⟨d, hd⟩ : ∃ d, x.exponent - 16446 = d := ⟨_, rfl⟩
  have hexp : ((max x.exponent 1 : Nat) : Int) - 16446 = (d : Int) := by
    omega
  have hmag : x.magnitude = (((x.m * 2 ^ d : Nat) : Int) : Rat) := by
    unfold magnitude
    rw [hexp, Format.two_nat, Int.cast_natCast, Nat.cast_mul]
  rw [hd]
  clear hd hexp
  unfold value Double.withSign signedInt
  rw [hmag]
  generalize x.m * 2 ^ d = q
  cases x.neg with
  | false => exact roundInt_intCast mode q
  | true =>
      show roundInt mode (-((q : Int) : Rat)) = -(q : Int)
      rw [← Int.cast_neg, roundInt_intCast]

/-- What is too large for any width leaves the indefinite. -/
theorem storedInt_large {w : Nat} (hw : 0 < w) (hw' : w ≤ 64)
    (mode : Rounding) (h : x.unsupported = false)
    (he : 16446 ≤ x.exponent) : x.storedInt w mode = Fist.indefinite w := by
  have hm : 2 ^ 63 ≤ x.m := by
    rcases supported h with hm | h0
    · exact hm
    · omega
  have hpow : 2 ^ 63 * 1 ≤ x.m * 2 ^ (x.exponent - 16446) :=
    Nat.mul_le_mul hm (Nat.one_le_two_pow)
  have htop : (2 : Int) ^ (w - 1) ≤ 2 ^ 63 :=
    pow_le_pow_right₀ (by decide) (by omega)
  unfold storedInt
  split_ifs with hcase
  · rfl
  · have hfits := of_not_not (not_or.mp (not_or.mp (not_or.mp
      hcase).2).2).2
    rw [roundInt_large mode he] at hfits ⊢
    generalize x.m * 2 ^ (x.exponent - 16446) = q at *
    unfold signedInt Double.Fits at *
    split_ifs at * with hs
    · omega
    · obtain rfl : w = 64 := by
        by_contra hne
        have hlow : (2 : Int) ^ (w - 1) ≤ 2 ^ 62 :=
          pow_le_pow_right₀ (by decide) (by omega)
        omega
      obtain rfl : q = 2 ^ 63 := by omega
      rfl

/-- An unnormal is no number. -/
theorem storedInt_unsupported (w : Nat) (mode : Rounding)
    (h : x.unsupported = true) :
    x.storedInt w mode = Fist.indefinite w := if_pos (.inl h)

/-- A number of any width, rounded. -/
theorem storedInt_number (w : Nat) (mode : Rounding)
    (h : x.unsupported = false) (he : x.exponent < 16446) :
    x.storedInt w mode = ranged w (signedInt x.neg.toNat
      (roundNat (magnitudeMode mode x.neg.toNat) x.m
        (16446 - max x.exponent 1))) := by
  have hspecial : x.exponent ≠ 0x7FFF := by omega
  unfold storedInt ranged
  rw [← roundInt_value mode he]
  simp [h, isNaN, isInf, hspecial]

end Extended

namespace F80

-- ========================================================= the store

section
variable {c : Cpu} {Xbase Xslot Xint Xm Wx We : Nat}

/-- The slot in memory. -/
def slotOf (c : Cpu) (Xslot : Nat) : Extended :=
  ⟨c.mem.load (c.reg Xslot) 8, c.mem.load (c.reg Xslot + 8) 2⟩

theorem slotAt (c : Cpu) (Xslot : Nat) :
    SlotAt c Xslot (slotOf c Xslot).m (slotOf c Xslot).neg.toNat
      (slotOf c Xslot).exponent where
  mant := (BitVec.setWidth_eq _).trans
    (Extended.mant_eq (x := slotOf c Xslot))
  se := Extended.se_eq (x := slotOf c Xslot)
  m_lt := Extended.m_lt
  s_lt := Extended.neg_lt
  e_lt := Extended.exponent_lt

theorem sublist_apart (h : [31, Xbase, Xslot, Xint, Xm, Wx, We].Nodup) :
    Xbase ≠ 31 ∧ [31, Xslot, Xint, Xm, Wx, We].Nodup := by
  constructor
  · rintro rfl
    simp at h
  · exact h.sublist (.cons_cons _ (.cons _ (List.Sublist.refl _)))

/-- Behind the split: rounding, sign and range. -/
theorem run_tail (h : [31, Xbase, Xslot, Xint, Xm, Wx, We].Nodup)
    {m s e k : Nat} {cw : BitVec 16} (round : NativeIntRound)
    (bits : IntBits)
    (hcw : c.load 1 (c.reg Xbase) = cw.setWidth 64)
    (hm : m < 2 ^ 64) (hs : s < 2) (he : e < 2 ^ 15) (hk : 0 < k)
    (hc : Split c Xint Wx Xslot m s e k (round ≠ .kChop)) :
    ∃ c', Cpu.exec (round_integer Xbase Xint Xm Wx We Xslot round
        ++ slot_sign Xint Wx ++ slot_range Xint Xm bits) (.on, c)
        = (.on, c')
      ∧ (c'.reg Xint).setWidth bits.width = ranged bits.width (signedInt s
        (roundNat (magnitudeMode (round.mode cw) s) m k)) := by
  obtain ⟨hbase, h'⟩ := sublist_apart h
  obtain ⟨⟨_, _, _, _, _⟩, ⟨_, _, _, _, _, _, _, _, _, _⟩, _, _, _, _,
    _, _, _, _, _, _⟩ := apart_five h'
  obtain ⟨c₁, hround, hrounded⟩ :=
    run_round hbase h' hcw hm hs he round hc
  obtain ⟨c₂, hsign, hint⟩ := run_sign (Apart.ne ‹_›) hrounded hs he
  have hq : roundNat (magnitudeMode (round.mode cw) s) m k ≤ 2 ^ 63 := by
    have hdiv : m / 2 ^ k ≤ m / 2 ^ 1 :=
      Nat.div_le_div_left (Nat.pow_le_pow_right (by decide) hk)
        (by decide)
    have := Bool.toNat_le
      (roundsUp (magnitudeMode (round.mode cw) s) m k)
    unfold roundNat
    omega
  obtain ⟨c₃, hrange, hstored⟩ := @run_range _ Xint Xm (Apart.ne ‹_›)
    (Apart.ne ‹_›) (Apart.ne ‹_›) bits _ (by
      unfold signedInt
      split <;> omega) (by
      unfold signedInt
      split <;> omega) hint
  refine ⟨c₃, ?_, hstored⟩
  rw [Cpu.exec_append, Cpu.exec_append, hround, hsign, hrange]

/-- The code behind the unpacking. -/
abbrev slot_rest (Xbase Xslot Xint Xm Wx We : Nat)
    (round : NativeIntRound) (bits : IntBits) : Code :=
  slot_split Xint Xm We Xslot (round ≠ .kChop)
    ++ ([emit_b (.label .general_done), .bind .tiny]
    ++ (slot_tiny Xint Xm Xslot (round ≠ .kChop)
    ++ ([.bind .general_done]
    ++ (round_integer Xbase Xint Xm Wx We Xslot round
    ++ slot_sign Xint Wx
    ++ slot_range Xint Xm bits))))

theorem slot_code (round : NativeIntRound) (bits : IntBits) :
    emit_f80_slot_to_int Xbase Xslot Xint Xm Wx We round bits
      = slot_unpack Xslot Xint Xm Wx We
        ++ slot_rest Xbase Xslot Xint Xm Wx We round bits := by
  unfold emit_f80_slot_to_int slot_rest
  simp only [List.append_assoc]

/-- What is no number, or too large, meets no label before the indefinite
is written. -/
theorem rest_indef (hx : Xint ≠ 31) (round : NativeIntRound)
    (bits : IntBits) :
    ∃ c', Cpu.exec (slot_rest Xbase Xslot Xint Xm Wx We round bits)
        (.seek .to_indef, c) = (.on, c')
      ∧ (c'.reg Xint).setWidth bits.width
        = Fist.indefinite bits.width := by
  obtain ⟨c', hexec, hstored⟩ := @range_indef c Xint Xm hx bits
  refine ⟨c', ?_, hstored⟩
  have hseek : ∀ is : Code, is.any (Forward.Item.binds .to_indef) = false →
      Cpu.exec is (.seek .to_indef, c) = (.seek .to_indef, c) :=
    fun is his => Forward.exec_seek his c
  unfold slot_rest
  simp only [Cpu.exec_append]
  rw [hseek _ (by cases round <;> rfl), hseek _ rfl,
    hseek _ (by cases round <;> rfl), hseek _ rfl,
    hseek _ (by cases round <;> rfl), hseek _ rfl, hexec]

/-- Neither unpacking nor splitting touches the control word. -/
theorem keeps_control {code : Code} {s : Forward.Going Label × Cpu}
    (hmem : ∀ i, .insn i ∈ code → i.stores = false)
    (hreg : ∀ i, .insn i ∈ code → i.dest ≠ some Xbase) :
    (Cpu.exec code s).2.load 1 ((Cpu.exec code s).2.reg Xbase)
      = s.2.load 1 (s.2.reg Xbase) := by
  rw [Cpu.exec_reg_of_ne hreg]
  unfold Cpu.load
  rw [Cpu.exec_mem hmem]

theorem unpack_keeps (h : [31, Xbase, Xslot, Xint, Xm, Wx, We].Nodup)
    (s : Forward.Going Label × Cpu) :
    (Cpu.exec (slot_unpack Xslot Xint Xm Wx We) s).2.load 1
        ((Cpu.exec (slot_unpack Xslot Xint Xm Wx We) s).2.reg Xbase)
      = s.2.load 1 (s.2.reg Xbase) := by
  simp only [List.nodup_cons, List.mem_cons, not_or] at h
  apply keeps_control
  · simp [slot_unpack, maskOp, Cpu.Op.stores]
  · simp [slot_unpack, maskOp, Cpu.Op.dest, eq_comm, h]

theorem split_keeps (h : [31, Xbase, Xslot, Xint, Xm, Wx, We].Nodup)
    (need_frac : Bool) (s : Forward.Going Label × Cpu) :
    (Cpu.exec (slot_split Xint Xm We Xslot need_frac) s).2.load 1
        ((Cpu.exec (slot_split Xint Xm We Xslot need_frac) s).2.reg Xbase)
      = s.2.load 1 (s.2.reg Xbase) := by
  simp only [List.nodup_cons, List.mem_cons, not_or] at h
  apply keeps_control <;> cases need_frac
  · simp [slot_split, Cpu.Op.stores]
  · simp [slot_split, Cpu.Op.stores]
  · simp [slot_split, Cpu.Op.dest, eq_comm, h]
  · simp [slot_split, Cpu.Op.dest, eq_comm, h]

theorem tiny_keeps (h : [31, Xbase, Xslot, Xint, Xm, Wx, We].Nodup)
    (need_frac : Bool) (s : Forward.Going Label × Cpu) :
    (Cpu.exec (slot_tiny Xint Xm Xslot need_frac) s).2.load 1
        ((Cpu.exec (slot_tiny Xint Xm Xslot need_frac) s).2.reg Xbase)
      = s.2.load 1 (s.2.reg Xbase) := by
  simp only [List.nodup_cons, List.mem_cons, not_or] at h
  apply keeps_control <;> cases need_frac
  · simp [slot_tiny, Cpu.Op.stores]
  · simp [slot_tiny, maskOp, Cpu.Op.stores]
  · simp [slot_tiny, Cpu.Op.dest, eq_comm, h]
  · simp [slot_tiny, maskOp, Cpu.Op.dest, eq_comm, h]

/-- A number reaches the rounding taken apart, by one way or the other. -/
theorem rest_number (h : [31, Xbase, Xslot, Xint, Xm, Wx, We].Nodup)
    {m s e : Nat} (hc : SlotAt c Xslot m s e) (hm : 2 ^ 63 ≤ m ∨ e = 0)
    (he : e < 16446) (need_frac : Bool) :
    ∃ c', Cpu.exec (slot_unpack Xslot Xint Xm Wx We
        ++ (slot_split Xint Xm We Xslot need_frac
        ++ ([emit_b (.label .general_done), .bind .tiny]
        ++ (slot_tiny Xint Xm Xslot need_frac
        ++ [.bind .general_done])))) (.on, c) = (.on, c')
      ∧ Split c' Xint Wx Xslot m s e (16446 - max e 1) need_frac
      ∧ c'.load 1 (c'.reg Xbase) = c.load 1 (c.reg Xbase) := by
  obtain ⟨hbase, h'⟩ := sublist_apart h
  simp only [Cpu.exec_append]
  rcases Nat.lt_or_ge e 16382 with hlow | hhigh
  · obtain ⟨c₁, hunpack, hun⟩ := unpack_tiny h' hc hm hlow
    obtain ⟨c₂, htiny, hsplit⟩ := split_tiny h' hun hc.m_lt
      (show 65 ≤ 16446 - max e 1 by omega) need_frac
    have h1 := unpack_keeps h (.on, c)
    have h2 := tiny_keeps h need_frac (.on, c₁)
    rw [hunpack] at h1
    rw [htiny] at h2
    refine ⟨c₂, ?_, hsplit, h2.trans h1⟩
    have hskip : Cpu.exec (slot_split Xint Xm We Xslot need_frac)
        (.seek .tiny, c₁) = (.seek .tiny, c₁) :=
      Forward.exec_seek (by cases need_frac <;> rfl) c₁
    have hbind : Cpu.exec
        ([emit_b (.label .general_done), .bind .tiny] : Code)
        (.seek .tiny, c₁) = (.on, c₁) := rfl
    rw [hunpack, hskip, hbind, htiny]
    rfl
  · have hm' : 2 ^ 63 ≤ m := by
      rcases hm with hm | h0
      · exact hm
      · omega
    obtain ⟨c₁, hunpack, hun, k, hk, hwe⟩ := unpack_number h' hc hm' he
      hhigh
    obtain ⟨c₂, hsplit, hs⟩ := split_number h' hun hc.m_lt he hhigh hk hwe
      need_frac
    have h1 := unpack_keeps h (.on, c)
    have h2 := split_keeps h need_frac (.on, c₁)
    rw [hunpack] at h1
    rw [hsplit] at h2
    refine ⟨c₂, ?_, ?_, h2.trans h1⟩
    · have hb : Cpu.exec
          ([emit_b (.label .general_done), .bind .tiny] : Code)
          (.on, c₂) = (.seek .general_done, c₂) := rfl
      have hskip : Cpu.exec (slot_tiny Xint Xm Xslot need_frac)
          (.seek .general_done, c₂) = (.seek .general_done, c₂) :=
        Forward.exec_seek (by cases need_frac <;> rfl) c₂
      rw [hunpack, hsplit, hb, hskip]
      rfl
    · rwa [Nat.max_eq_left (show 1 ≤ e by omega)]

/-- The integer store of a slot is the reference, whatever the slot
holds. -/
theorem slot_to_int_exact
    (h : [31, Xbase, Xslot, Xint, Xm, Wx, We].Nodup)
    (round : NativeIntRound) (bits : IntBits) :
    ((run (emit_f80_slot_to_int Xbase Xslot Xint Xm Wx We round bits)
        c).reg Xint).setWidth bits.width
      = (slotOf c Xslot).storedInt bits.width
        (round.mode (Fist.controlWord c Xbase)) := by
  obtain ⟨hbase, h'⟩ := sublist_apart h
  have hint : Xint ≠ 31 := by
    rintro rfl
    simp at h
  have hwidth : 0 < bits.width ∧ bits.width ≤ 64 := by
    cases bits <;> decide
  have hc := slotAt c Xslot
  generalize slotOf c Xslot = x at *
  suffices hrun : ∃ c', Cpu.exec
      (emit_f80_slot_to_int Xbase Xslot Xint Xm Wx We round bits) (.on, c)
        = (.on, c')
      ∧ (c'.reg Xint).setWidth bits.width = x.storedInt bits.width
        (round.mode (Fist.controlWord c Xbase)) by
    obtain ⟨c', hexec, hstored⟩ := hrun
    rw [← hstored]
    exact congrArg (fun r => (r.2.reg Xint).setWidth bits.width) hexec
  cases hun : x.unsupported with
  | true =>
      obtain ⟨hlt, hne⟩ : x.m < 2 ^ 63 ∧ x.exponent ≠ 0 := by
        simpa [Extended.unsupported] using hun
      obtain ⟨c₁, hunpack⟩ := unpack_unsupported h' hc hlt hne
      obtain ⟨c₂, hrest, hstored⟩ :=
        @rest_indef c₁ Xbase Xslot Xint Xm Wx We hint round bits
      refine ⟨c₂, ?_, ?_⟩
      · rw [slot_code, Cpu.exec_append, hunpack, hrest]
      · rw [hstored, Extended.storedInt_unsupported _ _ hun]
  | false =>
      rcases Nat.lt_or_ge x.exponent 16446 with he | he
      · obtain ⟨c₁, hsplit, hs, hcw⟩ := rest_number h hc
          (Extended.supported hun) he (round ≠ .kChop)
        obtain ⟨c₂, htail, hstored⟩ := run_tail h round bits hcw
          Extended.m_lt Extended.neg_lt Extended.exponent_lt
          (show 0 < 16446 - max x.exponent 1 by omega) hs
        refine ⟨c₂, ?_, ?_⟩
        · have hcode : emit_f80_slot_to_int Xbase Xslot Xint Xm Wx We round
              bits = (slot_unpack Xslot Xint Xm Wx We
                ++ (slot_split Xint Xm We Xslot (round ≠ .kChop)
                ++ ([emit_b (.label .general_done), .bind .tiny]
                ++ (slot_tiny Xint Xm Xslot (round ≠ .kChop)
                ++ [.bind .general_done]))))
                ++ (round_integer Xbase Xint Xm Wx We Xslot round
                ++ slot_sign Xint Wx ++ slot_range Xint Xm bits) := by
            rw [slot_code]
            simp only [slot_rest, List.append_assoc]
          rw [hcode, Cpu.exec_append, hsplit, htail]
        · rw [hstored, Extended.storedInt_number _ _ hun he]
          rfl
      · have hm : 2 ^ 63 ≤ x.m := by
          rcases Extended.supported hun with hm | h0
          · exact hm
          · omega
        obtain ⟨c₁, hunpack⟩ := unpack_large h' hc hm he
        obtain ⟨c₂, hrest, hstored⟩ :=
          @rest_indef c₁ Xbase Xslot Xint Xm Wx We hint round bits
        refine ⟨c₂, ?_, ?_⟩
        · rw [slot_code, Cpu.exec_append, hunpack, hrest]
        · rw [hstored, Extended.storedInt_large hwidth.1 hwidth.2 _ hun he]

end

end F80

namespace F80

section
variable {c : Cpu} {Xbase Xslot Xint Xm Wx We addr : Nat}

theorem closed_slot_to_int (round : NativeIntRound) (bits : IntBits) :
    Forward.closed (emit_f80_slot_to_int Xbase Xslot Xint Xm Wx We round
      bits) = true := by
  cases round <;> cases bits <;> rfl

/-- Code that writes neither memory nor flags, and only some registers. -/
def Quiet (regs : List Nat) (code : Code) : Prop :=
  ∀ i, .insn i ∈ code → i.stores = false ∧ i.setsFlags = false
    ∧ ∀ r, i.dest = some r → r ∈ regs

theorem Quiet.append {regs : List Nat} {a b : Code} (ha : Quiet regs a)
    (hb : Quiet regs b) : Quiet regs (a ++ b) := by
  intro i hi
  rcases List.mem_append.mp hi with h | h
  · exact ha i h
  · exact hb i h

theorem quiet_round (round : NativeIntRound) :
    Quiet [Xslot, Xint, Xm, Wx, We]
      (round_integer Xbase Xint Xm Wx We Xslot round) := by
  have hnearest : Quiet [Xslot, Xint, Xm, Wx, We]
      (round_nearest Xint Xm Xslot) := by
    simp [Quiet, round_nearest, Cpu.Op.stores, Cpu.Op.setsFlags,
      Cpu.Op.dest]
  have hinc : Quiet [Xslot, Xint, Xm, Wx, We] (round_increment Xint) := by
    simp [Quiet, round_increment, Cpu.Op.stores, Cpu.Op.setsFlags,
      Cpu.Op.dest]
  have hcontrol : Quiet [Xslot, Xint, Xm, Wx, We] (round_control Xbase We) := by
    simp [Quiet, round_control, Cpu.Op.stores, Cpu.Op.setsFlags,
      Cpu.Op.dest]
  have hdirected : Quiet [Xslot, Xint, Xm, Wx, We]
      (round_directed Wx We Xslot) := by
    simp [Quiet, round_directed]
  cases round with
  | kChop => exact fun i hi => absurd hi (List.not_mem_nil)
  | kNearest => exact hnearest.append hinc
  | kControlWord =>
      exact ((hcontrol.append hnearest).append hdirected).append hinc

theorem quiet_slot_to_int (round : NativeIntRound) (bits : IntBits) :
    Quiet [Xslot, Xint, Xm, Wx, We]
      (emit_f80_slot_to_int Xbase Xslot Xint Xm Wx We round bits) := by
  have hunpack : Quiet [Xslot, Xint, Xm, Wx, We]
      (slot_unpack Xslot Xint Xm Wx We) := by
    simp [Quiet, slot_unpack, maskOp, Cpu.Op.stores, Cpu.Op.setsFlags,
      Cpu.Op.dest]
  have hsplit : ∀ f, Quiet [Xslot, Xint, Xm, Wx, We]
      (slot_split Xint Xm We Xslot f) := by
    intro f
    cases f <;>
      simp [Quiet, slot_split, Cpu.Op.stores, Cpu.Op.setsFlags,
      Cpu.Op.dest]
  have htiny : ∀ f, Quiet [Xslot, Xint, Xm, Wx, We]
      (slot_tiny Xint Xm Xslot f) := by
    intro f
    cases f <;>
      simp [Quiet, slot_tiny, maskOp, Cpu.Op.stores, Cpu.Op.setsFlags,
      Cpu.Op.dest]
  have hsign : Quiet [Xslot, Xint, Xm, Wx, We] (slot_sign Xint Wx) := by
    simp [Quiet, slot_sign, Cpu.Op.stores, Cpu.Op.setsFlags,
      Cpu.Op.dest]
  have hrange : Quiet [Xslot, Xint, Xm, Wx, We] (slot_range Xint Xm bits) := by
    cases bits <;>
      simp [Quiet, slot_range, Cpu.Op.stores, Cpu.Op.setsFlags,
      Cpu.Op.dest]
  have hjump : Quiet [Xslot, Xint, Xm, Wx, We]
      [emit_b (.label .general_done), .bind .tiny] := by
    simp [Quiet]
  have hdone : Quiet [Xslot, Xint, Xm, Wx, We] [.bind .general_done] := by
    simp [Quiet]
  exact ((((((hunpack.append (hsplit _)).append hjump).append
    (htiny _)).append hdone).append (quiet_round round)).append
    hsign).append hrange

/-- The native store writes the reference integer of the slot, and
nothing else, and leaves the flags alone. -/
theorem native_int_store_exact
    (h : [31, Xbase, Xslot, Xint, Xm, Wx, We].Nodup)
    (round : NativeIntRound) (bits : IntBits) {address : Code}
    (haddr : addr ≠ 31) (hclosed : Forward.closed address = true)
    (haddress : ∀ c, (run address c).mem = c.mem
      ∧ (run address c).flags = c.flags
      ∧ (run address c).reg Xint = c.reg Xint) :
    (run (emit_native_int_store Xbase Xslot Xint Xm Wx We round bits
        address addr) c).mem
      = c.mem.store
        ((run (emit_f80_slot_to_int Xbase Xslot Xint Xm Wx We round bits
          ++ address) c).reg addr) (2 ^ bits.store_size)
        (((slotOf c Xslot).storedInt bits.width
          (round.mode (Fist.controlWord c Xbase))).setWidth _)
      ∧ (run (emit_native_int_store Xbase Xslot Xint Xm Wx We round bits
        address addr) c).flags = c.flags := by
  have hstored := slot_to_int_exact (c := c) h round bits
  have hwidth : 8 * 2 ^ bits.store_size = bits.width := by
    cases bits <;> rfl
  have hstore : ∀ c : Cpu,
      run ([emit_str_imm bits.store_size Xint addr 0] : Code) c
        = c.setMem (c.mem.store (c.reg addr) (2 ^ bits.store_size)
          ((c.reg Xint).setWidth _)) := by
    intro c
    simp only [Cpu.run, Forward.run, emit_str_imm, Forward.exec_insn,
      Forward.exec_nil, step_str haddr, offset_zero]
  have hquiet := @quiet_slot_to_int Xbase Xslot Xint Xm Wx We round bits
  have hmem := run_mem (c := c) fun i hi => (hquiet i hi).1
  have hflags := run_flags (c := c) fun i hi => (hquiet i hi).2.1
  have hboth : Forward.closed (emit_f80_slot_to_int Xbase Xslot Xint Xm Wx
      We round bits ++ address) = true := by
    rw [Forward.closed_append (closed_slot_to_int round bits) hclosed]
  unfold emit_native_int_store
  rw [run_append hboth, hstore, mem_setMem, flags_setMem,
    run_append (closed_slot_to_int round bits), (haddress _).1,
    (haddress _).2.1, (haddress _).2.2, hmem, hflags, ← hstored]
  generalize run (emit_f80_slot_to_int Xbase Xslot Xint Xm Wx We round
    bits) c = c₁
  have hwhole : ((c₁.reg Xint).setWidth bits.width).setWidth
      (8 * 2 ^ bits.store_size)
      = (c₁.reg Xint).setWidth (8 * 2 ^ bits.store_size) :=
    BitVec.setWidth_setWidth_of_le _ (by omega)
  exact ⟨congrArg (Mem.store c.mem _ _) hwhole.symm, rfl⟩

end

/-- A machine whose base register is 0, with the control word there; a
slot at 256, where every other register points. -/
def storingSlot (cw : BitVec 16) (x : Extended) : Cpu where
  x r := if r = 0 then 0 else 256
  sp := 0
  mem := x.store (Mem.store (fun _ => 0) 0 2 cw) 256
  d _ := 0
  flags := ⟨false, false, false, false⟩
  flush := 0

/-- Rounding up, 32767.5 is out of 16 bits only once it is rounded, and
the indefinite is stored. -/
theorem native_int_store_overflow :
    (run (emit_native_int_store 0 1 2 3 4 5 .kControlWord .b16 [] 6)
        (storingSlot 0x0800 ⟨0xFFFF000000000000, 0x400D⟩)).mem
      = (storingSlot 0x0800 ⟨0xFFFF000000000000, 0x400D⟩).mem.store
        256 2 0x8000 := by
  have h := (@native_int_store_exact
    (storingSlot 0x0800 ⟨0xFFFF000000000000, 0x400D⟩) 0 1 2 3 4 5 6
    (by decide) .kControlWord .b16 [] (by decide) rfl
    (fun _ => ⟨rfl, rfl, rfl⟩)).1
  have haddr : (run (emit_f80_slot_to_int 0 1 2 3 4 5 .kControlWord .b16
      ++ []) (storingSlot 0x0800 ⟨0xFFFF000000000000, 0x400D⟩)).reg 6
      = 256 := by
    rw [List.append_nil]
    exact run_reg_of_ne fun i hi hdest =>
      absurd ((quiet_slot_to_int _ _ i hi).2.2 6 hdest) (by decide)
  have hval : (slotOf (storingSlot 0x0800 ⟨0xFFFF000000000000, 0x400D⟩)
        1).storedInt 16 (NativeIntRound.mode (Fist.controlWord
          (storingSlot 0x0800 ⟨0xFFFF000000000000, 0x400D⟩) 0)
          .kControlWord) = 0x8000 := by
    decide +kernel
  rw [haddr] at h
  rw [h, show (Extended.storedInt IntBits.b16.width _ _) = 0x8000
    from hval]
  rfl

end F80

end X87Sidecar
