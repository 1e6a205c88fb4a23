/-
A loaded immediate is the value asked for.

Three encodings may be tried: a logical immediate of the width
(`is_bitmask_immediate_decodes`), one of 32 bits that the W form
zero-extends, and a first move with the remaining chunks moved in one by
one (`moveChunks_run`).
-/
import X87Sidecar.Lib.Ones
import X87Sidecar.Translate.Assembler
import Mathlib.Tactic.IntervalCases

namespace X87Sidecar

open Lib

namespace Asm

-- ==================================================== counting zeros

theorem ctz_eq {v k : Nat} (hk : k < 64) (h : v.testBit k = true)
    (hlow : ∀ i < k, v.testBit i = false) : ctz v = k := by
  have hfind : (List.range 64).find? (fun i => v.testBit i) = some k := by
    rw [List.find?_range_eq_some]
    refine ⟨h, List.mem_range.mpr hk, fun i hi => ?_⟩
    simp [hlow i hi]
  rw [ctz, hfind]
  rfl

theorem ctz_ones {lo hi x : Nat} (h : Ones lo hi x) (hlt : lo < hi)
    (hhi : hi ≤ 64) : ctz x = lo := by
  refine ctz_eq (by omega) ?_ fun i hi' => ?_
  · rw [h, decide_eq_true_iff]
    omega
  · rw [h, decide_eq_false_iff_not]
    omega

/-- The length of a run that starts at its lowest bit. -/
theorem ctz_not_ones {lo hi x : Nat} (h : Ones lo hi x) (hlt : lo < hi)
    (hhi : hi - lo < 64) :
    ctz ((2 ^ 64 - 1) ^^^ (x >>> lo)) = hi - lo := by
  have hbit : ∀ i < 64, ((2 ^ 64 - 1) ^^^ (x >>> lo)).testBit i
      = !decide (i < hi - lo) := by
    intro i hi'
    rw [Nat.testBit_xor, Nat.testBit_two_pow_sub_one,
      Nat.testBit_shiftRight, h, decide_eq_true hi', Bool.true_xor]
    congr 1
    apply decide_eq_decide.mpr
    omega
  refine ctz_eq hhi ?_ fun i hi' => ?_
  · rw [hbit _ hhi]
    simp
  · rw [hbit _ (by omega)]
    simp [hi']

theorem clz_ones {lo hi x : Nat} (h : Ones lo hi x) (hlt : lo < hi)
    (hhi : hi ≤ 64) : clz x = 64 - hi := by
  have hx : x ≠ 0 := by
    rintro rfl
    have := h lo
    rw [Nat.zero_testBit, eq_comm, decide_eq_false_iff_not] at this
    omega
  have hlow : 2 ^ (hi - 1) ≤ x := by
    apply Nat.ge_two_pow_of_testBit
    rw [h, decide_eq_true_iff]
    omega
  have hlog : Nat.log2 x = hi - 1 := by
    rw [Nat.log2_eq_iff hx]
    refine ⟨hlow, ?_⟩
    rw [Nat.sub_add_cancel (by omega)]
    exact h.lt (Nat.le_refl _)
  rw [clz, hlog]
  omega

-- =================================================== the element size

/-- The element found is repeated, and its size is a power of two that is
no larger than the size it was searched from. -/
theorem elementSize_spec {w v : Nat} (fuel : Nat) {k : Nat}
    (h : Repeats w (2 ^ (k + 2)) v) :
    ∃ j ≤ k + 1, elementSize v fuel (2 ^ (k + 2)) = 2 ^ (j + 1)
      ∧ Repeats w (2 ^ (j + 1)) v := by
  induction fuel generalizing k with
  | zero => exact ⟨k + 1, Nat.le_refl _, rfl, h⟩
  | succ fuel ih =>
      have hhalf : 2 ^ (k + 2) / 2 = 2 ^ (k + 1) := by
        rw [Nat.pow_succ]
        exact Nat.mul_div_cancel _ (by decide)
      have hdouble : 2 ^ (k + 2) = 2 * 2 ^ (k + 1) := by
        rw [Nat.pow_succ, Nat.mul_comm]
      rw [elementSize, hhalf]
      split
      · exact ⟨k + 1, Nat.le_refl _, rfl, h⟩
      · next hsame =>
        have hr : Repeats w (2 ^ (k + 1)) v :=
          (hdouble ▸ h).halve (Decidable.not_not.mp hsame)
        split
        · next hlt =>
          have hk : k ≠ 0 := by
            rintro rfl
            simp at hlt
          obtain ⟨k, rfl⟩ := Nat.exists_eq_succ_of_ne_zero hk
          obtain ⟨j, hj, hes, hrj⟩ := ih hr
          exact ⟨j, by omega, hes, hrj⟩
        · exact ⟨k, by omega, rfl, hr⟩

-- ======================================================== the encoding

/-- What an encoded run decodes to. -/
theorem decode_encodeRun {j rotation run_len : Nat} (hj : j ≤ 5)
    (hpos : 0 < run_len) (hlen : run_len < 2 ^ (j + 1)) :
    Arm.decodeBitMask (encodeRun (2 ^ (j + 1)) rotation run_len).n
        (encodeRun (2 ^ (j + 1)) rotation run_len).immr
        (encodeRun (2 ^ (j + 1)) rotation run_len).imms
      = Arm.ofBits fun i =>
          (i + (2 ^ (j + 1) - rotation) % 2 ^ (j + 1)) % 2 ^ (j + 1)
            < run_len := by
  have hsize : ∀ j ≤ 5, ∀ r < 2 ^ (j + 1), r ≠ 0 →
      2 ^ Nat.log2 ((if (encodeRun (2 ^ (j + 1)) 0 r).n then 64 else 0)
          + (~~~(encodeRun (2 ^ (j + 1)) 0 r).imms).toNat) = 2 ^ (j + 1)
        ∧ (encodeRun (2 ^ (j + 1)) 0 r).imms.toNat % 2 ^ (j + 1)
          = r - 1 := by
    decide
  obtain ⟨hes, hs⟩ := hsize j hj run_len hlen (by omega)
  have hr : ((encodeRun (2 ^ (j + 1)) rotation run_len).immr.toNat)
      % 2 ^ (j + 1) = (2 ^ (j + 1) - rotation) % 2 ^ (j + 1) := by
    have hle : 2 ^ (j + 1) ≤ 2 ^ 6 :=
      Nat.pow_le_pow_right (by decide) (by omega)
    have hlt := Nat.mod_lt (2 ^ (j + 1) - rotation)
      (Nat.two_pow_pos (j + 1))
    simp only [encodeRun, Nat.and_two_pow_sub_one_eq_mod,
      BitVec.toNat_ofNat]
    rw [Nat.mod_eq_of_lt (a := _ % _) (b := 2 ^ 6) (by omega),
      Nat.mod_mod]
  unfold Arm.decodeBitMask
  dsimp only
  have hn : (encodeRun (2 ^ (j + 1)) rotation run_len).n
      = (encodeRun (2 ^ (j + 1)) 0 run_len).n := rfl
  have hi : (encodeRun (2 ^ (j + 1)) rotation run_len).imms
      = (encodeRun (2 ^ (j + 1)) 0 run_len).imms := rfl
  rw [hn, hi, hes, hs, hr]
  congr 1
  funext i
  apply decide_eq_decide.mpr
  omega

/-- The bits of a word that repeats its element. -/
theorem decoded_eq {is64 : Bool} {value : BitVec 64} {e w : Nat}
    {p : Nat → Bool} (hw : w = if is64 then 64 else 32)
    (hrep : Repeats w e (value.toNat % 2 ^ w))
    (hp : ∀ i < w, p i = ((value.toNat % 2 ^ w) % 2 ^ e).testBit (i % e))
    (he : 0 < e) :
    Arm.narrow is64 (Arm.ofBits p) = Arm.narrow is64 value := by
  have hbit : ∀ i < w, p i = value.getLsbD i := by
    intro i hi
    rw [hp i hi, Nat.testBit_mod_two_pow,
      decide_eq_true (Nat.mod_lt i he), Bool.true_and, ← hrep i hi,
      Nat.testBit_mod_two_pow, decide_eq_true hi, Bool.true_and]
    rfl
  apply BitVec.eq_of_getLsbD_eq
  intro i hi
  cases is64 with
  | true =>
      have h64 : w = 64 := hw
      show (Arm.ofBits p).getLsbD i = value.getLsbD i
      rw [Arm.getLsbD_ofBits p hi, hbit i (by omega)]
  | false =>
      have h32 : w = 32 := hw
      simp only [Arm.narrow, Bool.false_eq_true, if_false,
        BitVec.getLsbD_setWidth, hi, decide_true, Bool.true_and]
      by_cases hlt : i < 32
      · rw [Arm.getLsbD_ofBits p hi, hbit i (by omega)]
      · simp [hlt]

/-- A word whose element is all one bit is all that bit. -/
theorem constant_word {w e v : Nat} {b : Bool} (hrep : Repeats w e v)
    (hv : v < 2 ^ w) (he : 0 < e)
    (h : ∀ i < e, v.testBit i = b) :
    v = if b then 2 ^ w - 1 else 0 := by
  apply Nat.eq_of_testBit_eq
  intro i
  by_cases hi : i < w
  · rw [hrep i hi, h _ (Nat.mod_lt i he)]
    cases b <;> simp [hi]
  · have hle : 2 ^ w ≤ 2 ^ i := Nat.pow_le_pow_right (by decide) (by omega)
    rw [Nat.testBit_lt_two_pow (by omega)]
    cases b <;> simp [hi]

/-- What is found is a run of ones in an element of the width, and it
decodes to the value. -/
theorem is_bitmask_immediate_spec {is64 : Bool} {value : BitVec 64}
    {enc : LogicalImmEncoding}
    (h : is_bitmask_immediate is64 value = some enc) :
    ∃ j rotation run_len, 2 ^ (j + 1) ≤ (if is64 then 64 else 32)
      ∧ 0 < run_len ∧ run_len < 2 ^ (j + 1)
      ∧ enc = encodeRun (2 ^ (j + 1)) rotation run_len
      ∧ Arm.narrow is64 (Arm.decodeBitMask enc.n enc.immr enc.imms)
        = Arm.narrow is64 value := by
  unfold is_bitmask_immediate at h
  dsimp only at h
  generalize hw : (if is64 then 64 else 32) = w at h
  have hk : ∃ k, w = 2 ^ (k + 2) ∧ k ≤ 4 := by
    cases is64 with
    | true => exact ⟨4, hw.symm, by omega⟩
    | false => exact ⟨3, hw.symm, by omega⟩
  obtain ⟨k, hwk, hk4⟩ := hk
  rw [Option.ite_none_left_eq_some] at h
  obtain ⟨hmixed, h⟩ := h
  generalize hv : value.toNat % 2 ^ w = v at h hmixed
  have hvlt : v < 2 ^ w := hv ▸ Nat.mod_lt _ (Nat.two_pow_pos w)
  obtain ⟨j, hj, hes, hrep⟩ := elementSize_spec (w := w) 6
    (hwk ▸ Repeats.whole (2 ^ (k + 2)) v : Repeats w (2 ^ (k + 2)) v)
  rw [← hwk] at hes
  rw [hes] at h
  have hew : 2 ^ (j + 1) ≤ w := by
    rw [hwk]
    exact Nat.pow_le_pow_right (by decide) (by omega)
  generalize he : 2 ^ (j + 1) = e at h hrep hew
  have hepos : 0 < e := he ▸ Nat.two_pow_pos _
  have hele : e ≤ 64 := by
    rw [← he]
    exact Nat.pow_le_pow_right (n := 2) (by decide) (by omega : j + 1 ≤ 6)
  generalize helem : v % 2 ^ e = element at h
  have hlt : element < 2 ^ e := helem ▸ Nat.mod_lt _ (Nat.two_pow_pos e)
  -- the encoding of a run that the element's bits are
  have hencoded : ∀ {rotation run_len : Nat}, 0 < run_len → run_len < e →
      (∀ i < e, ((i + (e - rotation)) % e < run_len)
        ↔ element.testBit i = true) →
      ∃ j rotation' run_len', 2 ^ (j + 1) ≤ w ∧ 0 < run_len'
        ∧ run_len' < 2 ^ (j + 1)
        ∧ encodeRun e rotation run_len
          = encodeRun (2 ^ (j + 1)) rotation' run_len'
        ∧ Arm.narrow is64 (Arm.decodeBitMask
            (encodeRun e rotation run_len).n
            (encodeRun e rotation run_len).immr
            (encodeRun e rotation run_len).imms)
          = Arm.narrow is64 value := by
    intro rotation run_len hpos hlen hbits
    refine ⟨j, rotation, run_len, by omega, hpos, by omega, by rw [he],
      ?_⟩
    have hdec := @decode_encodeRun j rotation run_len
      (by omega) hpos (he.symm ▸ hlen)
    rw [he] at hdec
    rw [hdec]
    refine decoded_eq (e := e) hw.symm (hv.symm ▸ hrep) (fun i _ => ?_)
      hepos
    rw [hv, helem, Bool.eq_iff_iff, decide_eq_true_iff,
      ← hbits _ (Nat.mod_lt i hepos), Nat.add_mod_mod, Nat.mod_add_mod]
  have helt : ∀ i < e, element.testBit i = v.testBit i := by
    intro i hi
    rw [← helem, Nat.testBit_mod_two_pow, decide_eq_true hi,
      Bool.true_and]
  -- neither all zeros nor all ones
  have hboth : ∀ b, ∃ i < e, element.testBit i ≠ b := by
    intro b
    by_contra hall
    push Not at hall
    have hconst := constant_word hrep hvlt hepos
      (fun i hi => (helt i hi).symm.trans (hall i hi))
    apply hmixed
    have hpos := Nat.two_pow_pos w
    cases b with
    | true =>
        rw [hconst, if_pos rfl, Nat.sub_add_cancel hpos, Nat.mod_self]
        decide
    | false =>
        rw [hconst]
        show (0 + 1) % 2 ^ w < 2
        exact Nat.lt_of_le_of_lt (Nat.mod_le _ _) (by decide)
  split at h
  · next hones =>
    cases h
    obtain ⟨lo, hi, hlohi, hhi, hrun⟩ := ones_of_filled hones.1 hlt
      (of_decide_eq_true hones.2)
    obtain ⟨i, hie, hzero⟩ := hboth true
    rw [hrun i, ne_eq, decide_eq_true_iff] at hzero
    rw [ctz_ones hrun hlohi (by omega),
      ctz_not_ones hrun hlohi (by omega)]
    refine hencoded (by omega) (by omega) fun i hi' => ?_
    rw [rotated_run (by omega) hi', hrun i, decide_eq_true_iff]
    omega
  · rw [Option.ite_none_left_eq_some] at h
    obtain ⟨hzeros, h⟩ := h
    cases h
    simp only [not_or, Bool.not_eq_true', Bool.not_eq_false] at hzeros
    generalize hz : (2 ^ e - 1) ^^^ element = zeros at hzeros ⊢
    have hzlt : zeros < 2 ^ e := by
      rw [← hz]
      exact Nat.xor_lt_two_pow (by omega) hlt
    obtain ⟨lo, hi, hlohi, hhi, hrun⟩ := ones_of_filled hzeros.1 hzlt
      (of_decide_eq_true hzeros.2)
    have hbit : ∀ i < e, element.testBit i
        = !decide (lo ≤ i ∧ i < hi) := by
      intro i hie
      rw [← hrun i, ← hz, Nat.testBit_xor, Nat.testBit_two_pow_sub_one,
        decide_eq_true hie, Bool.true_xor, Bool.not_not]
    obtain ⟨i, hie, hone⟩ := hboth false
    rw [hbit i hie] at hone
    have hgap : ¬ (lo ≤ i ∧ i < hi) := by simpa using hone
    rw [clz_ones hrun hlohi (by omega), ctz_ones hrun hlohi (by omega),
      show 64 - (64 - hi) = hi by omega,
      show 64 - hi + lo - (64 - e) = e - (hi - lo) by omega]
    refine hencoded (by omega) (by omega) fun i hie => ?_
    rw [rotated_gap hlohi hhi hie, hbit i hie, Bool.not_eq_true',
      decide_eq_false_iff_not]

/-- An encoding decodes to the value. -/
theorem is_bitmask_immediate_decodes {is64 : Bool} {value : BitVec 64}
    {enc : LogicalImmEncoding}
    (h : is_bitmask_immediate is64 value = some enc) :
    Arm.narrow is64 (Arm.decodeBitMask enc.n enc.immr enc.imms)
      = Arm.narrow is64 value := by
  obtain ⟨_, _, _, _, _, _, _, hdec⟩ := is_bitmask_immediate_spec h
  exact hdec

-- ======================================================= moved chunks

/-- A value is its four chunks. -/
theorem eq_of_chunks {a b : BitVec 64}
    (h : ∀ i < 4, chunk a i = chunk b i) : a = b := by
  apply BitVec.eq_of_getLsbD_eq
  intro k hk
  have hc := congrArg (BitVec.getLsbD · (k % 16)) (h (k / 16) (by omega))
  simp only [chunk, BitVec.getLsbD_setWidth, BitVec.getLsbD_ushiftRight,
    Nat.mod_lt k (by decide : 16 > 0), decide_true, Bool.true_and] at hc
  rwa [show 16 * (k / 16) + k % 16 = k by omega] at hc

theorem getLsbD_chunk (v : BitVec 64) (i k : Nat) :
    (chunk v i).getLsbD k = (decide (k < 16) && v.getLsbD (16 * i + k)) := by
  simp [chunk]

/-- A chunk shifted into place. -/
theorem getLsbD_placed {hw i k : Nat} {imm16 : BitVec 16} (hi : i < 4)
    (hk : k < 16) :
    (imm16.setWidth 64 <<< (16 * hw)).getLsbD (16 * i + k)
      = (decide (i = hw) && imm16.getLsbD k) := by
  rw [BitVec.getLsbD_shiftLeft, BitVec.getLsbD_setWidth,
    decide_eq_true (by omega : 16 * i + k < 64), Bool.true_and]
  by_cases h : i = hw
  · subst h
    simp
    omega
  · rw [decide_eq_false h, Bool.false_and]
    by_cases hlt : 16 * i + k < 16 * hw
    · simp [hlt]
    · rw [BitVec.getLsbD_of_ge _ _ (by omega), Bool.and_false,
        Bool.and_false]

/-- The chunks of a move. -/
theorem chunk_moveWide {kind : Arm.MoveWide} {hw i : Nat}
    {imm16 : BitVec 16} {old : BitVec 64} (hhw : hw < 4) (hi : i < 4) :
    chunk (kind.eval (BitVec.ofNat 2 hw) imm16 old) i
      = match kind with
        | .movz => if i = hw then imm16 else 0
        | .movn => if i = hw then ~~~imm16 else 0xFFFF
        | .movk => if i = hw then imm16 else chunk old i := by
  have hto : (BitVec.ofNat 2 hw).toNat = hw := by
    rw [BitVec.toNat_ofNat, Nat.mod_eq_of_lt hhw]
  have hmask : 0xFFFF#64 = (0xFFFF#16).setWidth 64 := rfl
  have hones : ∀ k < 16, (0xFFFF#16).getLsbD k = true := by decide
  apply BitVec.eq_of_getLsbD_eq
  intro k hk
  have h64 : 16 * i + k < 64 := by omega
  cases kind with
  | movz =>
      dsimp only [Arm.MoveWide.eval]
      rw [getLsbD_chunk, decide_eq_true hk, Bool.true_and, hto,
        getLsbD_placed hi hk]
      by_cases h : i = hw <;> simp [h]
  | movn =>
      dsimp only [Arm.MoveWide.eval]
      rw [getLsbD_chunk, decide_eq_true hk, Bool.true_and, hto,
        BitVec.getLsbD_not, decide_eq_true h64, Bool.true_and,
        getLsbD_placed hi hk]
      by_cases h : i = hw
      · simp [h, hk]
      · simpa [h] using hones k hk
  | movk =>
      dsimp only [Arm.MoveWide.eval]
      rw [getLsbD_chunk, decide_eq_true hk, Bool.true_and, hto,
        BitVec.getLsbD_or, BitVec.getLsbD_and, BitVec.getLsbD_not,
        decide_eq_true h64, Bool.true_and, hmask, getLsbD_placed hi hk,
        getLsbD_placed hi hk]
      by_cases h : i = hw
      · simp [h, hones k hk]
      · simp only [h, decide_false, Bool.false_and, Bool.not_false,
          Bool.and_true, Bool.or_false, if_false]
        rw [getLsbD_chunk, decide_eq_true hk, Bool.true_and]

/-- In a W register only the low chunks are left. -/
theorem chunk_narrow {is64 : Bool} {v : BitVec 64} {i : Nat}
    (hi : i < 4) :
    chunk (Arm.narrow is64 v) i
      = if i < (if is64 then 4 else 2) then chunk v i else 0 := by
  cases is64 with
  | true => simp [Arm.narrow, hi]
  | false =>
      apply BitVec.eq_of_getLsbD_eq
      intro k hk
      simp only [Arm.narrow, Bool.false_eq_true, if_false]
      rw [getLsbD_chunk, BitVec.getLsbD_setWidth, BitVec.getLsbD_setWidth]
      by_cases h : i < 2
      · rw [if_pos h, getLsbD_chunk]
        simp only [hk, decide_true, Bool.true_and]
        rw [decide_eq_true (by omega), decide_eq_true (by omega),
          Bool.true_and, Bool.true_and]
      · rw [if_neg h, decide_eq_false (by omega : ¬ 16 * i + k < 32)]
        simp

theorem chunk_not {v : BitVec 64} {i : Nat} (hi : i < 4) :
    chunk (~~~v) i = ~~~(chunk v i) := by
  apply BitVec.eq_of_getLsbD_eq
  intro k hk
  rw [getLsbD_chunk, BitVec.getLsbD_not, BitVec.getLsbD_not,
    getLsbD_chunk]
  simp [hk, (by omega : 16 * i + k < 64)]

variable {is64 : Bool} {v : BitVec 64} {reg : Nat} {m : Arm.Machine}

/-- The remaining chunks are moved in from the top. Above `i` the
register is right already, below it holds what the first move left. -/
theorem movks_run {trivial : BitVec 16} {lo n i : Nat} (hreg : reg ≠ 31)
    (hn : n = if is64 then 4 else 2) (hi : i ≤ n)
    (hnarrow : Arm.narrow is64 (m.reg reg) = m.reg reg)
    (hdone : ∀ j < n, i ≤ j → chunk (m.reg reg) j = chunk v j)
    (hrest : ∀ j < i, chunk (m.reg reg) j = trivial)
    (hlo : ∀ j < n, j < lo → chunk v j = trivial) :
    Arm.run (movks is64 v trivial lo reg i) m
      = m.set reg (Arm.narrow is64 v) := by
  have hn4 : n ≤ 4 := by
    rw [hn]
    cases is64 <;> decide
  induction i generalizing m with
  | zero =>
      have hall : m.reg reg = Arm.narrow is64 v := by
        rw [← hnarrow]
        refine eq_of_chunks fun j hj => ?_
        rw [chunk_narrow hj, chunk_narrow hj, ← hn]
        split
        · next hjn => exact hdone j hjn (Nat.zero_le j)
        · rfl
      rw [← hall, Arm.set_reg_self]
      rfl
  | succ i ih =>
      rw [movks, Arm.run_append]
      split
      · -- chunk `i` is moved in
        have hi4 : i < 4 := by omega
        have hstep : Arm.run [.moveWide is64 .movk (BitVec.ofNat 2 i)
            (chunk v i) reg] m = m.set reg (Arm.narrow is64
              (Arm.MoveWide.movk.eval (BitVec.ofNat 2 i) (chunk v i)
                (m.reg reg))) := rfl
        have hchunk : ∀ j < n, chunk (Arm.narrow is64
            (Arm.MoveWide.movk.eval (BitVec.ofNat 2 i) (chunk v i)
              (m.reg reg))) j
            = if j = i then chunk v i else chunk (m.reg reg) j := by
          intro j hj
          rw [chunk_narrow (by omega), ← hn, if_pos hj,
            chunk_moveWide hi4 (by omega)]
        rw [hstep, ih (by omega), Arm.set_set]
        · rw [Arm.reg_set_self hreg, Arm.narrow_idem]
        · intro j hj hij
          rw [Arm.reg_set_self hreg, hchunk j hj]
          split
          · next h => rw [h]
          · exact hdone j hj (by omega)
        · intro j hj
          rw [Arm.reg_set_self hreg, hchunk j (by omega),
            if_neg (by omega)]
          exact hrest j (by omega)
      · next hskip =>
        -- it is what the first move left, or lies below all that is not
        have hv : chunk v i = trivial := by
          by_cases hlt : i < lo
          · exact hlo i (by omega) hlt
          · by_contra hne
            exact hskip ⟨Nat.not_lt.mp hlt, hne⟩
        rw [Arm.run_nil]
        refine ih (by omega) hnarrow (fun j hj hij => ?_)
          fun j hj => hrest j (by omega)
        by_cases hji : j = i
        · rw [hji, hrest i (by omega), hv]
        · exact hdone j hj (by omega)

/-- The first and the last of the indices that satisfy a test. -/
theorem filter_range_bounds (p : Nat → Bool) {n : Nat}
    (hn : n = 4 ∨ n = 2) :
    ((List.range n).filter p).getLastD 0 < n
      ∧ ∀ j < n, p j = true →
        ((List.range n).filter p).headD 0 ≤ j
          ∧ j ≤ ((List.range n).filter p).getLastD 0 := by
  have h4 : List.range 4 = [0, 1, 2, 3] := rfl
  have h2 : List.range 2 = [0, 1] := rfl
  rcases hn with rfl | rfl
  · rw [h4]
    cases h0 : p 0 <;> cases h1 : p 1 <;> cases h2 : p 2 <;>
      cases h3 : p 3 <;>
      simp only [List.filter, h0, h1, h2, h3] <;>
      refine ⟨by decide, fun j hj hp => ?_⟩ <;>
      interval_cases j <;> simp_all
  · rw [h2]
    cases h0 : p 0 <;> cases h1 : p 1 <;>
      simp only [List.filter, h0, h1] <;>
      refine ⟨by decide, fun j hj hp => ?_⟩ <;>
      interval_cases j <;> simp_all

/-- The moves make up the value. -/
theorem moveChunks_run (hreg : reg ≠ 31) :
    Arm.run (moveChunks is64 v reg) m
      = m.set reg (Arm.narrow is64 v) := by
  unfold moveChunks
  dsimp only
  generalize hn : (if is64 = true then 4 else 2) = n
  have hn42 : n = 4 ∨ n = 2 := by
    rw [← hn]
    cases is64
    · exact .inr rfl
    · exact .inl rfl
  generalize (List.range n).countP (fun i => decide (chunk v i = 0))
    = zeros
  generalize (List.range n).countP (fun i => decide (chunk v i = 0xFFFF))
    = ones
  generalize hw : (if ones ≤ zeros then v else ~~~v) = working
  generalize ht : (if ones ≤ zeros then (0 : BitVec 16) else 0xFFFF)
    = trivial
  obtain ⟨hhi, hbounds⟩ := filter_range_bounds
    (fun i => decide (chunk working i ≠ 0)) hn42
  generalize ((List.range n).filter fun i =>
    decide (chunk working i ≠ 0)).getLastD 0 = hi at *
  generalize ((List.range n).filter fun i =>
    decide (chunk working i ≠ 0)).headD 0 = lo at *
  have hn4 : n ≤ 4 := by omega
  -- a chunk that is zero in the complement is all ones
  have htrivial : ∀ j < n, chunk working j = 0 → chunk v j = trivial := by
    intro j hj h0
    rw [← hw] at h0
    rw [← ht]
    split
    · next h => rwa [if_pos h] at h0
    · next h =>
      rw [if_neg h, chunk_not (by omega)] at h0
      have := congrArg (~~~ ·) h0
      simpa using this
  have hfirst : ∀ j < n, chunk (Arm.narrow is64
      ((if ones ≤ zeros then Arm.MoveWide.movz else .movn).eval
        (BitVec.ofNat 2 hi) (chunk working hi) (m.reg reg))) j
      = if j = hi then chunk v hi else trivial := by
    intro j hj
    rw [chunk_narrow (by omega), hn, if_pos hj,
      chunk_moveWide (by omega) (by omega), ← ht, ← hw]
    by_cases h : ones ≤ zeros
    · simp [h]
    · simp [h, chunk_not (by omega : hi < 4)]
  rw [Arm.run_cons]
  have hstep : Arm.step m (.moveWide is64
      (if ones ≤ zeros then .movz else .movn) (BitVec.ofNat 2 hi)
      (chunk working hi) reg) = m.set reg (Arm.narrow is64
        ((if ones ≤ zeros then Arm.MoveWide.movz else .movn).eval
          (BitVec.ofNat 2 hi) (chunk working hi) (m.reg reg))) := rfl
  rw [hstep, movks_run hreg hn.symm (by omega), Arm.set_set]
  · rw [Arm.reg_set_self hreg, Arm.narrow_idem]
  · intro j hj hij
    rw [Arm.reg_set_self hreg, hfirst j hj]
    split
    · next h => rw [h]
    · next h =>
      refine (htrivial j hj ?_).symm
      by_contra hne
      have := (hbounds j hj (by simpa using hne)).2
      omega
  · intro j hj
    rw [Arm.reg_set_self hreg, hfirst j (by omega), if_neg (by omega)]
  · intro j hj hlo
    refine htrivial j hj ?_
    by_contra hne
    have := (hbounds j hj (by simpa using hne)).1
    omega

/-- So does whichever code is chosen. -/
theorem immediateCode_run (hreg : reg ≠ 31) :
    Arm.run (immediateCode is64 v reg) m
      = m.set reg (Arm.narrow is64 v) := by
  have horr : ∀ {w : Bool} {enc : LogicalImmEncoding},
      Arm.run [.orrImm w enc.n enc.immr enc.imms XZR reg] m
        = m.set reg (Arm.narrow w
            (Arm.decodeBitMask enc.n enc.immr enc.imms)) := by
    intro w enc
    have hzero : m.reg XZR = 0 := rfl
    rw [Arm.run_cons, Arm.run_nil, Arm.step, hzero,
      Arm.setSp_of_ne hreg]
    simp
  unfold immediateCode
  split
  · next enc henc => rw [horr, is_bitmask_immediate_decodes henc]
  · split
    · next enc henc =>
      rw [Option.ite_none_right_eq_some] at henc
      obtain ⟨hcond, henc⟩ := henc
      simp only [Bool.and_eq_true, decide_eq_true_iff] at hcond
      rw [horr, is_bitmask_immediate_decodes henc, hcond.1]
      congr 1
      apply Arm.narrow_of_lt
      intro _
      have hshift := congrArg BitVec.toNat hcond.2
      rw [BitVec.toNat_ushiftRight, Nat.shiftRight_eq_div_pow] at hshift
      have hv : v.toNat / 2 ^ 32 = 0 := hshift
      omega
    · exact moveChunks_run hreg

end Asm

end X87Sidecar
