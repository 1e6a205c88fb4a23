/-
Conversions between the 80-bit format of an x87 register and binary64 or
integers (`TranslatorX87F80.cpp`), instruction by instruction.

An 80-bit number is 64 bits of significand, the integer bit explicit at
the top, and a halfword of sign and exponent. Register numbers come from
the callers' allocators and are parameters. A label stands for a branch
that the source patches: it carries the name of the source's variable
and is bound where the source patches the branch.
-/
import X87Sidecar.Translate.Lines

namespace X87Sidecar.F80

open Lib Lib.Cpu Lines

/-- The branches that are patched, by the names the source keeps them
under. -/
inductive Label
  | integer_bit | exponent_zero | invalid_done | small_branch
  | special_branch | normal_done | tiny_branch | rounded_done | small_done
  | infinity
  | done_invalid | small | big | done_normal | tiny | exact | below_half
  | even_half | done_small | zero | zero_far | zero_low | exact_half
  | to_sign | done_tiny | finite | nan_done
  | zero_sub | inf_nan | done_sub | done_zero | done
  | j_set | to_indef | general_done | up_or_chop | down | to_rounded
  | to_inc | any_frac | positive | to_store
  | keep | quiet | empty | skip | to_quiet | to_done
  deriving DecidableEq, Repr

/-- Code with patched branches. -/
abbrev Code := List (Line Label)

-- ================================================ 80 bits to binary64

/-- `emit_f80_to_f64_convert`. -/
def emit_f80_to_f64_convert (Xmant Wexp Xsign Wd_aux Wd_tmp : Nat) :
    Code :=
  [emit_bitfield true .ubfm 15 15 Wexp Xsign,
   and_mask false Wexp Wexp 0x7FFF,
   -- the integer bit clear under a nonzero exponent: the default NaN
   emit_tbz true Xmant 63 (.label .integer_bit),
   emit_cbz false false Wexp (.label .exponent_zero),
   emit_movz true 3 0xfff8 Xmant,
   emit_b (.label .invalid_done),
   .bind .integer_bit,
   .bind .exponent_zero,
   -- small exponents
   emit_movz false 0 0x3c00 Wd_aux,
   emit_subs_reg false Wexp Wd_aux 31,
   emit_b_cond .ls (.label .small_branch),
   -- infinity and NaN
   emit_movz false 0 0x7fff Wd_aux,
   emit_subs_reg false Wexp Wd_aux 31,
   emit_b_cond .eq (.label .special_branch),
   -- half minus one plus the retained low bit, then 11 bits cut off
   emit_bitfield true .ubfm 11 11 Xmant Wd_aux,
   emit_add_imm true false false false 0x3ff Wd_aux Wd_aux,
   emit_add_sub_shifted_reg true false true .lsl Wd_aux 0 Xmant Xmant,
   emit_cset false .hs Wd_aux,
   emit_bitfield true .ubfm 11 63 Xmant Xmant,
   and_mask true Xmant Xmant 0x000FFFFFFFFFFFFF,
   -- the exponent, less 15360, with the carry
   emit_add_imm false true false true 4 Wexp Wd_tmp,
   emit_add_imm false false false false 0x400 Wd_tmp Wd_tmp,
   emit_add_sub_shifted_reg false false false .lsl Wd_aux 0 Wd_tmp Wd_tmp,
   -- beyond the range: infinity
   emit_add_imm false true true false 0x7ff Wd_tmp 31,
   emit_csel true Xmant 31 Xmant .hs,
   emit_movz false 0 0x7ff Wd_aux,
   emit_csel false Wd_tmp Wd_aux Wd_tmp .hs,
   emit_bitfield true .bfm 12 10 Wd_tmp Xmant,
   emit_bitfield true .bfm 1 0 Xsign Xmant,
   emit_b (.label .normal_done),
   .bind .small_branch,
   -- shifted by 15372 less the exponent
   emit_movz false 0 15372 Wd_tmp,
   emit_subs_reg false Wd_tmp Wexp Wd_tmp,
   emit_add_imm false true true false 64 Wd_tmp 31,
   emit_b_cond .hs (.label .tiny_branch),
   emit_add_sub_shifted_reg true true false .lsl Wd_tmp 0 31 Wd_aux,
   emit_lslv true Wd_aux Xmant Wd_aux,
   emit_lsrv Wd_tmp Xmant Xmant,
   emit_movz true 3 0x8000 Wexp,
   emit_subs_reg true Wd_aux Wexp 31,
   emit_cset false .hi Wd_tmp,
   emit_cset false .eq Wd_aux,
   emit_logical_shifted_reg true .and false .lsl Xmant 0 Wd_aux Wd_aux,
   emit_add_sub_shifted_reg true false false .lsl Wd_tmp 0 Xmant Xmant,
   emit_add_sub_shifted_reg true false false .lsl Wd_aux 0 Xmant Xmant,
   emit_b (.label .rounded_done),
   .bind .tiny_branch,
   emit_cset false .eq Wd_tmp,
   emit_movz true 3 0x8000 Wd_aux,
   emit_subs_reg true Xmant Wd_aux 31,
   emit_cset false .hi Xmant,
   emit_logical_shifted_reg true .and false .lsl Wd_tmp 0 Xmant Xmant,
   .bind .rounded_done,
   emit_bitfield true .bfm 1 0 Xsign Xmant,
   emit_b (.label .small_done),
   .bind .special_branch,
   emit_bitfield true .ubfm 63 62 Xmant Wd_aux,
   emit_bitfield true .ubfm 11 62 Xmant Xmant,
   emit_cbz true false Wd_aux (.label .infinity),
   orr_mask true Xmant Xmant 0x0008000000000000,
   .bind .infinity,
   emit_movz false 0 0x7ff Wd_tmp,
   emit_bitfield true .bfm 12 10 Wd_tmp Xmant,
   emit_bitfield true .bfm 1 0 Xsign Xmant,
   .bind .small_done,
   .bind .normal_done,
   .bind .invalid_done]

/-- The integer bit clear under a nonzero exponent. -/
def bits_invalid (Xm Wx Xt1 : Nat) : Code :=
  [emit_tbz true Xm 63 (.label .integer_bit),
   and_mask false Xt1 Wx 0x7fff,
   emit_cbz false false Xt1 (.label .exponent_zero),
   emit_movz true 3 0xfff8 Xm,
   emit_b (.label .done_invalid),
   .bind .integer_bit,
   .bind .exponent_zero]

/-- The exponent less 16384, then less 15361, and the ranges it is in. -/
def bits_range (Wx Xt1 Xt2 : Nat) : Code :=
  [and_mask false Xt1 Wx 0x7fff,
   emit_add_imm false true false true 4 Xt1 Xt1,
   emit_add_imm false false false false 1023 Xt1 Xt1,
   emit_tbz true Xt1 31 (.label .small),
   emit_add_imm false true false false 0x7fe Xt1 Xt2,
   emit_tbz false Xt2 31 (.label .big)]

/-- The significand cut at bit 11 and rounded. -/
def bits_round (Xm Wx Xt2 : Nat) (round_to_odd : Bool) : Code :=
  if round_to_odd then
    -- the lowest bit set when any of the 11 bits cut off is
    [and_mask false Wx Xm 0x7ff,
     emit_add_imm false false false false 0x7ff Wx Xt2,
     emit_bitfield true .ubfm 11 63 Xm Xm,
     emit_logical_shifted_reg true .orr false .lsr Xt2 11 Xm Xm]
  else
    -- the carry out of bit 11 is the increment
    [emit_bitfield true .ubfm 11 11 Xm Xt2,
     emit_add_imm false false false false 0x3ff Xt2 Xt2,
     and_mask false Wx Xm 0x7ff,
     emit_add_sub_shifted_reg false false false .lsl Wx 0 Xt2 Xt2,
     emit_bitfield true .ubfm 11 63 Xm Xm,
     emit_add_sub_shifted_reg true false false .lsr Xt2 11 Xm Xm]

/-- Sign and exponent in one word. -/
def bits_sign_exponent (Wx Xt1 Xt2 : Nat) : Code :=
  [emit_bitfield false .ubfm 15 15 Wx Xt2,
   emit_add_sub_shifted_reg false false false .lsl Xt2 11 Xt1 Xt1]

/-- The two put together. -/
def bits_assemble (Xm Xt1 : Nat) : Code :=
  [emit_add_sub_shifted_reg true false false .lsl Xt1 52 Xm Xm,
   emit_b (.label .done_normal)]

/-- The shift of a small number, 15372 less the exponent, and what it
shifts out. -/
def bits_shift (Xm Wx Xt1 Xt2 : Nat) : Code :=
  [.bind .small,
   emit_add_sub_shifted_reg false true false .lsl Xt1 0 31 Xt2,
   emit_add_imm false false false false 11 Xt2 Xt2,
   emit_bitfield false .ubfm 15 15 Wx Xt1,
   emit_add_imm false true false false 64 Xt2 Wx,
   emit_tbz false Wx 31 (.label .tiny),
   emit_add_sub_shifted_reg false true false .lsl Xt2 0 31 Wx,
   emit_lslv true Wx Xm Wx,
   emit_lsrv Xt2 Xm Xm]

/-- The rounding of a small number. -/
def bits_small (Xm Wx : Nat) (round_to_odd : Bool) : Code :=
  if round_to_odd then
    [emit_cbz true false Wx (.label .exact),
     orr_mask true Xm Xm 1,
     .bind .exact]
  else
    [emit_tbz false Wx 63 (.label .below_half),
     emit_bitfield true .ubfm 63 62 Wx Wx,
     emit_bitfield true .bfm 0 0 Xm Wx,
     emit_cbz true false Wx (.label .even_half),
     emit_add_imm true false false false 1 Xm Xm,
     .bind .below_half,
     .bind .even_half]

/-- The sign of a small number. -/
def bits_small_sign (Xm Xt1 : Nat) : Code :=
  [emit_logical_shifted_reg true .orr false .lsl Xt1 63 Xm Xm,
   emit_b (.label .done_small),
   .bind .tiny]

/-- The rounding of a number shifted out altogether. -/
def bits_tiny (Xm Wx : Nat) (round_to_odd : Bool) : Code :=
  if round_to_odd then
    [emit_cbz true false Xm (.label .zero),
     emit_movz true 0 1 Xm,
     .bind .zero]
  else
    [emit_cbz false true Wx (.label .zero_far),
     emit_tbz false Xm 63 (.label .zero_low),
     emit_bitfield true .ubfm 63 62 Xm Xm,
     emit_cbz true false Xm (.label .exact_half),
     emit_movz true 0 1 Xm,
     emit_b (.label .to_sign),
     .bind .zero_far,
     .bind .zero_low,
     emit_movz true 0 0 Xm,
     .bind .exact_half,
     .bind .to_sign]

/-- The sign of such a number. -/
def bits_tiny_sign (Xm Xt1 : Nat) : Code :=
  [emit_logical_shifted_reg true .orr false .lsl Xt1 63 Xm Xm,
   emit_b (.label .done_tiny)]

/-- Overflow, infinities and NaNs. -/
def bits_big (Xm Wx Xt2 : Nat) : Code :=
  [.bind .big,
   orr_mask false Xt2 Wx 0x8000,
   emit_add_imm false false false false 1 Xt2 Xt2,
   emit_tbz false Xt2 16 (.label .finite),
   emit_bitfield true .ubfm 63 62 Xm Xt2,
   emit_bitfield true .ubfm 11 62 Xm Xm,
   emit_cbz true false Xt2 (.label .infinity),
   orr_mask true Xm Xm (1 <<< 51),
   emit_b (.label .nan_done),
   .bind .finite,
   emit_movz true 0 0 Xm,
   .bind .infinity,
   .bind .nan_done,
   orr_mask true Xm Xm 0x7ff0000000000000,
   emit_bitfield false .ubfm 15 15 Wx Xt2,
   emit_logical_shifted_reg true .orr false .lsl Xt2 63 Xm Xm]

/-- Where the paths meet. -/
def bits_done : Code :=
  [.bind .done_normal,
   .bind .done_small,
   .bind .done_tiny,
   .bind .done_invalid]

/-- `emit_f80_bits_to_f64`. -/
def emit_f80_bits_to_f64 (Xm Wx Xt1 Xt2 : Nat) (round_to_odd : Bool) :
    Code :=
  bits_invalid Xm Wx Xt1 ++ bits_range Wx Xt1 Xt2
    ++ bits_sign_exponent Wx Xt1 Xt2
    ++ bits_round Xm Wx Xt2 round_to_odd
    ++ bits_assemble Xm Xt1
    ++ bits_shift Xm Wx Xt1 Xt2
    ++ bits_small Xm Wx round_to_odd
    ++ bits_small_sign Xm Xt1
    ++ bits_tiny Xm Wx round_to_odd
    ++ bits_tiny_sign Xm Xt1
    ++ bits_big Xm Wx Xt2
    ++ bits_done

-- ================================================ binary64 to 80 bits

/-- `emit_f64_to_f80`. Its branches count instructions. -/
def emit_f64_to_f80 (Xaddr_slot Dd_src Xbits Wexp Wd_tmp : Nat) : Code :=
  [emit_fmov_d_to_x Xbits Dd_src,
   emit_bitfield true .ubfm 52 62 Xbits Wexp,
   emit_bitfield true .ubfm 48 63 Xbits Wd_tmp,
   and_mask false Wd_tmp Wd_tmp 0x8000,
   emit_bitfield true .ubfm 53 52 Xbits Xbits,
   emit_cbz false false Wexp (.ahead 10),
   emit_add_imm false true true false 0x7FF Wexp 31,
   emit_b_cond .eq (.ahead 21),
   -- normal
   orr_mask true Xbits Xbits 0x8000000000000000,
   emit_add_imm false false false true 3 Wexp Wexp,
   emit_add_imm false false false false 0xC00 Wexp Wexp,
   emit_logical_shifted_reg false .orr false .lsl Wd_tmp 0 Wexp Wexp,
   emit_str_imm 3 Xbits Xaddr_slot 0,
   emit_str_imm 1 Wexp Xaddr_slot 4,
   emit_b (.ahead 18),
   -- zero or subnormal
   emit_cbz true false Xbits (.ahead 10),
   emit_clz Xbits Wexp,
   emit_lslv true Wexp Xbits Xbits,
   emit_add_sub_shifted_reg false true false .lsl Wexp 0 31 Wexp,
   emit_add_imm false false false true 3 Wexp Wexp,
   emit_add_imm false false false false 0xc01 Wexp Wexp,
   emit_logical_shifted_reg false .orr false .lsl Wd_tmp 0 Wexp Wexp,
   emit_str_imm 3 Xbits Xaddr_slot 0,
   emit_str_imm 1 Wexp Xaddr_slot 4,
   emit_b (.ahead 8),
   emit_str_imm 3 31 Xaddr_slot 0,
   emit_str_imm 1 Wd_tmp Xaddr_slot 4,
   emit_b (.ahead 5),
   -- infinity or NaN
   orr_mask true Xbits Xbits 0x8000000000000000,
   emit_str_imm 3 Xbits Xaddr_slot 0,
   orr_mask false Wexp Wd_tmp 0x7FFF,
   emit_str_imm 1 Wexp Xaddr_slot 4]

/-- `emit_f64_bits_to_f80`. -/
def emit_f64_bits_to_f80 (Xaddr Xb We Wt : Nat) : Code :=
  [emit_bitfield true .ubfm 52 62 Xb We,
   emit_bitfield true .ubfm 48 63 Xb Wt,
   and_mask false Wt Wt 0x8000,
   emit_bitfield true .ubfm 53 52 Xb Xb,
   emit_cbz false false We (.label .zero_sub),
   emit_add_imm false false false false 1 We We,
   emit_tbz true We 11 (.label .inf_nan),
   orr_mask true Xb Xb (1 <<< 63),
   emit_add_imm false false false true 3 We We,
   emit_add_imm false false false false 0xbff We We,
   emit_logical_shifted_reg false .orr false .lsl Wt 0 We We,
   emit_str_imm 3 Xb Xaddr 0,
   emit_str_imm 1 We Xaddr 4,
   emit_b (.label .done_normal),
   .bind .zero_sub,
   emit_cbz true false Xb (.label .zero),
   emit_clz Xb We,
   emit_lslv true We Xb Xb,
   emit_add_sub_shifted_reg false true false .lsl We 0 31 We,
   emit_add_imm false false false true 3 We We,
   emit_add_imm false false false false 0xc01 We We,
   emit_logical_shifted_reg false .orr false .lsl Wt 0 We We,
   emit_str_imm 3 Xb Xaddr 0,
   emit_str_imm 1 We Xaddr 4,
   emit_b (.label .done_sub),
   .bind .zero,
   emit_str_imm 3 31 Xaddr 0,
   emit_str_imm 1 Wt Xaddr 4,
   emit_b (.label .done_zero),
   .bind .inf_nan,
   orr_mask true Xb Xb (1 <<< 63),
   emit_str_imm 3 Xb Xaddr 0,
   orr_mask false We Wt 0x7fff,
   emit_str_imm 1 We Xaddr 4,
   .bind .done_normal,
   .bind .done_sub,
   .bind .done_zero]

-- ================================================ integers and 80 bits

/-- `emit_i64_to_f80_slot`. -/
def emit_i64_to_f80_slot (Xslot Xint Xs Xe : Nat) : Code :=
  [emit_bitfield true .sbfm 63 63 Xint Xs,
   emit_logical_shifted_reg true .eor false .lsl Xs 0 Xint Xint,
   emit_add_sub_shifted_reg true true false .lsl Xs 0 Xint Xint,
   emit_cbz true false Xint (.label .zero),
   emit_clz Xint Xe,
   emit_lslv true Xe Xint Xint,
   and_mask false Xs Xs 0x8000,
   -- 16446 does not fit one immediate
   emit_add_imm false false false true 4 Xs Xs,
   emit_add_imm false false false false 0x3e Xs Xs,
   emit_add_sub_shifted_reg false true false .lsl Xe 0 Xs Xe,
   emit_str_imm 3 Xint Xslot 0,
   emit_str_imm 1 Xe Xslot 4,
   emit_b (.label .done),
   .bind .zero,
   emit_str_imm 3 31 Xslot 0,
   emit_str_imm 1 31 Xslot 4,
   .bind .done]

/-- `NativeIntRound`. -/
inductive NativeIntRound
  | kChop | kNearest | kControlWord
  deriving DecidableEq, Repr

/-- The widths of an integer store. -/
inductive IntBits
  | b16 | b32 | b64
  deriving DecidableEq, Repr

/-- Their number of bits. -/
def IntBits.width : IntBits → Nat
  | .b16 => 16
  | .b32 => 32
  | .b64 => 64

/-- Both halves of the slot; the exponent, less 16446 past the check of
the integer bit, and the ranges it is in. -/
def slot_unpack (Xslot Xint Xm Wx We : Nat) : Code :=
  [emit_ldr_imm 3 Xm Xslot 0,
   emit_ldr_imm 1 Wx Xslot 4,
   and_mask false We Wx 0x7fff,
   emit_tbz true Xm 63 (.label .j_set),
   emit_cbz false true We (.label .to_indef),
   .bind .j_set,
   emit_add_imm false true false true 4 We We,
   emit_add_imm false true false false 0x3e We We,
   emit_tbz false We 31 (.label .to_indef),
   emit_add_imm false false false false 64 We Xint,
   emit_tbz true Xint 31 (.label .tiny)]

/-- The integer of a shifted significand, and the fraction where it
counts. -/
def slot_split (Xint Xm We Xf : Nat) (need_frac : Bool) : Code :=
  [emit_add_sub_shifted_reg false true false .lsl We 0 31 Xint,
   emit_add_imm false true false false 1 Xint Xint,
   emit_bitfield true .ubfm 1 63 Xm Xf,
   emit_lsrv Xint Xf Xint]
    ++ if need_frac then [emit_lslv true We Xm Xf] else []

/-- Integer 0, and a fraction that is below one half. -/
def slot_tiny (Xint Xm Xf : Nat) (need_frac : Bool) : Code :=
  (if need_frac then
    [emit_bitfield true .ubfm 1 63 Xm Xf,
     and_mask true Xint Xm 1,
     emit_logical_shifted_reg true .orr false .lsl Xint 0 Xf Xf]
  else []) ++ [emit_movz true 0 0 Xint]

/-- The control word decides which rounding is asked for. -/
def round_control (Xbase We : Nat) : Code :=
  [emit_ldr_imm 1 We Xbase 0,
   emit_tbz true We 11 (.label .up_or_chop),
   emit_tbz true We 10 (.label .down)]

/-- Nearest even: up when the fraction is above one half, or one half with
an odd integer. -/
def round_nearest (Xint Xm Xf : Nat) : Code :=
  [emit_tbz false Xf 63 (.label .to_rounded),
   emit_bitfield true .ubfm 63 62 Xf Xm,
   emit_cbz true true Xm (.label .to_inc),
   emit_tbz false Xint 0 (.label .to_rounded)]

/-- Up raises the magnitude of a positive number with a fraction, down
that of a negative one. -/
def round_directed (Wx We Xf : Nat) : Code :=
  [emit_b (.label .to_inc),
   .bind .up_or_chop,
   emit_tbz true We 10 (.label .to_rounded),
   emit_tbz true Wx 15 (.label .to_rounded),
   emit_b (.label .any_frac),
   .bind .down,
   emit_tbz false Wx 15 (.label .to_rounded),
   .bind .any_frac,
   emit_cbz true false Xf (.label .to_rounded)]

/-- The increment. -/
def round_increment (Xint : Nat) : Code :=
  [.bind .to_inc,
   emit_add_imm true false false false 1 Xint Xint,
   .bind .to_rounded]

/-- The rounding of the integer in `Xint` by the fraction in `Xf`. -/
def round_integer (Xbase Xint Xm Wx We Xf : Nat) :
    NativeIntRound → Code
  | .kChop => []
  | .kNearest => round_nearest Xint Xm Xf ++ round_increment Xint
  | .kControlWord =>
      round_control Xbase We ++ round_nearest Xint Xm Xf
        ++ round_directed Wx We Xf ++ round_increment Xint

/-- The sign. -/
def slot_sign (Xint Wx : Nat) : Code :=
  [emit_tbz false Wx 15 (.label .positive),
   emit_add_sub_shifted_reg true true false .lsl Xint 0 31 Xint,
   .bind .positive]

/-- The range of the destination and the indefinite. For 64 bits the
magnitude is at most `2 ^ 63`, whose pattern is the indefinite. -/
def slot_range (Xint Xm : Nat) : IntBits → Code
  | .b16 =>
      [emit_add_sub_ext_reg true true 16 Xint Xint Xm,
       emit_cbz true false Xm (.label .to_store),
       .bind .to_indef,
       emit_movz false 0 0x8000 Xint,
       .bind .to_store]
  | .b32 =>
      [emit_add_sub_ext_reg true true 32 Xint Xint Xm,
       emit_cbz true false Xm (.label .to_store),
       .bind .to_indef,
       emit_movz false 1 0x8000 Xint,
       .bind .to_store]
  | .b64 =>
      [emit_b (.label .to_store),
       .bind .to_indef,
       emit_movz true 3 0x8000 Xint,
       .bind .to_store]

/-- `emit_f80_slot_to_int`. The register of the slot's address takes the
fraction once both halves are loaded. -/
def emit_f80_slot_to_int (Xbase Xslot Xint Xm Wx We : Nat)
    (round : NativeIntRound) (bits : IntBits) : Code :=
  let need_frac := round ≠ .kChop
  slot_unpack Xslot Xint Xm Wx We
    ++ slot_split Xint Xm We Xslot need_frac
    ++ [emit_b (.label .general_done), .bind .tiny]
    ++ slot_tiny Xint Xm Xslot need_frac
    ++ [.bind .general_done]
    ++ round_integer Xbase Xint Xm Wx We Xslot round
    ++ slot_sign Xint Wx
    ++ slot_range Xint Xm bits

/-- The size of the store, as a power of two of bytes. -/
def IntBits.store_size : IntBits → Nat
  | .b16 => 1
  | .b32 => 2
  | .b64 => 3

/-- `translate_int_store_native`, behind the address of the slot.
`compute_operand_address` emits `address`, which leaves the address of the
operand in `addr`. -/
def emit_native_int_store (Xbase Xslot Xint Xm Wx We : Nat)
    (round : NativeIntRound) (bits : IntBits) (address : Code)
    (addr : Nat) : Code :=
  emit_f80_slot_to_int Xbase Xslot Xint Xm Wx We round bits
    ++ address ++ [emit_str_imm bits.store_size Xint addr 0]

end X87Sidecar.F80
