/-
Integer stores from binary64 (`X87IRLower.cpp`, `TranslatorHelpers.cpp`):
the conversion in the rounding mode in force, the integer-indefinite guard
behind it and the store.

Register numbers come from the allocators and are parameters here. Every
branch counts its instructions, so the code has no labels.
-/
import X87Sidecar.Translate.Lines

namespace X87Sidecar.Fist

open Lib Lib.Cpu Lines

/-- No labels. -/
abbrev NoLabel := Empty

/-- `emit_rc_preamble`: the rounding control of the control word. -/
def emit_rc_preamble (Xbase Wd_out : Nat) : List (Line NoLabel) :=
  [emit_ldr_imm 1 Wd_out Xbase 0,
   emit_bitfield false .ubfm 10 11 Wd_out Wd_out]

/-- The chain of both dispatches, which takes the rounding control in
`Wd_rc` apart. -/
def rcmode_chain (Wd_int Dd_val : Nat) (is_64bit_int : Bool)
    (Wd_rc : Nat) : List (Line NoLabel) :=
  [emit_cbz false false Wd_rc (.ahead 7),
   emit_add_imm false true false false 1 Wd_rc Wd_rc,
   emit_cbz false false Wd_rc (.ahead 7),
   emit_add_imm false true false false 1 Wd_rc Wd_rc,
   emit_cbz false false Wd_rc (.ahead 7),
   -- 3, to zero
   emit_fcvt_fp_to_int is_64bit_int .chop Wd_int Dd_val,
   emit_b (.ahead 6),
   -- 0, to nearest
   emit_fcvt_fp_to_int is_64bit_int .nearest Wd_int Dd_val,
   emit_b (.ahead 4),
   -- 1, down
   emit_fcvt_fp_to_int is_64bit_int .down Wd_int Dd_val,
   emit_b (.ahead 2),
   -- 2, up
   emit_fcvt_fp_to_int is_64bit_int .up Wd_int Dd_val]

/-- `emit_rcmode_dispatch_cached`. -/
def emit_rcmode_dispatch_cached (Wd_int Dd_val : Nat)
    (is_64bit_int : Bool) (Wd_rc_cached Wd_rc_scratch : Nat) :
    List (Line NoLabel) :=
  emit_mov_reg false Wd_rc_scratch Wd_rc_cached
    :: rcmode_chain Wd_int Dd_val is_64bit_int Wd_rc_scratch

/-- `emit_rcmode_dispatch`. -/
def emit_rcmode_dispatch (Wd_int Dd_val : Nat) (is_64bit_int : Bool)
    (Xbase Wd_rc : Nat) (fast_round : Bool) : List (Line NoLabel) :=
  if fast_round then
    [emit_fcvt_fp_to_int is_64bit_int .nearest Wd_int Dd_val]
  else
    [emit_ldr_imm 1 Wd_rc Xbase 0,
     emit_bitfield false .ubfm 10 11 Wd_rc Wd_rc]
      ++ rcmode_chain Wd_int Dd_val is_64bit_int Wd_rc

/-- The destinations of an integer store. -/
inductive IntSize
  | s16 | s32 | s64
  deriving DecidableEq, Repr

/-- Bits. -/
def IntSize.bits : IntSize → Nat
  | .s16 => 16
  | .s32 => 32
  | .s64 => 64

/-- The size of the store, as a power of two of bytes. -/
def IntSize.store_size : IntSize → Nat
  | .s16 => 1
  | .s32 => 2
  | .s64 => 3

/-- The integer indefinite of the width, one instruction. -/
def emit_indefinite (size : IntSize) (Xd_int : Nat) : Line NoLabel :=
  match size with
  | .s16 => emit_movz false 0 0x8000 Xd_int
  | .s32 => emit_movz false 1 0x8000 Xd_int
  | .s64 => emit_movz true 3 0x8000 Xd_int

/-- `emit_fist_indefinite_guard`, with the scratch registers it
allocates. -/
def emit_fist_indefinite_guard (Xd_int Dd_val : Nat) (size : IntSize)
    (Xt Dscr : Nat) : List (Line NoLabel) :=
  [match size with
    | .s64 => emit_logical_imm true .eor true 0 62 Xd_int Xt
    | .s16 => emit_add_sub_ext_reg true true 16 Xd_int Xd_int Xt
    | .s32 => emit_add_sub_ext_reg true true 32 Xd_int Xd_int Xt,
   emit_cbz true false Xd_int (.ahead 4),
   -- S16 and S32 fit where the difference is 0; S64 is not the maximum
   -- where the difference is not
   emit_cbz true (size = .s64) Xt (.ahead 7),
   emit_indefinite size Xd_int,
   emit_b (.ahead 5),
   emit_fcmeq_f64 Dscr Dd_val Dd_val,
   emit_fmov_d_to_x Xt Dscr,
   emit_cbz true true Xt (.ahead 2),
   emit_indefinite size Xd_int]

/-- How an integer store rounds: `FISTTP` to zero, the others in the mode
in force, whose rounding control may be in a register already. -/
inductive RoundBy
  | truncate
  | cached (Wd_rc_cached : Nat) (rc_cache_valid : Bool)
  | dispatch (fast_round : Bool)
  deriving DecidableEq, Repr

/-- `lower`, `StoreI16`/`StoreI32`/`StoreI64` of a value in a register:
the conversion, to 64 bits whatever the destination. -/
def emit_conversion (how : RoundBy) (Xbase Wd_int Dd_val Wd_tmp : Nat) :
    List (Line NoLabel) :=
  match how with
  | .truncate => [emit_fcvt_fp_to_int true .chop Wd_int Dd_val]
  | .cached Wd_rc_cached rc_cache_valid =>
      (if rc_cache_valid then [] else emit_rc_preamble Xbase Wd_rc_cached)
        ++ emit_rcmode_dispatch_cached Wd_int Dd_val true Wd_rc_cached
          Wd_tmp
  | .dispatch fast_round =>
      emit_rcmode_dispatch Wd_int Dd_val true Xbase Wd_tmp fast_round

/-- The whole store. `compute_operand_address` emits `address`, which
leaves the address in `addr`. -/
def emit_int_store (how : RoundBy) (size : IntSize)
    (Xbase Wd_int Dd_val Wd_tmp Xt Dscr : Nat)
    (address : List (Line NoLabel)) (addr : Nat) : List (Line NoLabel) :=
  emit_conversion how Xbase Wd_int Dd_val Wd_tmp
    ++ emit_fist_indefinite_guard Wd_int Dd_val size Xt Dscr
    ++ address ++ [emit_str_imm size.store_size Wd_int addr 0]

end X87Sidecar.Fist
