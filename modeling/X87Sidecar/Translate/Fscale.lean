/-
`FSCALE` on binary64 (`TranslatorX87.cpp`): the number is multiplied by a
power of two in stages, so that only the last product can round.

The exponent is the second operand truncated to 32 bits, saturated. Two
conditional steps bring it to where a single factor has it, and a last
factor, 1 unless the second operand is infinite, makes the two invalid
operations. Register numbers come from the allocators and are parameters.
-/
import X87Sidecar.Translate.Lines

namespace X87Sidecar.Fscale

open Lib Lib.Cpu Lines

/-- Code without labels. -/
abbrev Code := List (Line Empty)

/-- One conditional step: beyond the range of a single factor, the number
is multiplied by `2 ^ 969` or `2 ^ -969` and the exponent brought as much
nearer. -/
def emit_step (Dx_in Wd_k Xm Xt Dd_m : Nat) : Code :=
  [emit_add_imm false true true false 1023 Wd_k 31,
   emit_movz true 3 0x3FF0 Xm,
   emit_movz true 3 0x7C80 Xt,
   emit_csel_gpr true Xm Xt Xm .gt,
   emit_add_imm false true false false 969 Wd_k Xt,
   emit_csel_gpr false Wd_k Xt Wd_k .gt,
   emit_add_imm false false true false 1022 Wd_k 31,
   emit_movz true 3 0x0360 Xt,
   emit_csel_gpr true Xm Xt Xm .lt,
   emit_add_imm false false false false 969 Wd_k Xt,
   emit_csel_gpr false Wd_k Xt Wd_k .lt,
   emit_fmov_x_to_d Dd_m Xm,
   emit_fmul_f64 Dx_in Dx_in Dd_m]

/-- The exponent clamped to the range of a single factor, and the product
with that factor. -/
def emit_last (Dx_in Wd_k Xm Xt Dd_m Dd_norm : Nat) : Code :=
  [emit_add_imm false true true false 1023 Wd_k 31,
   emit_movz false 0 1023 Xt,
   emit_csel_gpr false Wd_k Xt Wd_k .gt,
   emit_add_imm false false true false 1022 Wd_k 31,
   emit_movn false 0 1021 Xt,
   emit_csel_gpr false Wd_k Xt Wd_k .lt,
   -- the bits of the factor
   emit_add_imm false false false false 1023 Wd_k Xm,
   emit_bitfield true .ubfm 12 10 Xm Xm,
   emit_fmov_x_to_d Dd_m Xm,
   emit_fmul_f64 Dd_norm Dx_in Dd_m]

/-- The factor for an infinite second operand. -/
def emit_infinity (Dy_in Xm Xt Xf Dd_m Dd_norm : Nat) : Code :=
  [emit_fmov_d_to_x Xt Dy_in,
   emit_movz true 3 0x3FF0 Xf,
   emit_movz true 3 0x7FF0 Xm,
   emit_subs_reg true Xt Xm 31,
   emit_csel_gpr true Xf Xm Xf .eq,
   emit_movz true 3 0xFFF0 Xm,
   emit_subs_reg true Xt Xm 31,
   emit_csel_gpr true Xf 31 Xf .eq,
   emit_fmov_x_to_d Dd_m Xf,
   emit_fmul_f64 Dd_norm Dd_norm Dd_m]

/-- `emit_inline_fscale_core`; the result is in `Dd_norm`. -/
def emit_inline_fscale_core (Dx_in Dy_in Wd_k Xnzcv Xm Xt Xf Dd_m
    Dd_norm : Nat) : Code :=
  [emit_fcvtzs false Wd_k Dy_in, emit_mrs_nzcv Xnzcv]
    ++ emit_step Dx_in Wd_k Xm Xt Dd_m
    ++ emit_step Dx_in Wd_k Xm Xt Dd_m
    ++ emit_last Dx_in Wd_k Xm Xt Dd_m Dd_norm
    ++ emit_infinity Dy_in Xm Xt Xf Dd_m Dd_norm
    ++ emit_fcmp_f64 Dy_in Dy_in
      :: emit_fcsel_f64 Dd_norm Dy_in Dd_norm .vs
    ++ [emit_msr_nzcv Xnzcv]

end X87Sidecar.Fscale
