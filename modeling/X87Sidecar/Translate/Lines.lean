/-
The instruction emitters of `AssemblerHelpers.cpp` that code with branches
is written in, one line of code each.

They keep the source's names and the order of its arguments; a flag that
is 0 or 1 there is a `Bool` here, and a field that picks among
instructions is the type of what it picks. Encodings are left out: a line
is the instruction it encodes. A branch that the source emits with no
offset and patches once the target is reached names the target by a label;
one that it emits with its offset counts instructions.
-/
import X87Sidecar.Lib.Cpu
import X87Sidecar.Translate.Assembler

namespace X87Sidecar.Lines

open Lib Lib.Cpu

variable {L : Type}

/-- The `opc` of a bitfield move. -/
inductive BitfieldOp
  | sbfm | bfm | ubfm
  deriving DecidableEq, Repr

/-- `emit_add_imm`. -/
@[simp] def emit_add_imm (is_64bit is_sub is_set_flags shift : Bool)
    (imm12 : BitVec 12) (Rn Rd : Nat) : Line L :=
  .insn (if is_set_flags then .addSubImmS is_64bit is_sub shift imm12 Rn Rd
    else .base (.addSubImm is_64bit is_sub shift imm12 Rn Rd))

/-- `emit_bitfield`. `N` is `is_64bit` in every use. -/
@[simp] def emit_bitfield (is_64bit : Bool) (opc : BitfieldOp)
    (immr imms : BitVec 6) (Rn Rd : Nat) : Line L :=
  .insn (match opc with
    | .sbfm => .base (.bitfield is_64bit true immr imms Rn Rd)
    | .bfm => .bfm is_64bit immr imms Rn Rd
    | .ubfm => .base (.bitfield is_64bit false immr imms Rn Rd))

/-- `emit_movn` with the `opc` of `MOVZ`. -/
@[simp] def emit_movz (is_64bit : Bool) (hw : BitVec 2) (imm16 : BitVec 16)
    (Rd : Nat) : Line L :=
  .insn (.base (.moveWide is_64bit .movz hw imm16 Rd))

/-- `emit_movn` with the `opc` of `MOVN`. -/
@[simp] def emit_movn (is_64bit : Bool) (hw : BitVec 2) (imm16 : BitVec 16)
    (Rd : Nat) : Line L :=
  .insn (.base (.moveWide is_64bit .movn hw imm16 Rd))

/-- `emit_add_sub_shifted_reg`. -/
@[simp] def emit_add_sub_shifted_reg (is_64bit is_sub is_set_flags : Bool)
    (shift_type : Shift) (Rm : Nat) (shift_amount : BitVec 6)
    (Rn Rd : Nat) : Line L :=
  .insn (.addSubShifted is_64bit is_sub is_set_flags shift_type Rm
    shift_amount Rn Rd)

/-- `emit_subs_reg`. -/
@[simp] def emit_subs_reg (is_64bit : Bool) (Rn Rm Rd : Nat) : Line L :=
  emit_add_sub_shifted_reg is_64bit true true .lsl Rm 0 Rn Rd

/-- `emit_add_sub_ext_reg` with the `option` of `SXTH` or `SXTW`, `imm3`
0 and no flags. -/
@[simp] def emit_add_sub_ext_reg (is_64bit is_sub : Bool) (bits : Nat)
    (Rm Rn Rd : Nat) : Line L :=
  .insn (.addSubSigned is_64bit is_sub bits Rm Rn Rd)

/-- `emit_logical_shifted_reg`. -/
@[simp] def emit_logical_shifted_reg (is_64bit : Bool) (opc : Arm.Logical)
    (n : Bool) (shift_type : Shift) (Rm : Nat) (shift_amount : BitVec 6)
    (Rn Rd : Nat) : Line L :=
  .insn (.logical is_64bit opc n shift_type Rm shift_amount Rn Rd)

/-- `emit_mov_reg` of registers other than the stack pointer. -/
@[simp] def emit_mov_reg (is_64bit : Bool) (Rd Rn : Nat) : Line L :=
  emit_logical_shifted_reg is_64bit .orr false .lsl Rn 0 XZR Rd

/-- `emit_logical_imm`. -/
@[simp] def emit_logical_imm (is_64bit : Bool) (opc : Arm.Logical) (N : Bool)
    (immr imms : BitVec 6) (Rn Rd : Nat) : Line L :=
  .insn (.logicalImm is_64bit opc N immr imms Rn Rd)

/-- A logical instruction with the encoding of a mask. The source asserts
that the mask has one. -/
def maskOp (is_64bit : Bool) (opc : Arm.Logical) (Rd Rn : Nat)
    (mask : BitVec 64) : Cpu.Op :=
  let enc := (Asm.is_bitmask_immediate is_64bit mask).getD ⟨false, 0, 0⟩
  .logicalImm is_64bit opc enc.n enc.immr enc.imms Rn Rd

/-- `and_mask`, and `emit_and_imm` of an encoded mask. -/
@[simp] def and_mask (is_64bit : Bool) (Rd Rn : Nat) (mask : BitVec 64) :
    Line L :=
  .insn (maskOp is_64bit .and Rd Rn mask)

/-- `orr_mask`, and `emit_orr_imm` of an encoded mask. -/
@[simp] def orr_mask (is_64bit : Bool) (Rd Rn : Nat) (mask : BitVec 64) :
    Line L :=
  .insn (maskOp is_64bit .orr Rd Rn mask)

/-- `emit_lslv`. -/
@[simp] def emit_lslv (is_64bit : Bool) (Rm Rn Rd : Nat) : Line L :=
  .insn (.shiftBy is_64bit .lsl Rm Rn Rd)

/-- `LSRV` of X registers, which the source encodes in place. -/
@[simp] def emit_lsrv (Rm Rn Rd : Nat) : Line L :=
  .insn (.shiftBy true .lsr Rm Rn Rd)

/-- `CLZ` of X registers, which the source encodes in place. -/
@[simp] def emit_clz (Rn Rd : Nat) : Line L := .insn (.clz Rn Rd)

/-- `emit_csel`. -/
@[simp] def emit_csel (is_64bit : Bool) (Rd Rn Rm : Nat) (cond : Cond) :
    Line L :=
  .insn (.csel is_64bit cond Rm Rn Rd)

/-- `emit_csel_gpr`. -/
@[simp] def emit_csel_gpr (is_64bit : Bool) (Rd Rn Rm : Nat) (cond : Cond) :
    Line L :=
  emit_csel is_64bit Rd Rn Rm cond

/-- `emit_cset`. -/
@[simp] def emit_cset (is_64bit : Bool) (cond : Cond) (Rd : Nat) : Line L :=
  .insn (.cset is_64bit cond Rd)

/-- `emit_ldr_imm`, the loads among `emit_ldr_str_imm`. -/
@[simp] def emit_ldr_imm (size : Nat) (Rt Rn : Nat) (imm12 : BitVec 12) :
    Line L :=
  .insn (.ldr size imm12 Rn Rt)

/-- `emit_str_imm`. -/
@[simp] def emit_str_imm (size : Nat) (Rt Rn : Nat) (imm12 : BitVec 12) :
    Line L :=
  .insn (.str size imm12 Rn Rt)

/-- The loads among `emit_ldur_stur`. -/
@[simp] def emit_ldur (size : Nat) (simm9 : BitVec 9) (Rn Rt : Nat) : Line L :=
  .insn (.ldur size simm9 Rn Rt)

/-- `emit_fldr_imm` of a D register. -/
@[simp] def emit_fldr_imm (Dt Rn : Nat) (imm12 : BitVec 12) : Line L :=
  .insn (.ldrD imm12 Rn Dt)

/-- `emit_fmov_d_to_x`. -/
@[simp] def emit_fmov_d_to_x (Xd Dn : Nat) : Line L := .insn (.fmovDX Dn Xd)

/-- `emit_fmov_x_to_d`. -/
@[simp] def emit_fmov_x_to_d (Dd Xn : Nat) : Line L := .insn (.fmovXD Xn Dd)

/-- `emit_fmul_f64`. -/
@[simp] def emit_fmul_f64 (Dd Dn Dm : Nat) : Line L := .insn (.fmul Dm Dn Dd)

/-- `emit_fcmp_f64`. -/
@[simp] def emit_fcmp_f64 (Dn Dm : Nat) : Line L := .insn (.fcmp Dm Dn)

/-- `emit_fmov_f64_reg`. -/
@[simp] def emit_fmov_f64_reg (Dd Dn : Nat) : Line L := .insn (.fmovD Dn Dd)

/-- `emit_fcmeq_f64`. -/
@[simp] def emit_fcmeq_f64 (Dd Dn Dm : Nat) : Line L := .insn (.fcmeq Dm Dn Dd)

/-- `emit_fcvt_fp_to_int` from a D register; `rmode` 0 is to nearest, 1
up, 2 down and 3 to zero. -/
@[simp] def emit_fcvt_fp_to_int (sf : Bool) (rmode : Rounding) (Rd Rn : Nat) :
    Line L :=
  .insn (.fcvt sf rmode Rn Rd)

/-- `emit_fcvtzs` from a D register. -/
@[simp] def emit_fcvtzs (is_64bit_int : Bool) (Rd Rn : Nat) : Line L :=
  emit_fcvt_fp_to_int is_64bit_int .chop Rd Rn

/-- `emit_mrs_nzcv` and `emit_msr_nzcv`. -/
@[simp] def emit_mrs_nzcv (Xd : Nat) : Line L := .insn (.mrsNzcv Xd)

@[simp] def emit_msr_nzcv (Xd : Nat) : Line L := .insn (.msrNzcv Xd)

/-- `emit_cbz`: to a label, or so many instructions ahead. -/
@[simp] def emit_cbz (is_64bit is_nz : Bool) (Rt : Nat)
    (target : Forward.Target L) :
    Line L :=
  .branch (.cbz is_64bit is_nz Rt) target

/-- `emit_tbz` and `emit_tbnz`. -/
@[simp] def emit_tbz (is_nz : Bool) (Rt bit : Nat) (target : Forward.Target L) :
    Line L :=
  .branch (.tbz is_nz Rt bit) target

/-- `emit_b`. -/
@[simp] def emit_b (target : Forward.Target L) : Line L :=
  .branch .always target

/-- `emit_b_cond`. -/
@[simp] def emit_b_cond (cond : Cond) (target : Forward.Target L) : Line L :=
  .branch (.cond cond) target

/-- `emit_fcsel_f64`: a branch over a register move. -/
def emit_fcsel_f64 (Dd Dn Dm : Nat) (cond : Cond) : List (Line L) :=
  if Dd = Dm then
    [emit_b_cond cond.inv (.ahead 2), emit_fmov_f64_reg Dd Dn]
  else if Dd = Dn then
    [emit_b_cond cond (.ahead 2), emit_fmov_f64_reg Dd Dm]
  else
    [emit_fmov_f64_reg Dd Dm, emit_b_cond cond.inv (.ahead 2),
     emit_fmov_f64_reg Dd Dn]

end X87Sidecar.Lines
