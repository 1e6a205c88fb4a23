/-
The rounding control kept in a register (`X87IRLower.cpp`, `lower`).

Where at least two nodes round by the control word, its rounding control is
loaded by the first of them and kept (`Wd_rc_cached`); `fldcw` replaces it.
While it emits, `lower` carries whether the register has it
(`rc_cache_valid`). Without such a register every node loads the control
word itself, or does not look at it at all (`fast_round`).

Register numbers come from the allocators. The nodes that neither round nor
touch the control word are any code.
-/
import X87Sidecar.Lib.Emit
import X87Sidecar.Translate.Fist

namespace X87Sidecar.Fist

open Lib Lib.Cpu Lines

/-- `emit_fp_dp1` with an `FRINT`. -/
def emit_frint (mode : Rounding) (Dd Dn : Nat) : Line NoLabel :=
  .insn (.frint mode Dn Dd)

/-- The chain of `FRndInt`, which takes the rounding control in `Wd_rc`
apart. -/
def frint_chain (Dd Dn Wd_rc : Nat) : List (Line NoLabel) :=
  [emit_cbz false false Wd_rc (.ahead 7),
   emit_add_imm false true false false 1 Wd_rc Wd_rc,
   emit_cbz false false Wd_rc (.ahead 7),
   emit_add_imm false true false false 1 Wd_rc Wd_rc,
   emit_cbz false false Wd_rc (.ahead 7),
   -- 3, to zero
   emit_frint .chop Dd Dn,
   emit_b (.ahead 6),
   -- 0, to nearest
   emit_frint .nearest Dd Dn,
   emit_b (.ahead 4),
   -- 1, down
   emit_frint .down Dd Dn,
   emit_b (.ahead 2),
   -- 2, up
   emit_frint .up Dd Dn]

/-- `emit_frint_dispatch_cached`. -/
def emit_frint_dispatch_cached (Dd Dn Wd_rc_cached Wd_rc_scratch : Nat) :
    List (Line NoLabel) :=
  emit_mov_reg false Wd_rc_scratch Wd_rc_cached
    :: frint_chain Dd Dn Wd_rc_scratch

/-- What stays while a stretch is emitted. -/
structure RcFrame where
  Xbase : Nat
  Wd_tmp : Nat
  /-- the register the rounding control is kept in, where it is -/
  Wd_rc_cached : Option Nat
  fast_round : Bool
  /-- nothing is kept where nothing is looked at -/
  unused : fast_round = true → Wd_rc_cached = none

/-- How a node that rounds by the control word does it. -/
def RcFrame.how (s : RcFrame) (rc_cache_valid : Bool) : RoundBy :=
  match s.Wd_rc_cached with
  | some r => .cached r rc_cache_valid
  | none => .dispatch s.fast_round

/-- `lower`, `FRndInt`. -/
def emit_frndint (s : RcFrame) (rc_cache_valid : Bool)
    (Dd Dn Wd_rc : Nat) : List (Line NoLabel) :=
  match s.Wd_rc_cached with
  | some r =>
      (if rc_cache_valid then [] else emit_rc_preamble s.Xbase r)
        ++ emit_frint_dispatch_cached Dd Dn r s.Wd_tmp
  | none =>
      if s.fast_round then [emit_frint .nearest Dd Dn]
      else emit_rc_preamble s.Xbase Wd_rc ++ frint_chain Dd Dn Wd_rc

/-- `lower`, `StoreCW`, behind the address: the control word is written,
and its rounding control replaces the one that is kept. -/
def emit_store_cw (s : RcFrame) (addr Wd_cw : Nat) : List (Line NoLabel) :=
  [emit_ldr_imm 1 Wd_cw addr 0, emit_str_imm 1 Wd_cw s.Xbase 0]
    ++ s.Wd_rc_cached.toList.map fun r =>
      emit_bitfield false .ubfm 10 11 Wd_cw r

/-- A node of `lower`, as far as the rounding control goes. `address` is
what `compute_operand_address` emits and leaves the address in `addr`. -/
inductive RcNode
  /-- `StoreI16`, `StoreI32`, `StoreI64`; `kTruncate` for `FISTTP` -/
  | storeInt (truncate : Bool) (size : IntSize)
      (Wd_int Dd_val Xt Dscr : Nat) (address : List (Line NoLabel))
      (addr : Nat)
  /-- `FRndInt` -/
  | frndint (Dd Dn Wd_rc : Nat)
  /-- `StoreCW` -/
  | storeCw (Wd_cw : Nat) (address : List (Line NoLabel)) (addr : Nat)
  /-- any other node -/
  | other (code : List (Line NoLabel))

/-- How a node rounds, if it does. -/
def RcNode.how (s : RcFrame) (rc_cache_valid : Bool) : RcNode → RoundBy
  | .storeInt true .. => .truncate
  | _ => s.how rc_cache_valid

/-- The code of a node, and `rc_cache_valid` behind it. -/
def RcNode.emit (s : RcFrame) (n : RcNode) :
    Emit Bool (Line NoLabel) := fun rc_cache_valid =>
  match n with
  | .storeInt truncate size Wd_int Dd_val Xt Dscr address addr =>
      (rc_cache_valid || !truncate && s.Wd_rc_cached.isSome,
        emit_int_store (n.how s rc_cache_valid) size s.Xbase Wd_int Dd_val
          s.Wd_tmp Xt Dscr address addr)
  | .frndint Dd Dn Wd_rc =>
      (rc_cache_valid || s.Wd_rc_cached.isSome,
        emit_frndint s rc_cache_valid Dd Dn Wd_rc)
  | .storeCw Wd_cw address addr =>
      (s.Wd_rc_cached.isSome, address ++ emit_store_cw s addr Wd_cw)
  | .other code => (rc_cache_valid, code)

/-- A stretch of nodes. -/
def emitNodes (s : RcFrame) (nodes : List RcNode) :
    Emit Bool (Line NoLabel) :=
  Emit.all (nodes.map (RcNode.emit s))

end X87Sidecar.Fist
