/-
Entering and leaving the compact layout (`TranslatorX87F80.cpp`).

Rosetta keeps the physical slots as ten bytes each, from +6 on; the code of
a reply works on doubles from +8 on, eight bytes each. Both layouts are in
one place, and the conversions between them go slot by slot in place. The
control, status and tag words stand before both.

Register numbers come from the allocators and are parameters. A patched
branch counts the instructions up to where it was patched.
-/
import X87Sidecar.Translate.F80

namespace X87Sidecar.F80

open Lib Lib.Cpu Lines

-- ===================================================== patched branches

/-- `patch_forward` behind some code: a branch around it. -/
def patched (test : Test) (body : Code) : Code :=
  .branch test (.ahead (Forward.size body + 1)) :: body

-- ======================================================= the flush bits

/-- `FlushReg`: where the register of the flush bits has them. -/
structure FlushReg where
  ftz : Nat
  daz : Nat
  deriving DecidableEq, Repr

/-- `kFpcrReg` -/
def kFpcrReg : FlushReg := ⟨24, 0⟩

/-- `kAfpcrReg` -/
def kAfpcrReg : FlushReg := ⟨1, 0⟩

/-- `emit_mrs_flush` and `emit_msr_flush`. -/
@[simp] def emit_mrs_flush (Xd : Nat) : Line Label := .insn (.mrsFlush Xd)

@[simp] def emit_msr_flush (Xd : Nat) : Line Label := .insn (.msrFlush Xd)

/-- `emit_quiet_entry_test`. -/
def emit_quiet_entry_test (r : FlushReg) (Wtags1 Wfpcr Wquiet : Nat) :
    Code :=
  [emit_logical_shifted_reg false .and true .lsl Wfpcr
     (BitVec.ofNat 6 (16 - r.daz)) Wtags1 Wquiet,
   if 16 < r.ftz then
     emit_logical_shifted_reg false .and true .lsr Wfpcr
       (BitVec.ofNat 6 (r.ftz - 16)) Wquiet Wquiet
   else
     emit_logical_shifted_reg false .and true .lsl Wfpcr
       (BitVec.ofNat 6 (16 - r.ftz)) Wquiet Wquiet]

/-- A mask of all bits of a W register but one. -/
def allBut (bit : Nat) : BitVec 64 :=
  BitVec.ofNat 64 (2 ^ 32 - 1 - 2 ^ bit)

/-- The stash is written, both bits are cleared, and `.quiet` is left
out. -/
def fpcr_stash (r : FlushReg) (base Xfpcr Wbits : Nat)
    (stash : BitVec 12) : Code :=
  [emit_bitfield false .ubfm 31 30 Wbits Wbits,
   orr_mask false Wbits Wbits 1,
   emit_str_imm 1 Wbits base stash,
   and_mask false Xfpcr Xfpcr (allBut r.ftz),
   and_mask false Xfpcr Xfpcr (allBut r.daz),
   emit_msr_flush Xfpcr,
   emit_b (.ahead 2)]

/-- `emit_fpcr_enter_slow` and the `.quiet` behind it, which says that
there is nothing to restore. -/
def emit_fpcr_enter_slow (r : FlushReg) (base Xfpcr Wbits : Nat)
    (stash : BitVec 12) : Code :=
  [emit_mrs_flush Xfpcr,
   emit_bitfield false .ubfm (BitVec.ofNat 6 r.ftz) (BitVec.ofNat 6 r.ftz)
     Xfpcr Wbits,
   emit_bitfield false .bfm 31 0 Xfpcr Wbits]
    ++ patched (.cbz false false Wbits) (fpcr_stash r base Xfpcr Wbits stash)

/-- `.quiet` -/
def fpcr_quiet (base : Nat) (stash : BitVec 12) : Code :=
  [emit_str_imm 1 31 base stash]

/-- `emit_fpcr_restore`. -/
def emit_fpcr_restore (r : FlushReg) (Xfpcr Wstash : Nat) : Code :=
  [emit_mrs_flush Xfpcr,
   emit_bitfield false .ubfm 1 31 Wstash Wstash,
   emit_bitfield false .bfm (BitVec.ofNat 6 ((32 - r.ftz) % 32)) 0 Wstash
     Xfpcr,
   emit_bitfield false .ubfm 1 31 Wstash Wstash,
   emit_bitfield false .bfm (BitVec.ofNat 6 r.daz) 0 Wstash Xfpcr,
   emit_msr_flush Xfpcr]

/-- `kFpcrStashHalfword` -/
def kFpcrStashHalfword : BitVec 12 := 3

/-- `kNativeSlotsStashHalfword` -/
def kNativeSlotsStashHalfword : BitVec 12 := 43

/-- `emit_native_slots_fpcr_enter`, behind the base. -/
def emit_native_slots_fpcr_enter (r : FlushReg) (base fpcr bits : Nat) :
    Code :=
  emit_fpcr_enter_slow r base fpcr bits kNativeSlotsStashHalfword
    ++ fpcr_quiet base kNativeSlotsStashHalfword

/-- `emit_native_slots_fpcr_exit`, behind the base. -/
def emit_native_slots_fpcr_exit (r : FlushReg) (base fpcr stash : Nat) :
    Code :=
  [emit_ldr_imm 1 stash base kNativeSlotsStashHalfword]
    ++ patched (.cbz false false stash) (emit_fpcr_restore r fpcr stash)

-- ============================================================ the slots

/-- The tag of a slot, and whether it is empty in the flags. -/
def boundary_tag (base exp i : Nat) : Code :=
  [emit_ldr_imm 1 exp base 2,
   emit_bitfield false .ubfm (BitVec.ofNat 6 (2 * i))
     (BitVec.ofNat 6 (2 * i + 1)) exp exp,
   emit_add_imm false true true false 3 exp 31]

/-- One slot on the way in. -/
def boundary_enter_slot (base mant exp sign aux tmp i : Nat) : Code :=
  boundary_tag base exp i ++ patched (.cond .eq)
    ([emit_ldur 3 (BitVec.ofNat 9 (6 + 10 * i)) base mant,
      emit_ldr_imm 1 exp base (BitVec.ofNat 12 ((14 + 10 * i) / 2))]
      ++ emit_f80_to_f64_convert mant exp sign aux tmp
      ++ [emit_str_imm 3 mant base (BitVec.ofNat 12 (1 + i))])

/-- One slot on the way out. -/
def boundary_exit_slot (base mant exp sign tmp fp i : Nat) : Code :=
  boundary_tag base exp i ++ patched (.cond .eq)
    ([emit_add_imm true false false false (BitVec.ofNat 12 (6 + 10 * i))
        base sign,
      emit_fldr_imm fp base (BitVec.ofNat 12 (1 + i))]
      ++ emit_f64_to_f80 sign fp mant exp tmp)

/-- The conversion in, lowest slot first. -/
def boundary_enter_slots (base flags mant exp sign aux tmp : Nat) : Code :=
  [emit_mrs_nzcv flags]
    ++ (List.range 8).flatMap
      (boundary_enter_slot base mant exp sign aux tmp)
    ++ [emit_msr_nzcv flags]

/-- The conversion out, highest slot first. -/
def boundary_exit_slots (base flags mant exp sign tmp fp : Nat) : Code :=
  [emit_mrs_nzcv flags]
    ++ ((List.range 8).map (7 - ·)).flatMap
      (boundary_exit_slot base mant exp sign tmp fp)
    ++ [emit_msr_nzcv flags]

-- ========================================================= the boundary

/-- The tag word, plus one: bit 16 is set when every slot is empty. -/
def boundary_tags (base exp : Nat) : Code :=
  [emit_ldr_imm 1 exp base 2,
   emit_add_imm false false false false 1 exp exp]

/-- `emit_native_state_boundary`, entering, behind the base; without a
register of flush bits under `X87_IGNORE_FTZ_DAZ` off. -/
def emit_native_state_enter (flush : Option FlushReg)
    (base flags mant exp sign aux tmp : Nat) : Code :=
  match flush with
  | none =>
      boundary_tags base exp ++ patched (.tbz true exp 16)
        (boundary_enter_slots base flags mant exp sign aux tmp)
  | some r =>
      [emit_mrs_flush mant] ++ boundary_tags base exp
        ++ emit_quiet_entry_test r exp mant aux
        ++ patched (.tbz true aux 16)
          (patched (.tbz true exp 16)
            (boundary_enter_slots base flags mant exp sign aux tmp)
            ++ emit_fpcr_enter_slow r base mant sign kFpcrStashHalfword)
        ++ fpcr_quiet base kFpcrStashHalfword

/-- `emit_native_state_boundary`, leaving, behind the base. -/
def emit_native_state_exit (flush : Option FlushReg)
    (base flags mant exp sign aux tmp fp : Nat) : Code :=
  match flush with
  | none =>
      boundary_tags base exp ++ patched (.tbz true exp 16)
        (boundary_exit_slots base flags mant exp sign tmp fp)
  | some r =>
      [emit_ldr_imm 1 sign base kFpcrStashHalfword]
        ++ boundary_tags base exp
        ++ [emit_logical_shifted_reg false .and true .lsl sign 16 exp aux]
        ++ patched (.tbz true aux 16)
          (patched (.cbz false false sign) (emit_fpcr_restore r mant sign)
            ++ patched (.tbz true exp 16)
              (boundary_exit_slots base flags mant exp sign tmp fp))

end X87Sidecar.F80
