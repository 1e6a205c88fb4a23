/-
Following branching code whose registers hold known numbers.

A masked instruction works with its mask (`step_maskOp`), because the
encoding the assembler finds decodes to it. Registers that are told apart
are kept `Apart`, a form that arithmetic does not take apart, so that the
side conditions of `Lib.Word` see the numbers only.
-/
import X87Sidecar.Lib.Word
import X87Sidecar.Proofs.Translate.Immediate
import X87Sidecar.Translate.Lines

namespace X87Sidecar.Lines

open Lib Lib.Cpu Lib.Word

-- ============================================================== masks

/-- A logical instruction with an encoded mask works with the mask. -/
theorem step_maskOp {c : Cpu} {is64 : Bool} {op : Arm.Logical}
    {rd rn : Nat} {mask : BitVec 64}
    (hm : (Asm.is_bitmask_immediate is64 mask).isSome = true)
    (hd : rd ≠ 31) :
    step c (maskOp is64 op rd rn mask)
      = c.set rd (Arm.narrow is64 (op.eval (c.reg rn) mask)) := by
  obtain ⟨enc, henc⟩ := Option.isSome_iff_exists.mp hm
  have hdec := Asm.is_bitmask_immediate_decodes henc
  unfold maskOp
  dsimp only
  rw [henc, Option.getD_some, step_logicalImm hd,
    ← Arm.narrow_logical_right, hdec, Arm.narrow_logical_right]

/-- The masks of the conversions, by the width they are used at. -/
def masks : List (Bool × BitVec 64) :=
  [(false, 0x7fff), (false, 0x8000), (false, 0x7ff), (true, 1),
   (true, 0xFFFFFFFFFFFFF), (true, 0x8000000000000),
   (true, 0x7ff0000000000000), (true, 0x8000000000000000)]

/-- All of them can be encoded. -/
theorem masks_encode :
    ∀ m ∈ masks, (Asm.is_bitmask_immediate m.1 m.2).isSome = true :=
  List.all_eq_true.mp (by decide)

section
variable {c : Cpu} {op : Arm.Logical} {rd rn : Nat}

theorem step_mask {is64 : Bool} {mask : BitVec 64}
    (hm : (is64, mask) ∈ masks) (hd : rd ≠ 31) :
    step c (maskOp is64 op rd rn mask)
      = c.set rd (Arm.narrow is64 (op.eval (c.reg rn) mask)) :=
  step_maskOp (masks_encode _ hm) hd

/-- The mask of an exponent. -/
theorem step_mask_7fff (hd : rd ≠ 31) :
    step c (maskOp false op rd rn 0x7fff#64)
      = c.set rd (Arm.narrow false (op.eval (c.reg rn) 0x7fff#64)) :=
  step_mask (by simp [masks]) hd

/-- That of a sign above an exponent. -/
theorem step_mask_8000 (hd : rd ≠ 31) :
    step c (maskOp false op rd rn 0x8000#64)
      = c.set rd (Arm.narrow false (op.eval (c.reg rn) 0x8000#64)) :=
  step_mask (by simp [masks]) hd

/-- That of an exponent of binary64. -/
theorem step_mask_7ff (hd : rd ≠ 31) :
    step c (maskOp false op rd rn 0x7ff#64)
      = c.set rd (Arm.narrow false (op.eval (c.reg rn) 0x7ff#64)) :=
  step_mask (by simp [masks]) hd

/-- That of the lowest bit. -/
theorem step_mask_one (hd : rd ≠ 31) :
    step c (maskOp true op rd rn 1#64)
      = c.set rd (op.eval (c.reg rn) 1#64) :=
  step_mask (by simp [masks]) hd

/-- That of a fraction of binary64. -/
theorem step_mask_fraction (hd : rd ≠ 31) :
    step c (maskOp true op rd rn 0xFFFFFFFFFFFFF#64)
      = c.set rd (op.eval (c.reg rn) 0xFFFFFFFFFFFFF#64) :=
  step_mask (by simp [masks]) hd

/-- That of the quiet bit. -/
theorem step_mask_quiet (hd : rd ≠ 31) :
    step c (maskOp true op rd rn 0x8000000000000#64)
      = c.set rd (op.eval (c.reg rn) 0x8000000000000#64) :=
  step_mask (by simp [masks]) hd

/-- That of an infinity. -/
theorem step_mask_inf (hd : rd ≠ 31) :
    step c (maskOp true op rd rn 0x7ff0000000000000#64)
      = c.set rd (op.eval (c.reg rn) 0x7ff0000000000000#64) :=
  step_mask (by simp [masks]) hd

/-- That of a sign. -/
theorem step_mask_top (hd : rd ≠ 31) :
    step c (maskOp true op rd rn 0x8000000000000000#64)
      = c.set rd (op.eval (c.reg rn) 0x8000000000000000#64) :=
  step_mask (by simp [masks]) hd

end

-- ============================================================ registers

/-- Different registers. -/
def Apart (a b : Nat) : Prop := a ≠ b

theorem Apart.ne {a b : Nat} (h : Apart a b) : a ≠ b := h

/-- Registers of a list without repetition, the zero register first. -/
theorem apart_four {a b c d : Nat} (h : [31, a, b, c, d].Nodup) :
    (Apart a 31 ∧ Apart b 31 ∧ Apart c 31 ∧ Apart d 31)
      ∧ (Apart a b ∧ Apart a c ∧ Apart a d ∧ Apart b c ∧ Apart b d
        ∧ Apart c d)
      ∧ Apart b a ∧ Apart c a ∧ Apart d a ∧ Apart c b ∧ Apart d b
        ∧ Apart d c := by
  simp at h
  unfold Apart
  grind

/-- The same for five of them. -/
theorem apart_five {a b c d e : Nat} (h : [31, a, b, c, d, e].Nodup) :
    (Apart a 31 ∧ Apart b 31 ∧ Apart c 31 ∧ Apart d 31 ∧ Apart e 31)
      ∧ (Apart a b ∧ Apart a c ∧ Apart a d ∧ Apart a e ∧ Apart b c
        ∧ Apart b d ∧ Apart b e ∧ Apart c d ∧ Apart c e ∧ Apart d e)
      ∧ Apart b a ∧ Apart c a ∧ Apart d a ∧ Apart e a ∧ Apart c b
        ∧ Apart d b ∧ Apart e b ∧ Apart d c ∧ Apart e c ∧ Apart e d := by
  simp at h
  unfold Apart
  grind

end X87Sidecar.Lines
