/-
What a run acts on: guest registers and memory, the x87 control and
status words, the arithmetic flags, and the ordered effects a run has had
on them.

Both the reference machine (`Machine.Reference`) and the meaning of the
IR (`IR.Denote`) are defined over this state, with the same floating
point operations. Those are abstract: a value type `V` and one operation
per IR node that computes. Nothing below depends on what they compute.
-/
import X87Sidecar.IR.Instr
import X87Sidecar.Lib.Memory
import Mathlib.Tactic.IntervalCases

namespace X87Sidecar

open Lib

-- ====================================================== the status word

/-- The condition-code bits C0 to C3 that the translator writes: bits
10:8 and 14 (`emit_fcom_cc_write_sw`). -/
def ccMask : BitVec 16 := 0x4700

/-- Bits 13:11. -/
def topMask : BitVec 16 := 0x3800

/-- The TOP field. -/
def topOf (sw : BitVec 16) : BitVec 3 := sw.extractLsb' 11 3

/-- The status word with another TOP. -/
def withTop (sw : BitVec 16) (top : BitVec 3) : BitVec 16 :=
  (sw &&& ~~~topMask) ||| (top.setWidth 16 <<< 11)

/-- The status word with its condition codes replaced. -/
def withCC (sw cc : BitVec 16) : BitVec 16 :=
  (sw &&& ~~~ccMask) ||| (cc &&& ccMask)

/-- The condition codes. -/
def ccOf (sw : BitVec 16) : BitVec 16 := sw &&& ccMask

@[simp] theorem topOf_withTop (sw : BitVec 16) (t : BitVec 3) :
    topOf (withTop sw t) = t := by
  unfold topOf withTop topMask
  ext i hi
  simp
  interval_cases i <;> simp

@[simp] theorem withTop_topOf (sw : BitVec 16) :
    withTop sw (topOf sw) = sw := by
  unfold topOf withTop topMask
  ext i hi
  simp
  interval_cases i <;> simp

@[simp] theorem withTop_withTop (sw : BitVec 16) (t u : BitVec 3) :
    withTop (withTop sw t) u = withTop sw u := by
  unfold withTop topMask
  ext i hi
  simp
  interval_cases i <;> simp

@[simp] theorem topOf_withCC (sw cc : BitVec 16) :
    topOf (withCC sw cc) = topOf sw := by
  unfold topOf withCC ccMask
  ext i hi
  simp
  interval_cases i <;> simp

/-- The two fields are written independently. -/
theorem withTop_withCC (sw cc : BitVec 16) (t : BitVec 3) :
    withTop (withCC sw cc) t = withCC (withTop sw t) cc := by
  unfold withTop withCC ccMask topMask
  ext i hi
  simp
  interval_cases i <;> simp

@[simp] theorem withCC_withCC (sw c d : BitVec 16) :
    withCC (withCC sw c) d = withCC sw d := by
  unfold withCC ccMask
  ext i hi
  simp
  interval_cases i <;> simp

@[simp] theorem ccOf_withCC (sw cc : BitVec 16) :
    ccOf (withCC sw cc) = cc &&& ccMask := by
  unfold ccOf withCC ccMask
  ext i hi
  simp
  interval_cases i <;> simp

@[simp] theorem ccOf_withTop (sw : BitVec 16) (t : BitVec 3) :
    ccOf (withTop sw t) = ccOf sw := by
  unfold ccOf withTop ccMask topMask
  ext i hi
  simp
  interval_cases i <;> simp

/-- The outcome of a comparison. -/
inductive Cmp
  | lt | eq | gt | un
  deriving DecidableEq, Repr

/-- The packed condition codes of a comparison (`emit_fcom_cc_pack`). -/
def Cmp.cc : Cmp → BitVec 16
  | .lt => 0x0100
  | .eq => 0x4000
  | .gt => 0
  | .un => 0x4500

/-- The arithmetic flags that `fcomi` writes and `fcmov` reads. -/
structure Flags where
  zf : Bool
  pf : Bool
  cf : Bool
  deriving DecidableEq, Repr

/-- The flags of an `fcomi`. -/
def Cmp.flags : Cmp → Flags
  | .lt => ⟨false, false, true⟩
  | .eq => ⟨true, false, false⟩
  | .gt => ⟨false, false, false⟩
  | .un => ⟨true, true, true⟩

-- ========================================================== the guest

/-- An observable effect, in the order a run has them. -/
inductive Effect
  /-- `bytes` bytes written to memory -/
  | store (addr : BitVec 64) (bytes : Nat) (value : BitVec 64)
  /-- a guest register written -/
  | reg (r : Nat) (value : BitVec 64)
  /-- the control word written -/
  | controlWord (value : BitVec 16)
  deriving DecidableEq, Repr

/-- The guest state, x87 registers apart. `regs` is indexed by the low
nibble of an encoded register. -/
structure Guest where
  regs : Nat → BitVec 64
  mem : Mem 64
  cw : BitVec 16
  sw : BitVec 16
  flags : Flags
  trace : List Effect

namespace Guest

/-- The address an operand names, without a segment. An address size
other than 64 bits truncates to 32 (`compute_operand_address`). -/
def address (g : Guest) (op : IROperand) : BitVec 64 :=
  let a := match op.kind with
    | .memRef =>
        (if op.hasBase then g.regs (regIndex op.baseReg) else 0)
          + (if op.hasIndex then
               g.regs (regIndex op.indexReg) <<< op.shiftAmount.toNat
             else 0)
          + op.value
    | _ => op.value
  if op.reg = 3 then a else (a.setWidth 32).setWidth 64

/-- Read `n` bytes. -/
def read (g : Guest) (op : IROperand) (n : Nat) : BitVec (8 * n) :=
  g.mem.load (g.address op) n

/-- Write `n` bytes. -/
def write (g : Guest) (op : IROperand) (n : Nat) (v : BitVec (8 * n)) :
    Guest :=
  { g with
    mem := g.mem.store (g.address op) n v,
    trace := g.trace ++ [.store (g.address op) n (v.setWidth 64)] }

/-- Write a guest register. -/
def setReg (g : Guest) (r : Nat) (v : BitVec 64) : Guest :=
  { g with
    regs := Function.update g.regs r v,
    trace := g.trace ++ [.reg r v] }

/-- Write the low 16 bits of a guest register. -/
def setReg16 (g : Guest) (r : Nat) (v : BitVec 16) : Guest :=
  g.setReg r ((g.regs r &&& ~~~0xFFFF) ||| v.setWidth 64)

/-- Write the control word. -/
def setControlWord (g : Guest) (v : BitVec 16) : Guest :=
  { g with cw := v, trace := g.trace ++ [.controlWord v] }

/-- Write the condition codes. -/
def setCC (g : Guest) (cc : BitVec 16) : Guest :=
  { g with sw := withCC g.sw cc }

/-- The rounding-control field of the control word, bits 11:10. -/
def rc (g : Guest) : BitVec 2 := g.cw.extractLsb' 10 2

end Guest

-- ============================================= integer instructions

/-- A result of the given width in a 64-bit register: a 32-bit result
clears the upper half. -/
def truncReg (is64 : Bool) (v : BitVec 64) : BitVec 64 :=
  if is64 then v else (v.setWidth 32).setWidth 64

/-- `width` bits of a register from bit `lsb`, sign- or zero-extended. -/
def bitField (signed : Bool) (lsb width : Nat) (x : BitVec 64) :
    BitVec 64 :=
  let field := (x >>> lsb).setWidth width
  if signed then field.signExtend 64 else field.setWidth 64

/-- The five two-operand operations. -/
inductive AluKind
  | add | sub | and | or | xor
  deriving DecidableEq, Repr

/-- The value of an operation, before truncation to its width. -/
def AluKind.eval : AluKind → BitVec 64 → BitVec 64 → BitVec 64
  | .add, a, b => a + b
  | .sub, a, b => a - b
  | .and, a, b => a &&& b
  | .or, a, b => a ||| b
  | .xor, a, b => a ^^^ b

/-- The bytes of a 32- or 64-bit access. -/
def accessBytes (is64 : Bool) : Nat := if is64 then 8 else 4

namespace Guest

/-- A 32- or 64-bit load, zero-extended. -/
def readInt (g : Guest) (op : IROperand) (is64 : Bool) : BitVec 64 :=
  (g.read op (accessBytes is64)).setWidth 64

/-- A 32- or 64-bit store. -/
def writeInt (g : Guest) (op : IROperand) (is64 : Bool) (v : BitVec 64) :
    Guest :=
  g.write op (accessBytes is64) (v.setWidth _)

end Guest

-- ============================================ floating point operations

/-- The floating point operations, over any type of values. -/
structure Fp (V : Type) where
  ofF32 : BitVec 32 → V
  ofF64 : BitVec 64 → V
  ofI16 : BitVec 16 → V
  ofI32 : BitVec 32 → V
  ofI64 : BitVec 64 → V
  toF32 : V → BitVec 32
  toF64 : V → BitVec 64
  /-- conversion to a signed integer under a rounding-control value -/
  toI16 : BitVec 2 → V → BitVec 16
  toI32 : BitVec 2 → V → BitVec 32
  toI64 : BitVec 2 → V → BitVec 64
  zero : V
  one : V
  add : V → V → V
  sub : V → V → V
  mul : V → V → V
  div : V → V → V
  /-- `fma a b c` is `c + a * b` with one rounding -/
  fma : V → V → V → V
  /-- `c - a * b` -/
  fms : V → V → V → V
  /-- `a * b - c` -/
  fnms : V → V → V → V
  neg : V → V
  abs : V → V
  sqrt : V → V
  rndint : BitVec 2 → V → V
  sin : V → V
  cos : V → V
  tan : V → V
  /-- `patan y x` -/
  patan : V → V → V
  /-- `yl2x y x` is `y * log2 x` -/
  yl2x : V → V → V
  /-- `scale x n` -/
  scale : V → V → V
  cmp : V → V → Cmp

/-- The operations on values that carry nothing, every one of which
compares unordered: what is left of a run when its numbers are ignored. -/
def Fp.blank : Fp Unit where
  ofF32 _ := ()
  ofF64 _ := ()
  ofI16 _ := ()
  ofI32 _ := ()
  ofI64 _ := ()
  toF32 _ := 0
  toF64 _ := 0
  toI16 _ _ := 0
  toI32 _ _ := 0
  toI64 _ _ := 0
  zero := ()
  one := ()
  add _ _ := ()
  sub _ _ := ()
  mul _ _ := ()
  div _ _ := ()
  fma _ _ _ := ()
  fms _ _ _ := ()
  fnms _ _ _ := ()
  neg _ := ()
  abs _ := ()
  sqrt _ := ()
  rndint _ _ := ()
  sin _ := ()
  cos _ := ()
  tan _ := ()
  patan _ _ := ()
  yl2x _ _ := ()
  scale _ _ := ()
  cmp _ _ := .un

/-- A guest at rest. -/
def Guest.blank : Guest where
  regs _ := 0
  mem _ := 0
  cw := 0
  sw := 0
  flags := ⟨false, false, false⟩
  trace := []

/-- The rounding control that truncates, used by `fisttp` whatever the
control word says. -/
def rcTruncate : BitVec 2 := 3

end X87Sidecar
