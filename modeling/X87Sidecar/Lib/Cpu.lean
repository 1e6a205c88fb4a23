/-
AArch64 with condition flags, floating-point registers and branches.

What straight-line code does to the integer registers and memory is
`Lib.Arm`; here are the instructions that set or read flags, shift by a
register, select, count leading zeros, access less than a word or move
between the two register files, and the conditions of the branches. All
branches go forward (`Lib.Forward`), so code is one pass.

A floating-point register is its low 64 bits, which is all that binary64
code uses. Conversions and comparisons run with the default control
register; the register that holds the flush bits is kept beside it as a
word that code may read and write.
-/
import X87Sidecar.Lib.Arm
import X87Sidecar.Lib.Operations
import X87Sidecar.Lib.Forward

namespace X87Sidecar.Lib

-- ========================================================= the machine

/-- The condition flags. -/
structure Flags where
  n : Bool
  z : Bool
  c : Bool
  v : Bool
  deriving DecidableEq, Repr

/-- The integer machine, the floating-point registers, the flags and the
register that holds the flush bits. -/
structure Cpu extends Arm.Machine where
  d : Nat → BitVec 64
  flags : Flags
  flush : BitVec 64

namespace Cpu

/-- A register as most instructions read it. -/
def reg (c : Cpu) (r : Nat) : BitVec 64 := c.toMachine.reg r

/-- Write a register. -/
def set (c : Cpu) (r : Nat) (v : BitVec 64) : Cpu :=
  { c with toMachine := c.toMachine.set r v }

/-- Write a floating-point register. -/
def setD (c : Cpu) (r : Nat) (v : BitVec 64) : Cpu :=
  { c with d := Function.update c.d r v }

/-- Write the flags. -/
def setFlags (c : Cpu) (f : Flags) : Cpu := { c with flags := f }

/-- Write memory. -/
def setMem (c : Cpu) (m : Mem 64) : Cpu := { c with mem := m }

/-- Write the register of the flush bits. -/
def setFlush (c : Cpu) (v : BitVec 64) : Cpu := { c with flush := v }

-- ======================================================== instructions

/-- The shifts of a register operand. -/
inductive Shift
  | lsl | lsr
  deriving DecidableEq, Repr

/-- The conditions, those in use. `CS` is another name of `HS`. -/
inductive Cond
  | eq | hs | hi | lo | ls | gt | ge | lt | le | vs | vc | ne
  deriving DecidableEq, Repr

/-- The instructions. Operands stand in the order `Rm`, `Rn`, `Rd`. -/
inductive Op
  /-- an instruction without flags -/
  | base (i : Arm.Instr)
  /-- `ADDS`/`SUBS` (immediate) -/
  | addSubImmS (is64 sub shifted : Bool) (imm12 : BitVec 12)
      (rn rd : Nat)
  /-- `ADD`/`SUB`/`ADDS`/`SUBS` (shifted register) -/
  | addSubShifted (is64 sub setFlags : Bool) (shift : Shift) (rm : Nat)
      (amount : BitVec 6) (rn rd : Nat)
  /-- `ADD`/`SUB` (extended register), `SXTH` or `SXTW` -/
  | addSubSigned (is64 sub : Bool) (bits : Nat) (rm rn rd : Nat)
  /-- `AND`/`ORR`/`EOR` (shifted register), of the complement of `Rm`
  under `invert` -/
  | logical (is64 : Bool) (op : Arm.Logical) (invert : Bool)
      (shift : Shift) (rm : Nat) (amount : BitVec 6) (rn rd : Nat)
  /-- `AND`/`ORR`/`EOR` (immediate) -/
  | logicalImm (is64 : Bool) (op : Arm.Logical) (n : Bool)
      (immr imms : BitVec 6) (rn rd : Nat)
  /-- `BFM` -/
  | bfm (is64 : Bool) (immr imms : BitVec 6) (rn rd : Nat)
  /-- `CSEL`: `Rn` under the condition, else `Rm` -/
  | csel (is64 : Bool) (cond : Cond) (rm rn rd : Nat)
  /-- `CSET` -/
  | cset (is64 : Bool) (cond : Cond) (rd : Nat)
  /-- `CLZ` of an X register -/
  | clz (rn rd : Nat)
  /-- `LSLV`/`LSRV` -/
  | shiftBy (is64 : Bool) (shift : Shift) (rm rn rd : Nat)
  /-- `LDR` of `2 ^ size` bytes, the offset in units of the size -/
  | ldr (size : Nat) (imm12 : BitVec 12) (rn rt : Nat)
  /-- `STR` of `2 ^ size` bytes -/
  | str (size : Nat) (imm12 : BitVec 12) (rn rt : Nat)
  /-- `LDUR` of `2 ^ size` bytes, the offset in bytes -/
  | ldur (size : Nat) (simm9 : BitVec 9) (rn rt : Nat)
  /-- `LDR` of a D register -/
  | ldrD (imm12 : BitVec 12) (rn dt : Nat)
  /-- `FMOV` from a D register to an X register -/
  | fmovDX (dn rd : Nat)
  /-- `FMOV` from an X register to a D register -/
  | fmovXD (rn dd : Nat)
  /-- `FCMEQ` of D registers: all ones where they compare equal -/
  | fcmeq (dm dn dd : Nat)
  /-- `FCVT{N,P,M,Z}S` from a D register -/
  | fcvt (is64 : Bool) (mode : Rounding) (dn rd : Nat)
  /-- `FMUL` of D registers -/
  | fmul (dm dn dd : Nat)
  /-- `FCMP` of D registers -/
  | fcmp (dm dn : Nat)
  /-- `FMOV` of D registers -/
  | fmovD (dn dd : Nat)
  /-- `FABS` of a D register -/
  | fabs (dn dd : Nat)
  /-- `FRINT{N,P,M,Z}` of a D register -/
  | frint (mode : Rounding) (dn dd : Nat)
  /-- `SCVTF` of an X register -/
  | scvtf (rn dd : Nat)
  /-- `MADD`/`MSUB` of X registers -/
  | madd (sub : Bool) (rm ra rn rd : Nat)
  /-- `UDIV` of X registers -/
  | udiv (rm rn rd : Nat)
  /-- `MRS`/`MSR` of the flags -/
  | mrsNzcv (rd : Nat)
  | msrNzcv (rn : Nat)
  /-- `MRS`/`MSR` of the register of the flush bits -/
  | mrsFlush (rd : Nat)
  | msrFlush (rn : Nat)

/-- The width of an instruction. -/
def width (is64 : Bool) : Nat := if is64 then 64 else 32

/-- A shifted operand. -/
def Shift.eval (is64 : Bool) (v : BitVec 64) (n : Nat) : Shift → BitVec 64
  | .lsl => v <<< n
  | .lsr => Arm.narrow is64 v >>> n

/-- The low bits of a word as a signed number. -/
def signed (bits : Nat) (v : BitVec 64) : BitVec 64 :=
  (v.setWidth bits).signExtend 64

/-- The flags of an addition or subtraction. -/
def addSubFlags (is64 sub : Bool) (a b : BitVec 64) : Flags :=
  let a := Arm.narrow is64 a
  let b := Arm.narrow is64 b
  let r := Arm.narrow is64 (Arm.addSub sub a b)
  let sign (v : BitVec 64) := v.getLsbD (width is64 - 1)
  { n := sign r
    z := r = 0
    c := if sub then b.toNat ≤ a.toNat
      else 2 ^ width is64 ≤ a.toNat + b.toNat
    v := if sub then sign a != sign b && sign r != sign a
      else sign a == sign b && sign r != sign a }

/-- A condition on the flags. -/
def Cond.eval (f : Flags) : Cond → Bool
  | .eq => f.z
  | .hs => f.c
  | .hi => f.c && !f.z
  | .ls => !(f.c && !f.z)
  | .gt => !f.z && f.n == f.v
  | .lt => f.n != f.v
  | .vs => f.v
  | .ne => !f.z
  | .vc => !f.v
  | .lo => !f.c
  | .ge => f.n == f.v
  | .le => !(!f.z && f.n == f.v)

/-- The opposite condition, `cond ^ 1`. -/
def Cond.inv : Cond → Cond
  | .eq => .ne
  | .hs => .lo
  | .hi => .ls
  | .ls => .hi
  | .gt => .le
  | .lt => .ge
  | .vs => .vc
  | .ne => .eq
  | .vc => .vs
  | .lo => .hs
  | .le => .gt
  | .ge => .lt

@[simp] theorem Cond.eval_inv (f : Flags) (c : Cond) :
    c.inv.eval f = !c.eval f := by
  cases c <;> simp [Cond.inv, Cond.eval, bne]

/-- The flags of a comparison of floating-point numbers. -/
def compareFlags (a b : BitVec 64) : Flags :=
  if Double.isNaN a || Double.isNaN b then ⟨false, false, true, true⟩
  else if Double.value a = Double.value b then ⟨false, true, true, false⟩
  else if Double.value a < Double.value b then
    ⟨true, false, false, false⟩
  else ⟨false, false, true, false⟩

/-- `BFM`: a field of `v` put into `old`, from bit `immr` down to bit 0 or
from bit 0 up. -/
def bfmEval (width immr imms : Nat) (v old : BitVec 64) : BitVec 64 :=
  let ones (n : Nat) : BitVec 64 := BitVec.ofNat 64 (2 ^ n - 1)
  if immr ≤ imms then
    let mask := ones (imms - immr + 1)
    old &&& ~~~mask ||| (v >>> immr) &&& mask
  else
    let mask := ones (imms + 1) <<< (width - immr)
    old &&& ~~~mask ||| (v <<< (width - immr)) &&& mask

/-- Leading zeros. -/
def leadingZeros (v : BitVec 64) : Nat :=
  if v = 0 then 64 else 63 - v.toNat.log2

/-- The flags as `MRS` reads them. -/
def Flags.word (f : Flags) : BitVec 64 :=
  BitVec.ofNat 64 (f.n.toNat * 2 ^ 31 + f.z.toNat * 2 ^ 30
    + f.c.toNat * 2 ^ 29 + f.v.toNat * 2 ^ 28)

/-- The flags as `MSR` writes them. -/
def Flags.ofWord (w : BitVec 64) : Flags :=
  ⟨w.getLsbD 31, w.getLsbD 30, w.getLsbD 29, w.getLsbD 28⟩

/-- Flags that were read and are written back. -/
@[simp] theorem Flags.ofWord_word (f : Flags) :
    Flags.ofWord (Flags.word f) = f := by
  obtain ⟨n, z, c, v⟩ := f
  cases n <;> cases z <;> cases c <;> cases v <;> rfl

/-- The bytes of an access at an address. -/
def load (c : Cpu) (size : Nat) (a : BitVec 64) : BitVec 64 :=
  (c.mem.load a (2 ^ size)).setWidth 64

/-- The address of a scaled access. -/
def scaled (c : Cpu) (size : Nat) (imm12 : BitVec 12) (rn : Nat) :
    BitVec 64 :=
  c.regSp rn + imm12.setWidth 64 * BitVec.ofNat 64 (2 ^ size)

/-- One instruction. -/
def step (c : Cpu) : Op → Cpu
  | .base i => { c with toMachine := Arm.step c.toMachine i }
  | .addSubImmS is64 sub shifted imm12 rn rd =>
      let imm := imm12.setWidth 64 <<< (if shifted then 12 else 0)
      (c.set rd (Arm.narrow is64 (Arm.addSub sub (c.regSp rn) imm))).setFlags
        (addSubFlags is64 sub (c.regSp rn) imm)
  | .addSubShifted is64 sub setFlags shift rm amount rn rd =>
      let b := shift.eval is64 (c.reg rm) amount.toNat
      let c' := c.set rd (Arm.narrow is64 (Arm.addSub sub (c.reg rn) b))
      if setFlags then c'.setFlags (addSubFlags is64 sub (c.reg rn) b)
      else c'
  | .addSubSigned is64 sub bits rm rn rd =>
      { c with
        toMachine := c.toMachine.setSp rd (Arm.narrow is64
          (Arm.addSub sub (c.regSp rn) (signed bits (c.reg rm)))) }
  | .logical is64 op invert shift rm amount rn rd =>
      let b := shift.eval is64 (c.reg rm) amount.toNat
      c.set rd (Arm.narrow is64
        (op.eval (c.reg rn) (if invert then ~~~b else b)))
  | .logicalImm is64 op n immr imms rn rd =>
      { c with
        toMachine := c.toMachine.setSp rd (Arm.narrow is64
          (op.eval (c.reg rn) (Arm.decodeBitMask n immr imms))) }
  | .bfm is64 immr imms rn rd =>
      c.set rd (Arm.narrow is64 (bfmEval (width is64) immr.toNat
        imms.toNat (c.reg rn) (c.reg rd)))
  | .csel is64 cond rm rn rd =>
      c.set rd (Arm.narrow is64
        (if cond.eval c.flags then c.reg rn else c.reg rm))
  | .cset _ cond rd => c.set rd (if cond.eval c.flags then 1 else 0)
  | .clz rn rd => c.set rd (BitVec.ofNat 64 (leadingZeros (c.reg rn)))
  | .shiftBy is64 shift rm rn rd =>
      c.set rd (Arm.narrow is64 (shift.eval is64 (c.reg rn)
        ((c.reg rm).toNat % width is64)))
  | .ldr size imm12 rn rt =>
      c.set rt (c.load size (c.scaled size imm12 rn))
  | .str size imm12 rn rt =>
      c.setMem (c.mem.store (c.scaled size imm12 rn) (2 ^ size)
        ((c.reg rt).setWidth _))
  | .ldur size simm9 rn rt =>
      c.set rt (c.load size (c.regSp rn + simm9.signExtend 64))
  | .ldrD imm12 rn dt => c.setD dt (c.load 3 (c.scaled 3 imm12 rn))
  | .fmovDX dn rd => c.set rd (c.d dn)
  | .fcmeq dm dn dd =>
      c.setD dd (if !Double.isNaN (c.d dn) && !Double.isNaN (c.d dm)
          && Double.value (c.d dn) = Double.value (c.d dm)
        then BitVec.allOnes 64 else 0)
  | .fcvt is64 mode dn rd =>
      c.set rd (Arm.narrow is64
        (BitVec.ofInt 64 (Double.toSigned mode (width is64) (c.d dn))))
  | .fmovXD rn dd => c.setD dd (c.reg rn)
  | .fmul dm dn dd => c.setD dd (Double.mul (c.d dn) (c.d dm))
  | .fcmp dm dn => c.setFlags (compareFlags (c.d dn) (c.d dm))
  | .fmovD dn dd => c.setD dd (c.d dn)
  | .fabs dn dd => c.setD dd (Double.abs (c.d dn))
  | .frint mode dn dd => c.setD dd (Double.roundIntegral mode (c.d dn))
  | .scvtf rn dd => c.setD dd (Double.ofSigned (c.reg rn))
  | .madd sub rm ra rn rd =>
      c.set rd (Arm.addSub sub (c.reg ra) (c.reg rn * c.reg rm))
  | .udiv rm rn rd => c.set rd (c.reg rn / c.reg rm)
  | .mrsNzcv rd => c.set rd (Flags.word c.flags)
  | .msrNzcv rn => c.setFlags (Flags.ofWord (c.reg rn))
  | .mrsFlush rd => c.set rd c.flush
  | .msrFlush rn => { c with flush := c.reg rn }

/-- The conditions of branches: always, on a register being zero or not,
on a bit of a register, on the flags. -/
inductive Test
  | always
  | cbz (is64 nz : Bool) (rt : Nat)
  | tbz (nz : Bool) (rt bit : Nat)
  | cond (c : Cond)
  deriving DecidableEq, Repr

/-- Whether a branch is taken. -/
def holds (c : Cpu) : Test → Bool
  | .always => true
  | .cbz is64 nz rt => decide (Arm.narrow is64 (c.reg rt) = 0) != nz
  | .tbz nz rt bit => (c.reg rt).getLsbD bit == nz
  | .cond cc => cc.eval c.flags

/-- A line of code. -/
abbrev Line (L : Type) := Forward.Item Op Test L

/-- Run code. -/
abbrev exec {L : Type} [DecidableEq L] (code : List (Line L))
    (s : Forward.Going L × Cpu) : Forward.Going L × Cpu :=
  Forward.exec step holds code s

/-- What code leaves of a machine. -/
abbrev run {L : Type} [DecidableEq L] (code : List (Line L)) (c : Cpu) :
    Cpu :=
  Forward.run step holds code c

-- ================================================ reading what was set

section
variable {c : Cpu} {r q : Nat} {v : BitVec 64} {f : Flags} {m : Mem 64}

@[simp] theorem reg_set_self (h : r ≠ 31) : (c.set r v).reg r = v :=
  Arm.reg_set_self h

@[simp] theorem reg_set_of_ne (h : q ≠ r) :
    (c.set r v).reg q = c.reg q :=
  Arm.reg_set_of_ne h

@[simp] theorem reg_zero : c.reg 31 = 0 := (rfl)

@[simp] theorem set_zero : c.set 31 v = c := (rfl)

@[simp] theorem set_set {w : BitVec 64} :
    (c.set r v).set r w = c.set r w := by
  unfold Cpu.set
  dsimp only
  rw [Arm.set_set]

@[simp] theorem mem_set : (c.set r v).mem = c.mem := Arm.set_mem

@[simp] theorem d_set : (c.set r v).d = c.d := (rfl)

@[simp] theorem flags_set : (c.set r v).flags = c.flags := (rfl)

@[simp] theorem flush_set : (c.set r v).flush = c.flush := (rfl)

@[simp] theorem reg_setFlags : (c.setFlags f).reg r = c.reg r := (rfl)

@[simp] theorem mem_setFlags : (c.setFlags f).mem = c.mem := (rfl)

@[simp] theorem d_setFlags : (c.setFlags f).d = c.d := (rfl)

@[simp] theorem flags_setFlags : (c.setFlags f).flags = f := (rfl)

@[simp] theorem flush_setFlags : (c.setFlags f).flush = c.flush := (rfl)

@[simp] theorem reg_setD : (c.setD q v).reg r = c.reg r := (rfl)

@[simp] theorem mem_setD : (c.setD q v).mem = c.mem := (rfl)

@[simp] theorem flags_setD : (c.setD q v).flags = c.flags := (rfl)

@[simp] theorem flush_setD : (c.setD q v).flush = c.flush := (rfl)

@[simp] theorem d_setD_self : (c.setD q v).d q = v :=
  Function.update_self _ _ _

@[simp] theorem d_setD_of_ne (h : r ≠ q) : (c.setD q v).d r = c.d r :=
  Function.update_of_ne h _ _

@[simp] theorem reg_setMem : (c.setMem m).reg r = c.reg r := (rfl)

@[simp] theorem mem_setMem : (c.setMem m).mem = m := (rfl)

@[simp] theorem flags_setMem : (c.setMem m).flags = c.flags := (rfl)

@[simp] theorem flush_setMem : (c.setMem m).flush = c.flush := (rfl)

@[simp] theorem reg_setFlush : (c.setFlush v).reg r = c.reg r := (rfl)

@[simp] theorem mem_setFlush : (c.setFlush v).mem = c.mem := (rfl)

@[simp] theorem d_setFlush : (c.setFlush v).d = c.d := (rfl)

@[simp] theorem flags_setFlush : (c.setFlush v).flags = c.flags := (rfl)

@[simp] theorem flush_setFlush : (c.setFlush v).flush = v := (rfl)

@[simp] theorem d_setMem : (c.setMem m).d = c.d := (rfl)

end

-- ============================ the instructions, away from register 31

section
variable {c : Cpu} {rn rm rd rt : Nat} {is64 sub shifted : Bool}

theorem regSp_of_ne (h : rn ≠ 31) : c.regSp rn = c.reg rn :=
  Arm.regSp_of_ne h

@[simp] theorem step_addSubImm (hn : rn ≠ 31) (hd : rd ≠ 31)
    (imm12 : BitVec 12) :
    step c (.base (.addSubImm is64 sub shifted imm12 rn rd))
      = c.set rd (Arm.narrow is64 (Arm.addSub sub (c.reg rn)
          (imm12.setWidth 64 <<< (if shifted then 12 else 0)))) := by
  simp only [step, Arm.step]
  rw [Arm.setSp_of_ne hd, regSp_of_ne hn]
  rfl

@[simp] theorem step_addSubImmS (hn : rn ≠ 31) (imm12 : BitVec 12) :
    step c (.addSubImmS is64 sub shifted imm12 rn rd)
      = (c.set rd (Arm.narrow is64 (Arm.addSub sub (c.reg rn)
          (imm12.setWidth 64 <<< (if shifted then 12 else 0))))).setFlags
        (addSubFlags is64 sub (c.reg rn)
          (imm12.setWidth 64 <<< (if shifted then 12 else 0))) := by
  simp only [step]
  rw [regSp_of_ne hn]

@[simp] theorem step_moveWide (kind : Arm.MoveWide) (hw : BitVec 2)
    (imm16 : BitVec 16) :
    step c (.base (.moveWide is64 kind hw imm16 rd))
      = c.set rd (Arm.narrow is64 (kind.eval hw imm16 (c.reg rd))) := (rfl)

@[simp] theorem step_bitfield (s : Bool) (immr imms : BitVec 6) :
    step c (.base (.bitfield is64 s immr imms rn rd))
      = c.set rd (Arm.narrow is64 (Arm.bitfieldEval (width is64) s
          immr.toNat imms.toNat (c.reg rn))) := (rfl)

@[simp] theorem step_addSubSigned (hn : rn ≠ 31) (hd : rd ≠ 31)
    (bits : Nat) :
    step c (.addSubSigned is64 sub bits rm rn rd)
      = c.set rd (Arm.narrow is64 (Arm.addSub sub (c.reg rn)
          (signed bits (c.reg rm)))) := by
  simp only [step]
  rw [Arm.setSp_of_ne hd, regSp_of_ne hn]
  rfl

@[simp] theorem step_logicalImm (hd : rd ≠ 31) (op : Arm.Logical)
    (n : Bool) (immr imms : BitVec 6) :
    step c (.logicalImm is64 op n immr imms rn rd)
      = c.set rd (Arm.narrow is64 (op.eval (c.reg rn)
          (Arm.decodeBitMask n immr imms))) := by
  simp only [step]
  rw [Arm.setSp_of_ne hd]
  rfl

@[simp] theorem step_addSubShifted (s : Bool) (shift : Shift)
    (amount : BitVec 6) :
    step c (.addSubShifted is64 sub s shift rm amount rn rd)
      = (c.set rd (Arm.narrow is64 (Arm.addSub sub (c.reg rn)
          (shift.eval is64 (c.reg rm) amount.toNat)))).setFlags
        (if s then addSubFlags is64 sub (c.reg rn)
          (shift.eval is64 (c.reg rm) amount.toNat) else c.flags) := by
  cases s <;> rfl

@[simp] theorem step_logical (op : Arm.Logical) (invert : Bool)
    (shift : Shift) (amount : BitVec 6) :
    step c (.logical is64 op invert shift rm amount rn rd)
      = c.set rd (Arm.narrow is64 (op.eval (c.reg rn)
          (if invert then ~~~(shift.eval is64 (c.reg rm) amount.toNat)
            else shift.eval is64 (c.reg rm) amount.toNat))) := (rfl)

@[simp] theorem step_bfm (immr imms : BitVec 6) :
    step c (.bfm is64 immr imms rn rd)
      = c.set rd (Arm.narrow is64 (bfmEval (width is64) immr.toNat
          imms.toNat (c.reg rn) (c.reg rd))) := (rfl)

@[simp] theorem step_csel (cond : Cond) :
    step c (.csel is64 cond rm rn rd)
      = c.set rd (Arm.narrow is64
          (if cond.eval c.flags then c.reg rn else c.reg rm)) := (rfl)

@[simp] theorem step_cset (cond : Cond) :
    step c (.cset is64 cond rd)
      = c.set rd (if cond.eval c.flags then 1 else 0) := (rfl)

@[simp] theorem step_clz :
    step c (.clz rn rd)
      = c.set rd (BitVec.ofNat 64 (leadingZeros (c.reg rn))) := (rfl)

@[simp] theorem step_shiftBy (shift : Shift) :
    step c (.shiftBy is64 shift rm rn rd)
      = c.set rd (Arm.narrow is64 (shift.eval is64 (c.reg rn)
          ((c.reg rm).toNat % width is64))) := (rfl)

@[simp] theorem step_ldr (hn : rn ≠ 31) (size : Nat)
    (imm12 : BitVec 12) :
    step c (.ldr size imm12 rn rt)
      = c.set rt (c.load size (c.reg rn
          + imm12.setWidth 64 * BitVec.ofNat 64 (2 ^ size))) := by
  simp only [step, scaled]
  rw [regSp_of_ne hn]

@[simp] theorem step_str (hn : rn ≠ 31) (size : Nat)
    (imm12 : BitVec 12) :
    step c (.str size imm12 rn rt)
      = c.setMem (c.mem.store (c.reg rn
            + imm12.setWidth 64 * BitVec.ofNat 64 (2 ^ size)) (2 ^ size)
          ((c.reg rt).setWidth _)) := by
  simp only [step, scaled]
  rw [regSp_of_ne hn]

@[simp] theorem step_ldur (hn : rn ≠ 31) (size : Nat)
    (simm9 : BitVec 9) :
    step c (.ldur size simm9 rn rt)
      = c.set rt (c.load size (c.reg rn + simm9.signExtend 64)) := by
  simp only [step]
  rw [regSp_of_ne hn]

@[simp] theorem step_ldrD (hn : rn ≠ 31) (imm12 : BitVec 12)
    (dt : Nat) :
    step c (.ldrD imm12 rn dt)
      = c.setD dt (c.load 3 (c.reg rn
          + imm12.setWidth 64 * BitVec.ofNat 64 (2 ^ 3))) := by
  simp only [step, scaled]
  rw [regSp_of_ne hn]

@[simp] theorem step_fmovDX (dn : Nat) :
    step c (.fmovDX dn rd) = c.set rd (c.d dn) := (rfl)

@[simp] theorem step_fcvt (mode : Rounding) (dn : Nat) :
    step c (.fcvt is64 mode dn rd)
      = c.set rd (Arm.narrow is64
          (BitVec.ofInt 64 (Double.toSigned mode (width is64) (c.d dn)))) :=
  (rfl)

@[simp] theorem step_fmovXD (dd : Nat) :
    step c (.fmovXD rn dd) = c.setD dd (c.reg rn) := (rfl)

@[simp] theorem step_fmul (dm dn dd : Nat) :
    step c (.fmul dm dn dd)
      = c.setD dd (Double.mul (c.d dn) (c.d dm)) := (rfl)

@[simp] theorem step_fcmp (dm dn : Nat) :
    step c (.fcmp dm dn)
      = c.setFlags (compareFlags (c.d dn) (c.d dm)) := (rfl)

@[simp] theorem step_fmovD (dn dd : Nat) :
    step c (.fmovD dn dd) = c.setD dd (c.d dn) := (rfl)

@[simp] theorem step_fabs (dn dd : Nat) :
    step c (.fabs dn dd) = c.setD dd (Double.abs (c.d dn)) := (rfl)

@[simp] theorem step_frint (mode : Rounding) (dn dd : Nat) :
    step c (.frint mode dn dd)
      = c.setD dd (Double.roundIntegral mode (c.d dn)) := (rfl)

@[simp] theorem step_scvtf (dd : Nat) :
    step c (.scvtf rn dd) = c.setD dd (Double.ofSigned (c.reg rn)) := (rfl)

@[simp] theorem step_madd (ra : Nat) :
    step c (.madd sub rm ra rn rd)
      = c.set rd (Arm.addSub sub (c.reg ra) (c.reg rn * c.reg rm)) := (rfl)

@[simp] theorem step_udiv :
    step c (.udiv rm rn rd) = c.set rd (c.reg rn / c.reg rm) := (rfl)

@[simp] theorem step_mrsFlush :
    step c (.mrsFlush rd) = c.set rd c.flush := (rfl)

@[simp] theorem step_msrFlush :
    step c (.msrFlush rn) = c.setFlush (c.reg rn) := (rfl)

@[simp] theorem step_mrsNzcv :
    step c (.mrsNzcv rd) = c.set rd (Flags.word c.flags) := (rfl)

@[simp] theorem step_msrNzcv :
    step c (.msrNzcv rn) = c.setFlags (Flags.ofWord (c.reg rn)) := (rfl)

end

/-- Comparing a number with itself finds what is not a number. -/
@[simp] theorem step_fcmeq_self {c : Cpu} {dn dd : Nat} :
    step c (.fcmeq dn dn dd)
      = c.setD dd (if Double.isNaN (c.d dn) then 0
          else BitVec.allOnes 64) := by
  simp only [step]
  cases h : Double.isNaN (c.d dn) <;> simp

-- ========================================================= branches

section
variable {c : Cpu} {is64 nz : Bool} {rt bit : Nat} {cc : Cond}

@[simp] theorem holds_always : holds c .always = true := (rfl)

@[simp] theorem holds_cbz :
    holds c (.cbz is64 nz rt)
      = (decide (Arm.narrow is64 (c.reg rt) = 0) != nz) := (rfl)

@[simp] theorem holds_tbz :
    holds c (.tbz nz rt bit) = ((c.reg rt).getLsbD bit == nz) := (rfl)

@[simp] theorem holds_cond :
    holds c (.cond cc) = cc.eval c.flags := (rfl)

@[simp] theorem going_ahead {L : Type} (n : Nat) :
    (Forward.Target.ahead n : Forward.Target L).going = .skip (n - 1) := (rfl)

@[simp] theorem going_label {L : Type} (l : L) :
    (Forward.Target.label l).going = .seek l := (rfl)

end

-- ================================================= what code leaves alone

/-- The register an instruction writes. -/
def Op.dest : Op → Option Nat
  | .base (.addSubImm _ _ _ _ _ rd) => some rd
  | .base (.addSubShifted _ _ _ _ _ rd) => some rd
  | .base (.logicalReg _ _ _ _ rd) => some rd
  | .base (.orrImm _ _ _ _ _ rd) => some rd
  | .base (.moveWide _ _ _ _ rd) => some rd
  | .base (.bitfield _ _ _ _ _ rd) => some rd
  | .base (.ldr _ _ _ rt) => some rt
  | .base (.str _ _ _ _) => none
  | .addSubImmS _ _ _ _ _ rd => some rd
  | .addSubShifted _ _ _ _ _ _ _ rd => some rd
  | .addSubSigned _ _ _ _ _ rd => some rd
  | .logical _ _ _ _ _ _ _ rd => some rd
  | .logicalImm _ _ _ _ _ _ rd => some rd
  | .bfm _ _ _ _ rd => some rd
  | .csel _ _ _ _ rd => some rd
  | .cset _ _ rd => some rd
  | .clz _ rd => some rd
  | .shiftBy _ _ _ _ rd => some rd
  | .ldr _ _ _ rt => some rt
  | .str _ _ _ _ => none
  | .ldur _ _ _ rt => some rt
  | .ldrD _ _ _ => none
  | .fmovDX _ rd => some rd
  | .fcmeq _ _ _ => none
  | .fcvt _ _ _ rd => some rd
  | .fmovXD _ _ => none
  | .fmul _ _ _ => none
  | .fcmp _ _ => none
  | .fmovD _ _ => none
  | .fabs _ _ => none
  | .frint _ _ _ => none
  | .scvtf _ _ => none
  | .madd _ _ _ _ rd => some rd
  | .udiv _ _ rd => some rd
  | .mrsNzcv rd => some rd
  | .msrNzcv _ => none
  | .mrsFlush rd => some rd
  | .msrFlush _ => none

/-- The instruction writes memory. -/
def Op.stores : Op → Bool
  | .base (.str _ _ _ _) | .str _ _ _ _ => true
  | _ => false

/-- The instruction writes the flags. -/
def Op.setsFlags : Op → Bool
  | .addSubImmS _ _ _ _ _ _ | .msrNzcv _ | .fcmp _ _ => true
  | .addSubShifted _ _ s _ _ _ _ _ => s
  | _ => false

/-- The floating-point register an instruction writes. -/
def Op.destD : Op → Option Nat
  | .ldrD _ _ dt => some dt
  | .fcmeq _ _ dd => some dd
  | .fmovXD _ dd => some dd
  | .fmul _ _ dd => some dd
  | .fmovD _ dd => some dd
  | .fabs _ dd => some dd
  | .frint _ _ dd => some dd
  | .scvtf _ dd => some dd
  | _ => none

/-- The instruction writes the register of the flush bits. -/
def Op.setsFlush : Op → Bool
  | .msrFlush _ => true
  | _ => false

section
variable {c : Cpu} {i : Op} {r q : Nat} {v : BitVec 64}

theorem reg_setSp_of_ne (h : r ≠ q) :
    (c.toMachine.setSp q v).reg r = c.reg r := by
  by_cases hq : q = 31
  · subst hq
    rfl
  · rw [Arm.setSp_of_ne hq]
    exact Arm.reg_set_of_ne h

theorem step_reg_of_ne (h : i.dest ≠ some r) :
    (step c i).reg r = c.reg r := by
  have hne : ∀ {rd : Nat}, some rd ≠ some r → r ≠ rd :=
    fun h e => h (by rw [e])
  cases i with
  | base i =>
      cases i with
      | addSubImm => exact reg_setSp_of_ne (hne h)
      | orrImm => exact reg_setSp_of_ne (hne h)
      | str => rfl
      | _ => exact Arm.reg_set_of_ne (hne h)
  | addSubSigned => exact reg_setSp_of_ne (hne h)
  | logicalImm => exact reg_setSp_of_ne (hne h)
  | addSubShifted is64 sub s => cases s <;> exact reg_set_of_ne (hne h)
  | str | ldrD | fcmeq | fmovXD | fmul | fcmp | fmovD | fabs | frint
  | scvtf | msrNzcv | msrFlush => rfl
  | _ => exact reg_set_of_ne (hne h)

theorem setSp_mem : (c.toMachine.setSp q v).mem = c.mem := by
  unfold Arm.Machine.setSp
  split <;> rfl

theorem step_mem (h : i.stores = false) : (step c i).mem = c.mem := by
  cases i with
  | base i =>
      cases i with
      | addSubImm => exact setSp_mem
      | orrImm => exact setSp_mem
      | str => cases h
      | _ => exact Arm.set_mem
  | addSubSigned => exact setSp_mem
  | logicalImm => exact setSp_mem
  | addSubShifted is64 sub s => cases s <;> exact mem_set
  | str => cases h
  | ldrD | fcmeq | fmovXD | fmul | fcmp | fmovD | fabs | frint
  | scvtf | msrNzcv | msrFlush => rfl
  | _ => exact mem_set

theorem step_flags (h : i.setsFlags = false) :
    (step c i).flags = c.flags := by
  cases i with
  | addSubImmS | msrNzcv | fcmp => cases h
  | addSubShifted is64 sub s =>
      cases s with
      | true => cases h
      | false => rfl
  | _ => rfl

theorem step_d (h : i.destD ≠ some r) : (step c i).d r = c.d r := by
  cases i with
  | addSubShifted is64 sub s => cases s <;> rfl
  | ldrD | fcmeq | fmovXD | fmul | fmovD | fabs | frint | scvtf =>
      exact d_setD_of_ne fun e => h (by rw [e]; rfl)
  | _ => rfl

theorem step_flush (h : i.setsFlush = false) :
    (step c i).flush = c.flush := by
  cases i with
  | addSubShifted is64 sub s => cases s <;> rfl
  | msrFlush => cases h
  | _ => rfl

end

section
variable {L : Type} [DecidableEq L] {code : List (Line L)} {c : Cpu}
  {r : Nat}

theorem run_reg_of_ne (h : ∀ i, .insn i ∈ code → i.dest ≠ some r) :
    (run code c).reg r = c.reg r :=
  Forward.run_keeps (fun c => Cpu.reg c r)
    (fun i hi _ => step_reg_of_ne (h i hi)) c

theorem run_mem (h : ∀ i, .insn i ∈ code → i.stores = false) :
    (run code c).mem = c.mem :=
  Forward.run_keeps (fun c => c.mem) (fun i hi _ => step_mem (h i hi)) c

theorem run_flags (h : ∀ i, .insn i ∈ code → i.setsFlags = false) :
    (run code c).flags = c.flags :=
  Forward.run_keeps (fun c => c.flags)
    (fun i hi _ => step_flags (h i hi)) c

theorem run_d (h : ∀ i, .insn i ∈ code → i.destD ≠ some r) :
    (run code c).d r = c.d r :=
  Forward.run_keeps (fun c => c.d r) (fun i hi _ => step_d (h i hi)) c

theorem run_flush (h : ∀ i, .insn i ∈ code → i.setsFlush = false) :
    (run code c).flush = c.flush :=
  Forward.run_keeps (fun c => c.flush)
    (fun i hi _ => step_flush (h i hi)) c

/-- The same from wherever the code is entered. -/
theorem exec_reg_of_ne (h : ∀ i, .insn i ∈ code → i.dest ≠ some r)
    (s : Forward.Going L × Cpu) : (exec code s).2.reg r = s.2.reg r :=
  Forward.exec_keeps (fun c => Cpu.reg c r)
    (fun i hi _ => step_reg_of_ne (h i hi)) s

theorem exec_mem (h : ∀ i, .insn i ∈ code → i.stores = false)
    (s : Forward.Going L × Cpu) : (exec code s).2.mem = s.2.mem :=
  Forward.exec_keeps (fun c => c.mem) (fun i hi _ => step_mem (h i hi)) s

theorem exec_append (a b : List (Line L)) (s : Forward.Going L × Cpu) :
    exec (a ++ b) s = exec b (exec a s) :=
  Forward.exec_append a b s

theorem run_append {a b : List (Line L)}
    (ha : Forward.closed a = true) :
    run (a ++ b) c = run b (run a c) :=
  Forward.run_append_closed ha c

end

@[simp] theorem offset_zero (a s : BitVec 64) :
    a + (0 : BitVec 12).setWidth 64 * s = a := by
  simp

@[simp] theorem movz_eval (hw : BitVec 2) (imm16 : BitVec 16)
    (old : BitVec 64) :
    Arm.MoveWide.movz.eval hw imm16 old
      = imm16.setWidth 64 <<< (16 * hw.toNat) := rfl

@[simp] theorem narrow_true (v : BitVec 64) : Arm.narrow true v = v := rfl

@[simp] theorem width_true : width true = 64 := rfl

@[simp] theorem width_false : width false = 32 := rfl

@[simp] theorem addSub_true (a b : BitVec 64) :
    Arm.addSub true a b = a - b := rfl

@[simp] theorem addSub_false (a b : BitVec 64) :
    Arm.addSub false a b = a + b := rfl

end Cpu

end X87Sidecar.Lib
