/-
The reference x87 stack machine: eight physical registers with their
tags, addressed from TOP, and one step per instruction.

This is the specification side: it is written from what the instructions
do, not from what the translator emits. Every instruction reads its
operands in the state it finds, updates the stack and has its effects on
the guest at once. Reads do not look at the tags, as a program that reads
an empty register is outside what the translator promises; pops mark a
register empty and leave what it holds.

The integer instructions a run may contain are here too. Those that write
arithmetic flags are only ever carried when no one reads the flags
(`Bridge.flagsDead`), so they leave `Guest.flags` alone.
-/
import X87Sidecar.Machine.Guest

namespace X87Sidecar

open Lib

/-- The machine: the guest, whose status word holds TOP, the registers
and which of them are empty. -/
structure X87 (V : Type) where
  guest : Guest
  st : BitVec 3 → V
  empty : BitVec 3 → Bool

namespace X87

variable {V : Type}

/-- TOP. -/
def top (m : X87 V) : BitVec 3 := topOf m.guest.sw

/-- The physical register at depth `d`. -/
def phys (m : X87 V) (d : Nat) : BitVec 3 := m.top + BitVec.ofNat 3 d

/-- `ST(d)`. -/
def get (m : X87 V) (d : Nat) : V := m.st (m.phys d)

/-- Is `ST(d)` tagged empty? -/
def isEmpty (m : X87 V) (d : Nat) : Bool := m.empty (m.phys d)

/-- `ST(d) := v`. No operand names a ninth register. -/
def set (m : X87 V) (d : Nat) (v : V) : X87 V :=
  if d < 8 then
    { m with
      st := Function.update m.st (m.phys d) v,
      empty := Function.update m.empty (m.phys d) false }
  else m

/-- Push a value. -/
def push (m : X87 V) (v : V) : X87 V :=
  let t := m.top - 1
  { guest := { m.guest with sw := withTop m.guest.sw t },
    st := Function.update m.st t v,
    empty := Function.update m.empty t false }

/-- Pop the top of the stack. -/
def pop (m : X87 V) : X87 V :=
  { m with
    guest := { m.guest with sw := withTop m.guest.sw (m.top + 1) },
    empty := Function.update m.empty m.top true }

/-- Exchange `ST(0)` and `ST(d)`, with their tags. -/
def exchange (m : X87 V) (d : Nat) : X87 V :=
  { m with
    st := Function.update (Function.update m.st (m.phys 0) (m.get d))
      (m.phys d) (m.get 0),
    empty := Function.update
      (Function.update m.empty (m.phys 0) (m.isEmpty d))
      (m.phys d) (m.isEmpty 0) }

/-- Write the condition codes. -/
def setCC (m : X87 V) (cc : BitVec 16) : X87 V :=
  { m with guest := m.guest.setCC cc }

-- ------------------------------------------------ reading after writing

theorem phys_inj (m : X87 V) {d e : Nat} (hd : d < 8) (he : e < 8) :
    m.phys d = m.phys e ↔ d = e := by
  unfold phys
  constructor
  · intro h
    have := congrArg BitVec.toNat ((BitVec.add_right_inj _).mp h)
    simp only [BitVec.toNat_ofNat] at this
    omega
  · rintro rfl
    rfl

@[simp] theorem top_set (m : X87 V) (d : Nat) (v : V) :
    (m.set d v).top = m.top := by
  unfold set
  split <;> rfl

@[simp] theorem top_push (m : X87 V) (v : V) :
    (m.push v).top = m.top - 1 := topOf_withTop _ _

@[simp] theorem top_pop (m : X87 V) : m.pop.top = m.top + 1 :=
  topOf_withTop _ _

@[simp] theorem top_setCC (m : X87 V) (cc : BitVec 16) :
    (m.setCC cc).top = m.top := topOf_withCC _ _

@[simp] theorem guest_set (m : X87 V) (d : Nat) (v : V) :
    (m.set d v).guest = m.guest := by
  unfold set
  split <;> rfl

theorem phys_push (m : X87 V) (v : V) (d : Nat) :
    (m.push v).phys (d + 1) = m.phys d := by
  unfold phys
  rw [top_push, BitVec.ofNat_add, BitVec.add_comm (BitVec.ofNat 3 d),
    ← BitVec.add_assoc]
  congr 1
  exact BitVec.sub_add_cancel _ _

theorem phys_pop (m : X87 V) (d : Nat) :
    m.pop.phys d = m.phys (d + 1) := by
  unfold phys
  rw [top_pop, BitVec.ofNat_add, BitVec.add_comm (BitVec.ofNat 3 d),
    ← BitVec.add_assoc]
  rfl

theorem phys_zero (m : X87 V) : m.phys 0 = m.top := by
  unfold phys
  simp

/-- A register written through `ST(d)` is read back there and nowhere
else. -/
theorem get_set (m : X87 V) {d e : Nat} (v : V) (hd : d < 8)
    (he : e < 8) : (m.set d v).get e = if e = d then v else m.get e := by
  unfold get set phys
  rw [if_pos hd]
  show Function.update m.st (m.phys d) v (m.phys e) = _
  rw [Function.update_apply]
  simp only [phys_inj m he hd]
  rfl

theorem isEmpty_set_of_ne (m : X87 V) {d e : Nat} (v : V) (he : e < 8)
    (hne : e ≠ d) : (m.set d v).isEmpty e = m.isEmpty e := by
  unfold isEmpty set
  split
  · next hd =>
    exact Function.update_of_ne (fun h => hne ((phys_inj m he hd).mp h))
      _ _
  · rfl

@[simp] theorem get_push_zero (m : X87 V) (v : V) :
    (m.push v).get 0 = v := by
  unfold get
  rw [phys_zero, top_push]
  exact Function.update_self _ _ _

theorem get_push_succ (m : X87 V) (v : V) {d : Nat} (hd : d < 7) :
    (m.push v).get (d + 1) = m.get d := by
  unfold get
  refine Function.update_of_ne (fun h => ?_) _ _ |>.trans
    (congrArg m.st (phys_push m v d))
  have h0 : (m.push v).phys (d + 1) = (m.push v).phys 0 := by
    rw [h, phys_zero, top_push]
  have := (phys_inj _ (by omega) (by omega)).mp h0
  omega

theorem isEmpty_push_succ (m : X87 V) (v : V) {d : Nat} (hd : d < 7) :
    (m.push v).isEmpty (d + 1) = m.isEmpty d := by
  unfold isEmpty
  refine Function.update_of_ne (fun h => ?_) _ _ |>.trans
    (congrArg m.empty (phys_push m v d))
  have h0 : (m.push v).phys (d + 1) = (m.push v).phys 0 := by
    rw [h, phys_zero, top_push]
  have := (phys_inj _ (by omega) (by omega)).mp h0
  omega

theorem get_pop (m : X87 V) (d : Nat) : m.pop.get d = m.get (d + 1) :=
  congrArg m.st (phys_pop m d)

/-- A pop empties the register that becomes `ST(7)`. -/
theorem isEmpty_pop_last (m : X87 V) : m.pop.isEmpty 7 = true := by
  have h : m.pop.phys 7 = m.top := by
    rw [phys_pop]
    unfold phys
    show m.top + BitVec.ofNat 3 8 = m.top
    simp
  unfold isEmpty
  rw [h]
  exact Function.update_self _ _ _

theorem isEmpty_pop (m : X87 V) {d : Nat}
    (h : m.isEmpty (d + 1) = true) : m.pop.isEmpty d = true := by
  unfold isEmpty at h ⊢
  rw [phys_pop]
  show Function.update m.empty m.top true (m.phys (d + 1)) = true
  rw [Function.update_apply]
  split
  · rfl
  · exact h

theorem get_exchange (m : X87 V) {d e : Nat} (hd : d < 8) (he : e < 8) :
    (m.exchange d).get e
      = if e = d then m.get 0 else if e = 0 then m.get d
        else m.get e := by
  show Function.update (Function.update m.st (m.phys 0) (m.get d))
    (m.phys d) (m.get 0) (m.phys e) = _
  simp only [Function.update_apply, phys_inj m he hd,
    phys_inj m he (Nat.zero_lt_succ 7)]
  rfl

theorem isEmpty_exchange (m : X87 V) {d e : Nat} (hd : d < 8)
    (he : e < 8) (h0 : e ≠ 0) (hne : e ≠ d) :
    (m.exchange d).isEmpty e = m.isEmpty e := by
  show Function.update (Function.update m.empty (m.phys 0) _)
    (m.phys d) _ (m.phys e) = _
  simp only [Function.update_apply, phys_inj m he hd,
    phys_inj m he (Nat.zero_lt_succ 7), if_neg h0, if_neg hne]
  rfl

-- -------------------------------------- the condition codes are separate

theorem set_setCC (m : X87 V) (d : Nat) (v : V) (cc : BitVec 16) :
    (m.setCC cc).set d v = (m.set d v).setCC cc := by
  unfold set
  by_cases hd : d < 8
  · simp only [if_pos hd]
    unfold phys
    rw [top_setCC]
    rfl
  · simp only [if_neg hd]

theorem push_setCC (m : X87 V) (v : V) (cc : BitVec 16) :
    (m.setCC cc).push v = (m.push v).setCC cc := by
  unfold push
  rw [top_setCC]
  simp only [setCC, Guest.setCC, withTop_withCC]

@[simp] theorem setCC_setCC (m : X87 V) (c d : BitVec 16) :
    (m.setCC c).setCC d = m.setCC d := by
  simp only [setCC, Guest.setCC, withCC_withCC]

@[simp] theorem get_setCC (m : X87 V) (cc : BitVec 16) (d : Nat) :
    (m.setCC cc).get d = m.get d := by
  unfold get phys
  rw [top_setCC]
  rfl

end X87

namespace Reference

variable {V : Type} (fp : Fp V)

-- ========================================================= the operands

/-- A floating point operand in memory. -/
def memFp (g : Guest) (op : IROperand) : Option V :=
  match op.size with
  | .s32 => some (fp.ofF32 (g.read op 4))
  | .s64 => some (fp.ofF64 (g.read op 8))
  | _ => none

/-- An integer operand in memory. -/
def memInt (g : Guest) (op : IROperand) : Option V :=
  match op.size with
  | .s16 => some (fp.ofI16 (g.read op 2))
  | .s32 => some (fp.ofI32 (g.read op 4))
  | .s64 => some (fp.ofI64 (g.read op 8))
  | _ => none

/-- A register operand or a floating point one in memory. -/
def stOrMem (m : X87 V) (op : IROperand) : Option V :=
  if op.kind = .register then some (m.get op.index)
  else memFp fp m.guest op

/-- Store a value in floating point format. -/
def storeFp (g : Guest) (op : IROperand) (v : V) : Option Guest :=
  match op.size with
  | .s32 => some (g.write op 4 (fp.toF32 v))
  | .s64 => some (g.write op 8 (fp.toF64 v))
  | _ => none

/-- Store a value as an integer, rounded as `rc` says. -/
def storeInt (rc : BitVec 2) (g : Guest) (op : IROperand) (v : V) :
    Option Guest :=
  match op.size with
  | .s16 => some (g.write op 2 (fp.toI16 rc v))
  | .s32 => some (g.write op 4 (fp.toI32 rc v))
  | .s64 => some (g.write op 8 (fp.toI64 rc v))
  | _ => none

-- ===================================================== x87 instructions

/-- `fadd` and its family: a register pair, or `ST(0)` and memory. -/
def arith (f : V → V → V) (i : IRInstr) (m : X87 V) : Option (X87 V) :=
  if i.op0.kind = .register then
    let d := i.op0.index
    some (m.set d (f (m.get d) (m.get i.op1.index)))
  else
    (memFp fp m.guest i.op0).map fun x => m.set 0 (f (m.get 0) x)

/-- `faddp` and its family. -/
def arithp (f : V → V → V) (i : IRInstr) (m : X87 V) :
    Option (X87 V) :=
  let d := i.op0.index
  some (m.set d (f (m.get d) (m.get 0))).pop

/-- `fiadd` and its family. -/
def iarith (f : V → V → V) (i : IRInstr) (m : X87 V) :
    Option (X87 V) :=
  (memInt fp m.guest i.op0).map fun x => m.set 0 (f (m.get 0) x)

/-- An operation on `ST(0)`. -/
def unary (f : V → V) (m : X87 V) : Option (X87 V) :=
  some (m.set 0 (f (m.get 0)))

/-- An operation on `ST(0)` that clears the condition codes. -/
def trig (f : V → V) (m : X87 V) : Option (X87 V) :=
  some ((m.set 0 (f (m.get 0))).setCC 0)

/-- `fsincos`, and `fptan` with 1.0 for the second result: one result in
place, one pushed. -/
def trigPair (f g : V → V) (m : X87 V) : Option (X87 V) :=
  some (((m.set 0 (f (m.get 0))).push (g (m.get 0))).setCC 0)

/-- `ST(1) := f(ST(1), ST(0))`, then pop. -/
def binaryPop (f : V → V → V) (m : X87 V) : Option (X87 V) :=
  some (m.set 1 (f (m.get 1) (m.get 0))).pop

/-- Pop when the instruction does. -/
def popIf (b : Bool) (m : X87 V) : X87 V := if b then m.pop else m

/-- `fst` and `fstp`. -/
def fst (pops : Bool) (i : IRInstr) (m : X87 V) : Option (X87 V) :=
  if i.op0.kind = .register then
    some (popIf pops (m.set i.op0.index (m.get 0)))
  else
    (storeFp fp m.guest i.op0 (m.get 0)).map fun g =>
      popIf pops { m with guest := g }

/-- `fist`, `fistp` and `fisttp`. -/
def fist (pops : Bool) (rc : BitVec 2) (i : IRInstr) (m : X87 V) :
    Option (X87 V) :=
  (storeInt fp rc m.guest i.op0 (m.get 0)).map fun g =>
    popIf pops { m with guest := g }

/-- `fcom`: compare `ST(0)`, set the condition codes, pop `n` times. -/
def compare (n : Nat) (rhs : V) (m : X87 V) : X87 V :=
  X87.pop^[n] (m.setCC (fp.cmp (m.get 0) rhs).cc)

/-- `fcomi`. -/
def fcomi (pops : Bool) (i : IRInstr) (m : X87 V) : Option (X87 V) :=
  let flags := (fp.cmp (m.get 0) (m.get i.op1.index)).flags
  some (popIf pops { m with guest := { m.guest with flags } })

/-- `fcmov`. -/
def fcmov (cond : Flags → Bool) (i : IRInstr) (m : X87 V) :
    Option (X87 V) :=
  some (if cond m.guest.flags then m.set 0 (m.get i.op1.index) else m)

/-- `fnstsw ax`. -/
def fnstsw (i : IRInstr) (m : X87 V) : Option (X87 V) :=
  if i.op0.kind = .register then
    some { m with guest := m.guest.setReg16 i.op0.index m.guest.sw }
  else none

/-- `fldcw`. -/
def fldcw (i : IRInstr) (m : X87 V) : X87 V :=
  { m with guest := m.guest.setControlWord (m.guest.read i.op0 2) }

/-- `fnstcw`. -/
def fnstcw (i : IRInstr) (m : X87 V) : X87 V :=
  { m with guest := m.guest.write i.op0 2 m.guest.cw }

-- ================================================= integer instructions

/-- Is an operand 64 bits wide? -/
def is64 (op : IROperand) : Bool := op.size = .s64

/-- The source of a two-operand integer instruction. -/
def intSource (g : Guest) (wide : Bool) (op : IROperand) :
    Option (BitVec 64) :=
  match op.kind with
  | .register => some (g.regs op.index)
  | .branchOffset => some op.value
  | .memRef => some (g.readInt op wide)
  | _ => none

/-- `op0 := f(op0, op1)`, on a register or on memory. -/
def integer (f : BitVec 64 → BitVec 64 → BitVec 64) (i : IRInstr)
    (g : Guest) : Option Guest :=
  if i.op0.kind = .register then
    let wide := is64 i.op0
    (intSource g wide i.op1).map fun x =>
      g.setReg i.op0.index (truncReg wide (f (g.regs i.op0.index) x))
  else if i.op0.kind = .memRef ∧ i.op1.kind = .register then
    let wide := is64 i.op1
    some (g.writeInt i.op0 wide
      (f (g.readInt i.op0 wide) (g.regs i.op1.index)))
  else none

/-- `inc` and `dec`. -/
def step1 (f : BitVec 64 → BitVec 64 → BitVec 64) (i : IRInstr)
    (g : Guest) : Guest :=
  g.setReg i.op0.index
    (truncReg (is64 i.op0) (f (g.regs i.op0.index) 1))

/-- `lea`. -/
def lea (i : IRInstr) (g : Guest) : Guest :=
  g.setReg i.op0.index (truncReg (is64 i.op0) (g.address i.op1))

/-- The width of a narrow register source. -/
def narrowWidth (op : IROperand) : Nat :=
  match op.size with
  | .s8 => 8
  | .s16 => 16
  | _ => 32

/-- Where in its register a narrow source starts: AH to BH at bit 8. -/
def narrowLsb (op : IROperand) : Nat :=
  if op.size = .s8 ∧ op.reg &&& 0xF0 = 0x10 then 8 else 0

/-- A narrow register source, sign- or zero-extended. -/
def narrow (signed : Bool) (g : Guest) (op : IROperand) : BitVec 64 :=
  bitField signed (narrowLsb op) (narrowWidth op) (g.regs op.index)

/-- `movzx`, `movsx` and `movsxd`. -/
def extend (signed : Bool) (i : IRInstr) (g : Guest) : Guest :=
  g.setReg i.op0.index
    (truncReg (is64 i.op0) (narrow signed g i.op1))

/-- An integer instruction leaves the x87 registers alone. -/
def onGuest (f : Guest → Option Guest) (m : X87 V) : Option (X87 V) :=
  (f m.guest).map fun g => { m with guest := g }

-- ========================================================== one step

/-- One instruction, or `none` for one outside the machine. -/
def stepOp (i : IRInstr) (m : X87 V) : Option (X87 V) :=
  match i.opcode with
  | .fldz => some (m.push fp.zero)
  | .fld1 => some (m.push fp.one)
  | .fldl2e => some (m.push (fp.ofF64 0x3FF71547652B82FE))
  | .fldl2t => some (m.push (fp.ofF64 0x400A934F0979A371))
  | .fldlg2 => some (m.push (fp.ofF64 0x3FD34413509F79FF))
  | .fldln2 => some (m.push (fp.ofF64 0x3FE62E42FEFA39EF))
  | .fldpi => some (m.push (fp.ofF64 0x400921FB54442D18))
  | .fld =>
      if i.op0.kind = .register then some (m.push (m.get i.op1.index))
      else (memFp fp m.guest i.op0).map m.push
  | .fild => (memInt fp m.guest i.op0).map m.push
  | .fst | .fst_stack => fst fp false i m
  | .fstp | .fstp_stack => fst fp true i m
  | .fist => fist fp false m.guest.rc i m
  | .fistp => fist fp true m.guest.rc i m
  | .fisttp => fist fp true rcTruncate i m
  | .fadd => arith fp fp.add i m
  | .fsub => arith fp fp.sub i m
  | .fsubr => arith fp (fun a b => fp.sub b a) i m
  | .fmul => arith fp fp.mul i m
  | .fdiv => arith fp fp.div i m
  | .fdivr => arith fp (fun a b => fp.div b a) i m
  | .fiadd => iarith fp fp.add i m
  | .fisub => iarith fp fp.sub i m
  | .fisubr => iarith fp (fun a b => fp.sub b a) i m
  | .fimul => iarith fp fp.mul i m
  | .fidiv => iarith fp fp.div i m
  | .fidivr => iarith fp (fun a b => fp.div b a) i m
  | .faddp => arithp fp.add i m
  | .fsubp => arithp fp.sub i m
  | .fsubrp => arithp (fun a b => fp.sub b a) i m
  | .fmulp => arithp fp.mul i m
  | .fdivp => arithp fp.div i m
  | .fdivrp => arithp (fun a b => fp.div b a) i m
  | .fchs => unary fp.neg m
  | .fabs => unary fp.abs m
  | .fsqrt => unary fp.sqrt m
  | .frndint => unary (fp.rndint m.guest.rc) m
  | .fsin => trig fp.sin m
  | .fcos => trig fp.cos m
  | .fsincos => trigPair fp.sin fp.cos m
  | .fptan => trigPair fp.tan (fun _ => fp.one) m
  | .fpatan => binaryPop fp.patan m
  | .fyl2x => binaryPop fp.yl2x m
  | .fscale => some (m.set 0 (fp.scale (m.get 0) (m.get 1)))
  | .fxch => some (m.exchange i.op1.index)
  | .fcom | .fucom =>
      (stOrMem fp m i.op1).map fun x => compare fp 0 x m
  | .fcomp | .fucomp =>
      (stOrMem fp m i.op1).map fun x => compare fp 1 x m
  | .fcompp | .fucompp => some (compare fp 2 (m.get 1) m)
  | .ficom => (memInt fp m.guest i.op0).map fun x => compare fp 0 x m
  | .ficomp => (memInt fp m.guest i.op0).map fun x => compare fp 1 x m
  | .ftst => some (compare fp 0 fp.zero m)
  | .fcomi | .fucomi => fcomi fp false i m
  | .fcomip | .fucomip => fcomi fp true i m
  | .fcmovb => fcmov (fun f => f.cf) i m
  | .fcmovbe => fcmov (fun f => f.cf || f.zf) i m
  | .fcmove => fcmov (fun f => f.zf) i m
  | .fcmovnb => fcmov (fun f => !f.cf) i m
  | .fcmovnbe => fcmov (fun f => !f.cf && !f.zf) i m
  | .fcmovne => fcmov (fun f => !f.zf) i m
  | .fcmovu => fcmov (fun f => f.pf) i m
  | .fcmovnu => fcmov (fun f => !f.pf) i m
  | .fstsw => fnstsw i m
  | .fldcw => some (fldcw i m)
  | .fnstcw => some (fnstcw i m)
  | .fnop | .wait => some m
  | .mov => onGuest (integer (fun _ x => x) i) m
  | .add => onGuest (integer AluKind.add.eval i) m
  | .sub => onGuest (integer AluKind.sub.eval i) m
  | .and => onGuest (integer AluKind.and.eval i) m
  | .or => onGuest (integer AluKind.or.eval i) m
  | .xor => onGuest (integer AluKind.xor.eval i) m
  | .inc => onGuest (fun g => some (step1 AluKind.add.eval i g)) m
  | .dec => onGuest (fun g => some (step1 AluKind.sub.eval i g)) m
  | .lea => onGuest (fun g => some (lea i g)) m
  | .movzx => onGuest (fun g => some (extend false i g)) m
  | .movsx | .movsxd => onGuest (fun g => some (extend true i g)) m
  | _ => none

/-- One instruction. Memory operands under a segment override are not
modelled. -/
def step (i : IRInstr) (m : X87 V) : Option (X87 V) :=
  if i.hasSegmentOverride then none else stepOp fp i m

/-- How far an instruction moves TOP. -/
def delta (i : IRInstr) : Int :=
  match i.opcode with
  | .fldz | .fld1 | .fldl2e | .fldl2t | .fldlg2 | .fldln2 | .fldpi
  | .fld | .fild | .fsincos | .fptan => -1
  | .fstp | .fstp_stack | .fistp | .fisttp | .faddp | .fsubp | .fsubrp
  | .fmulp | .fdivp | .fdivrp | .fpatan | .fyl2x | .fcomp | .fucomp
  | .ficomp | .fcomip | .fucomip => 1
  | .fcompp | .fucompp => 2
  | _ => 0

/-- How far a run moves TOP. -/
def depth (is : List IRInstr) : Int := (is.map delta).sum

/-- A straight-line run. -/
def run (is : List IRInstr) (m : X87 V) : Option (X87 V) :=
  is.foldlM (fun m i => step fp i m) m

end Reference

end X87Sidecar
