/-
The integer side of AArch64, as much of it as straight-line code that
moves, adds and addresses needs.

Registers are numbered as in the encoding: 31 reads zero and ignores
writes, except as the base of an access and in the immediate forms of
`add` and `sub`, where it is the stack pointer. A W-form works on the low
half of its operands and clears the high half of its destination. None of
the instructions here sets the condition flags.

A logical immediate is kept encoded, as `N`, `immr` and `imms`, and
`decodeBitMask` says which word it is.
-/
import X87Sidecar.Lib.Emit
import X87Sidecar.Lib.Memory

namespace X87Sidecar.Lib.Arm

-- ========================================================= the machine

/-- Registers `x0` to `x30`, the stack pointer and memory. -/
structure Machine where
  x : Nat → BitVec 64
  sp : BitVec 64
  mem : Mem 64

namespace Machine

/-- A register as most instructions read it. -/
def reg (m : Machine) (r : Nat) : BitVec 64 := if r = 31 then 0 else m.x r

/-- A register where 31 is the stack pointer. -/
def regSp (m : Machine) (r : Nat) : BitVec 64 :=
  if r = 31 then m.sp else m.x r

/-- Write a register. -/
def set (m : Machine) (r : Nat) (v : BitVec 64) : Machine :=
  if r = 31 then m else { m with x := Function.update m.x r v }

/-- Write a register where 31 is the stack pointer. -/
def setSp (m : Machine) (r : Nat) (v : BitVec 64) : Machine :=
  if r = 31 then { m with sp := v }
  else { m with x := Function.update m.x r v }

end Machine

-- ======================================================== instructions

/-- A result at the width of its instruction. -/
def narrow (is64 : Bool) (v : BitVec 64) : BitVec 64 :=
  if is64 then v else (v.setWidth 32).setWidth 64

/-- The bitwise operations. -/
inductive Logical
  | and | orr | eor
  deriving DecidableEq, Repr

/-- The moves of a 16-bit immediate: over zeros, over ones by its
complement, and into a register that keeps the rest. -/
inductive MoveWide
  | movn | movz | movk
  deriving DecidableEq, Repr

/-- The instructions. Operands stand in the order `Rm`, `Rn`, `Rd`. -/
inductive Instr
  /-- `ADD`/`SUB` (immediate), the immediate shifted by 12 or not -/
  | addSubImm (is64 sub shifted : Bool) (imm12 : BitVec 12) (rn rd : Nat)
  /-- `ADD`/`SUB` (shifted register), `LSL` -/
  | addSubShifted (is64 sub : Bool) (rm : Nat) (amount : BitVec 6)
      (rn rd : Nat)
  /-- `AND`/`ORR`/`EOR` (shifted register), unshifted -/
  | logicalReg (is64 : Bool) (op : Logical) (rm rn rd : Nat)
  /-- `ORR` (immediate) -/
  | orrImm (is64 n : Bool) (immr imms : BitVec 6) (rn rd : Nat)
  /-- `MOVN`/`MOVZ`/`MOVK` -/
  | moveWide (is64 : Bool) (kind : MoveWide) (hw : BitVec 2)
      (imm16 : BitVec 16) (rd : Nat)
  /-- `SBFM`/`UBFM` -/
  | bitfield (is64 signed : Bool) (immr imms : BitVec 6) (rn rd : Nat)
  /-- `LDR` (immediate) of a W or X register -/
  | ldr (is64 : Bool) (imm12 : BitVec 12) (rn rt : Nat)
  /-- `STR` (immediate) of a W or X register -/
  | str (is64 : Bool) (imm12 : BitVec 12) (rn rt : Nat)
  deriving DecidableEq, Repr

/-- Add or subtract. -/
def addSub (sub : Bool) (a b : BitVec 64) : BitVec 64 :=
  if sub then a - b else a + b

/-- A bitwise operation on two words. -/
def Logical.eval : Logical → BitVec 64 → BitVec 64 → BitVec 64
  | .and, a, b => a &&& b
  | .orr, a, b => a ||| b
  | .eor, a, b => a ^^^ b

/-- What a move of an immediate leaves in a register that held `old`. -/
def MoveWide.eval (kind : MoveWide) (hw : BitVec 2) (imm16 : BitVec 16)
    (old : BitVec 64) : BitVec 64 :=
  let imm : BitVec 64 := imm16.setWidth 64 <<< (16 * hw.toNat)
  match kind with
  | .movn => ~~~imm
  | .movz => imm
  | .movk => old &&& ~~~(0xFFFF#64 <<< (16 * hw.toNat)) ||| imm

/-- The word whose bit `i` is `p i`. -/
def ofBits (p : Nat → Bool) : BitVec 64 :=
  (BitVec.iunfoldr (fun i (_ : Unit) => ((), p i)) ()).2

/-- `DecodeBitMasks`: elements of `2 ^ len` bits, `len` the highest bit
set in `N : NOT(imms)`, each a run of `S + 1` ones rotated right by `R`. -/
def decodeBitMask (n : Bool) (immr imms : BitVec 6) : BitVec 64 :=
  let esize := 2 ^ Nat.log2 ((if n then 64 else 0) + (~~~imms).toNat)
  let s := imms.toNat % esize
  let r := immr.toNat % esize
  ofBits fun i => (i + r) % esize ≤ s

/-- `SBFM` and `UBFM`: a field moved down to bit 0, or up from there. -/
def bitfieldEval (width : Nat) (signed : Bool) (immr imms : Nat)
    (v : BitVec 64) : BitVec 64 :=
  let take (lsb n : Nat) : BitVec 64 :=
    let field := (v >>> lsb).setWidth n
    if signed then field.signExtend 64 else field.setWidth 64
  if immr ≤ imms then take immr (imms - immr + 1)
  else take 0 (imms + 1) <<< (width - immr)

/-- The bytes of a W or X access. -/
def bytes (is64 : Bool) : Nat := if is64 then 8 else 4

/-- The address of an access: the offset counts in units of its size. -/
def Machine.access (m : Machine) (is64 : Bool) (imm12 : BitVec 12)
    (rn : Nat) : BitVec 64 :=
  m.regSp rn + imm12.setWidth 64 * BitVec.ofNat 64 (bytes is64)

/-- One instruction. -/
def step (m : Machine) : Instr → Machine
  | .addSubImm is64 sub shifted imm12 rn rd =>
      let imm := imm12.setWidth 64 <<< (if shifted then 12 else 0)
      m.setSp rd (narrow is64 (addSub sub (m.regSp rn) imm))
  | .addSubShifted is64 sub rm amount rn rd =>
      m.set rd (narrow is64
        (addSub sub (m.reg rn) (m.reg rm <<< amount.toNat)))
  | .logicalReg is64 op rm rn rd =>
      m.set rd (narrow is64 (op.eval (m.reg rn) (m.reg rm)))
  | .orrImm is64 n immr imms rn rd =>
      m.setSp rd (narrow is64 (m.reg rn ||| decodeBitMask n immr imms))
  | .moveWide is64 kind hw imm16 rd =>
      m.set rd (narrow is64 (kind.eval hw imm16 (m.reg rd)))
  | .bitfield is64 signed immr imms rn rd =>
      m.set rd (narrow is64 (bitfieldEval (if is64 then 64 else 32)
        signed immr.toNat imms.toNat (m.reg rn)))
  | .ldr is64 imm12 rn rt =>
      m.set rt ((m.mem.load (m.access is64 imm12 rn)
        (bytes is64)).setWidth 64)
  | .str is64 imm12 rn rt =>
      { m with
        mem := m.mem.store (m.access is64 imm12 rn) (bytes is64)
          ((m.reg rt).setWidth _) }

/-- Straight-line code. -/
def run (code : List Instr) (m : Machine) : Machine :=
  runCode step code m

@[simp] theorem run_nil (m : Machine) : run [] m = m := rfl

@[simp] theorem run_cons (i : Instr) (is : List Instr) (m : Machine) :
    run (i :: is) m = run is (step m i) := rfl

@[simp] theorem run_append (a b : List Instr) (m : Machine) :
    run (a ++ b) m = run b (run a m) := runCode_append step a b m

-- ================================================= reading registers

section
variable {m : Machine} {r q : Nat} {v w : BitVec 64}

theorem regSp_of_ne (h : r ≠ 31) : m.regSp r = m.reg r := by
  simp [Machine.regSp, Machine.reg, h]

theorem setSp_of_ne (h : r ≠ 31) : m.setSp r v = m.set r v := by
  simp [Machine.setSp, Machine.set, h]

theorem reg_set_self (h : r ≠ 31) : (m.set r v).reg r = v := by
  simp [Machine.set, Machine.reg, h]

theorem reg_set_of_ne (h : q ≠ r) : (m.set r v).reg q = m.reg q := by
  unfold Machine.set
  split
  · rfl
  · unfold Machine.reg
    dsimp only
    rw [Function.update_of_ne h]

@[simp] theorem set_mem : (m.set r v).mem = m.mem := by
  unfold Machine.set
  split <;> rfl

theorem set_reg_self : m.set r (m.reg r) = m := by
  unfold Machine.set Machine.reg
  split
  · rfl
  · rw [Function.update_eq_self]

theorem set_set : (m.set r v).set r w = m.set r w := by
  unfold Machine.set
  split
  · rfl
  · simp

end

/-- A word of the width of a W or X register. -/
theorem narrow_of_lt {is64 : Bool} {v : BitVec 64}
    (h : is64 = false → v.toNat < 2 ^ 32) : narrow is64 v = v := by
  cases is64 with
  | true => rfl
  | false =>
      apply BitVec.eq_of_toNat_eq
      have hv := h rfl
      simp only [narrow, Bool.false_eq_true, if_false,
        BitVec.toNat_setWidth]
      omega

theorem narrow_idem (is64 : Bool) (v : BitVec 64) :
    narrow is64 (narrow is64 v) = narrow is64 v := by
  cases is64 with
  | true => rfl
  | false => simp [narrow]

/-- The low half of a sum is the sum of the low halves. -/
theorem narrow_add_left (is64 : Bool) (a b : BitVec 64) :
    narrow is64 (narrow is64 a + b) = narrow is64 (a + b) := by
  cases is64 with
  | true => rfl
  | false => simp [narrow, BitVec.setWidth_add]

theorem narrow_add_right (is64 : Bool) (a b : BitVec 64) :
    narrow is64 (a + narrow is64 b) = narrow is64 (a + b) := by
  rw [BitVec.add_comm, narrow_add_left, BitVec.add_comm]

theorem narrow_logical_right (is64 : Bool) (op : Logical)
    (a b : BitVec 64) :
    narrow is64 (op.eval a (narrow is64 b))
      = narrow is64 (op.eval a b) := by
  cases is64 with
  | true => rfl
  | false => cases op <;> simp [narrow, Logical.eval]

@[simp] theorem getLsbD_ofBits (p : Nat → Bool) {i : Nat} (h : i < 64) :
    (ofBits p).getLsbD i = p i :=
  BitVec.iunfoldr_getLsbD (fun _ => ()) ⟨i, h⟩ (fun _ => rfl)

-- ===================================================== what code keeps

/-- Code that leaves memory and all registers but some alone. -/
structure Keeps (touched : Nat → Prop) (m m' : Machine) : Prop where
  reg : ∀ r, ¬ touched r → m'.reg r = m.reg r
  mem : m'.mem = m.mem

namespace Keeps

variable {touched other : Nat → Prop} {m m' m'' : Machine}

theorem refl (m : Machine) : Keeps touched m m := ⟨fun _ _ => rfl, rfl⟩

theorem trans (h : Keeps touched m m') (h' : Keeps touched m' m'') :
    Keeps touched m m'' :=
  ⟨fun r hr => (h'.reg r hr).trans (h.reg r hr), h'.mem.trans h.mem⟩

theorem mono (h : Keeps touched m m') (hs : ∀ r, touched r → other r) :
    Keeps other m m' :=
  ⟨fun r hr => h.reg r (fun ht => hr (hs r ht)), h.mem⟩

theorem set {r : Nat} {v : BitVec 64} (h : Keeps touched m m')
    (hr : touched r) : Keeps touched m (m'.set r v) where
  reg q hq := by
    rw [reg_set_of_ne (fun e => hq (by rw [e]; exact hr)), h.reg q hq]
  mem := by rw [set_mem, h.mem]

end Keeps

end X87Sidecar.Lib.Arm
