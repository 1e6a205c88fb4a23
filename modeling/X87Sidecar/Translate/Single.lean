/-
The emitters of single instructions (`TranslatorX87.cpp`).

Each is the list of helper calls the source makes, with the arithmetic
between them as one computation. An emitter that looks at the cache
before it emits (an 80-bit slot in the way of a move, an isolated
`frstor`) takes the cache it finds; the others do not.
-/
import X87Sidecar.IR.Denote
import X87Sidecar.Translate.Emit

namespace X87Sidecar

/-- What the emitters are given besides the instruction. -/
structure Env where
  fp : Fp80
  /-- `compute_operand_address`, by its `is_64bit` -/
  ea : Bool → IROperand → Guest → BitVec 64
  /-- `x87_fast_round_active` -/
  fastRound : Bool
  /-- `disable_deferred_fxch` -/
  disableDeferredFxch : Bool

/-- The blank operations, with addresses as the guest has them. -/
def Env.blank : Env where
  fp := .blank
  ea _ op g := g.address op
  fastRound := false
  disableDeferredFxch := false

-- =================================================== memory operands

/-- Store `n` bytes at an address. -/
def Guest.storeAt (g : Guest) (a : BitVec 64) (n : Nat)
    (v : BitVec (8 * n)) : Guest :=
  { g with
    mem := g.mem.store a n v,
    trace := g.trace ++ [.store a n (v.setWidth 64)] }

/-- Store ten bytes, eight and two. -/
def Guest.storeF80 (g : Guest) (a : BitVec 64) (w : BitVec 80) : Guest :=
  (g.storeAt a 8 (w.setWidth 64)).storeAt (a + 8) 2
    ((w >>> 64).setWidth 16)

namespace Env

variable (env : Env)

/-- The rounding control in force. -/
def rc (g : Guest) : BitVec 2 := if env.fastRound then 0 else g.rc

/-- `addr_is_64`, where an emitter passes it on. -/
def addrIs64 (op : IROperand) : Bool := op.reg = 3

/-- A floating point operand of 32 bits, or else 64. -/
def memFp (is64 : Bool) (op : IROperand) (g : Guest) : BitVec 64 :=
  if op.size = .s32 then env.fp.ofF32 (g.mem.load (env.ea is64 op g) 4)
  else g.mem.load (env.ea is64 op g) 8

/-- The operand of `fild`. -/
def memInt (op : IROperand) (g : Guest) : BitVec 64 :=
  let a := env.ea true op g
  match op.size with
  | .s16 => env.fp.ofI16 (g.mem.load a 2)
  | .s32 => env.fp.ofI32 (g.mem.load a 4)
  | _ => env.fp.ofI64 (g.mem.load a 8)

/-- The same, sign-extended to 64 bits (`translate_fild_native`). -/
def memInt64 (op : IROperand) (g : Guest) : BitVec 64 :=
  let a := env.ea true op g
  match op.size with
  | .s16 => (g.mem.load a 2).signExtend 64
  | .s32 => (g.mem.load a 4).signExtend 64
  | _ => g.mem.load a 8

/-- `emit_load_int_operand`. -/
def intOperand (op : IROperand) (g : Guest) : BitVec 64 :=
  if op.size = .s16 then
    env.fp.ofI16 (g.mem.load (env.ea true op g) 2)
  else env.fp.ofI32 (g.mem.load (env.ea true op g) 4)

/-- A ten-byte operand. -/
def memF80 (is64 : Bool) (op : IROperand) (g : Guest) : BitVec 80 :=
  g.mem.load (env.ea is64 op g) 10

/-- Store a value as a binary32, or else a binary64. -/
def storeFp (op : IROperand) (g : Guest) (v : BitVec 64) : Guest :=
  let a := env.ea true op g
  if op.size = .s32 then g.storeAt a 4 (env.fp.toF32 v)
  else g.storeAt a 8 v

/-- Store a value as an integer. -/
def storeInt (rc : BitVec 2) (op : IROperand) (g : Guest)
    (v : BitVec 64) : Guest :=
  let a := env.ea true op g
  match op.size with
  | .s16 => g.storeAt a 2 (env.fp.toI16 rc v)
  | .s32 => g.storeAt a 4 (env.fp.toI32 rc v)
  | _ => g.storeAt a 8 (env.fp.toI64 rc v)

/-- The bits and the store of an integer operand. -/
def intBits (op : IROperand) : Nat :=
  match op.size with
  | .s16 => 16
  | .s32 => 32
  | _ => 64

/-- Store an integer at an operand's width. -/
def storeBits (op : IROperand) (g : Guest) (v : BitVec 64) : Guest :=
  let a := env.ea true op g
  match op.size with
  | .s16 => g.storeAt a 2 (v.setWidth 16)
  | .s32 => g.storeAt a 4 (v.setWidth 32)
  | _ => g.storeAt a 8 v

end Env

-- ======================================================= building blocks

/-- The depth a register operand names. -/
def IROperand.depth (op : IROperand) : Depth := BitVec.ofNat 3 op.index

namespace Act

/-- `ST(d)` as the guest counts it. -/
abbrev st (d : Depth) : StDepth := .resolve d

/-- An FP register computed. -/
def setD (r : Nat) (f : Guest → Scratch → BitVec 64) : Act :=
  .compute fun g s => (g, s.setD r (f g s))

/-- An integer register computed. -/
def setX (r : Nat) (f : Guest → Scratch → BitVec 64) : Act :=
  .compute fun g s => (g, s.setX r (f g s))

/-- An image computed. -/
def setQ (r : Nat) (f : Guest → Scratch → BitVec 80) : Act :=
  .compute fun g s => (g, s.setQ r (f g s))

/-- The guest changed. -/
def onGuest (f : Guest → Scratch → Guest) : Act :=
  .compute fun g s => (f g s, s)

end Act

open Act

/-- `x87_flush_tags`. -/
def flushTags : Script := [.flush .pops .always, .flush .push .always]

/-- A step only under a condition known when the code is emitted. -/
def onlyIf (b : Bool) (s : Script) : Script := if b then s else []

/-- `emit_clear_x87_cc_bits`. -/
def clearCC : Script := [setX 0 fun _ _ => 0, .ccWrite 0]

/-- `emit_fcom_cc_pack` and `emit_fcom_cc_write_sw` after a comparison of
two FP registers. -/
def compareCC (env : Env) (a b : Nat) : Script :=
  [setX 0 fun _ s => (env.fp.cmp (s.d a) (s.d b)).cc.setWidth 64,
    .ccWrite 0]

section
variable (env : Env)

-- ============================================================== loads

/-- `translate_fld_const`, and `fldz` and `fld1` likewise: the value is
made after the push. -/
def loadConst (v : BitVec 64) : Script :=
  [.begin, .push, setD 0 fun _ _ => v, .store (st 0) 0, .finish 1]

def translate_fldz : Script := loadConst env.fp.zero
def translate_fld1 : Script := loadConst env.fp.one
def translate_fldl2e : Script := loadConst 0x3FF71547652B82FE
def translate_fldl2t : Script := loadConst 0x400A934F0979A371
def translate_fldlg2 : Script := loadConst 0x3FD34413509F79FF
def translate_fldln2 : Script := loadConst 0x3FE62E42FEFA39EF
def translate_fldpi : Script := loadConst 0x400921FB54442D18

/-- `translate_fld`: an 80-bit register is copied as ten bytes, and with
`native_slots` an m80 operand goes into its slot as it is. -/
def translate_fld (c : X87Cache) (a2 : IRInstr) : Script :=
  if a2.op0.kind = .register then
    let src := a2.op1.depth
    if c.holdsF80At (c.resolveDepth src) then
      [.begin, .loadImage (st src) 0, .push, .storeImage (st 0) 0,
        .noteNative (st 0), .finish 1]
    else
      [.begin, .load (st src) 0 0, .push, .store (st 0) 0, .finish 1]
  else if a2.op0.size = .s80 ∧ c.nativeSlots then
    [.begin, .push,
      setQ 0 fun g _ => env.memF80 (Env.addrIs64 a2.op0) a2.op0 g,
      .storeImage (st 0) 0, .noteNative (st 0), .finish 1]
  else if a2.op0.size = .s80 then
    [.begin, .push,
      setD 0 fun g _ =>
        env.fp.ofF80 (env.memF80 (Env.addrIs64 a2.op0) a2.op0 g),
      .store (st 0) 0, .finish 1]
  else
    [.begin, .push,
      setD 0 fun g _ => env.memFp (Env.addrIs64 a2.op0) a2.op0 g,
      .store (st 0) 0, .finish 1]

/-- `translate_fbld`: the operand is read before the push. -/
def translate_fbld (a2 : IRInstr) : Script :=
  [.begin,
    setQ 0 fun g _ => env.memF80 (Env.addrIs64 a2.op0) a2.op0 g,
    .push, setD 0 fun _ s => env.fp.ofBcd (s.q 0), .store (st 0) 0,
    .finish 1]

/-- `translate_fild`: the operand is read before the push. -/
def translate_fild (a2 : IRInstr) : Script :=
  [.begin, setD 0 fun g _ => env.memInt a2.op0 g, .push,
    .store (st 0) 0, .finish 1]

/-- `translate_fild_native`. -/
def translate_fild_native (a2 : IRInstr) : Script :=
  [.begin, setX 0 fun g _ => env.memInt64 a2.op0 g, .push,
    setQ 0 fun _ s => env.fp.f80OfI64 (s.x 0),
    .storeImage (.raw 0) 0, .noteNative (.raw 0), .finish 1]

-- ========================================================= arithmetic

/-- A register pair: the destination is loaded last and keeps its key. -/
def arithSt (f : BitVec 64 → BitVec 64 → BitVec 64) (dst src : Depth) :
    Script :=
  [.load (st src) 0 1, .load (st dst) 0 0,
    setD 0 fun _ s => f (s.d 0) (s.d 1), .storeKey 0 0]

/-- `ST(0)` and a value in memory. -/
def arithMem (f : BitVec 64 → BitVec 64 → BitVec 64)
    (m : Guest → BitVec 64) : Script :=
  [.load (st 0) 0 0, setD 1 fun g _ => m g,
    setD 0 fun _ s => f (s.d 0) (s.d 1), .storeKey 0 0]

/-- `fadd` and its family. -/
def arith (f : BitVec 64 → BitVec 64 → BitVec 64) (a2 : IRInstr) :
    Script :=
  .begin ::
    (if a2.op0.kind = .register then arithSt f a2.op0.depth a2.op1.depth
     else arithMem f (env.memFp true a2.op0))
    ++ [.finish 1]

/-- `faddp` and its family. -/
def arithp (f : BitVec 64 → BitVec 64 → BitVec 64) (a2 : IRInstr) :
    Script :=
  .begin :: arithSt f a2.op0.depth 0 ++ [.pop, .finish 1]

/-- `fiadd` and its family. -/
def iarith (f : BitVec 64 → BitVec 64 → BitVec 64) (a2 : IRInstr) :
    Script :=
  .begin :: arithMem f (env.intOperand a2.op0) ++ [.finish 1]

/-- An operation on `ST(0)`. -/
def unary (f : Guest → BitVec 64 → BitVec 64) : Script :=
  [.begin, .load (st 0) 0 0, setD 0 fun g s => f g (s.d 0),
    .storeKey 0 0, .finish 1]

def translate_fadd : IRInstr → Script := arith env env.fp.add
def translate_fsub : IRInstr → Script := arith env env.fp.sub
def translate_fsubr : IRInstr → Script :=
  arith env fun a b => env.fp.sub b a
def translate_fdiv : IRInstr → Script := arith env env.fp.div
def translate_fdivr : IRInstr → Script :=
  arith env fun a b => env.fp.div b a
def translate_fmul : IRInstr → Script := arith env env.fp.mul
def translate_faddp : IRInstr → Script := arithp env.fp.add
def translate_fsubp : IRInstr → Script := arithp env.fp.sub
def translate_fsubrp : IRInstr → Script :=
  arithp fun a b => env.fp.sub b a
def translate_fdivp : IRInstr → Script := arithp env.fp.div
def translate_fdivrp : IRInstr → Script :=
  arithp fun a b => env.fp.div b a
def translate_fmulp : IRInstr → Script := arithp env.fp.mul
def translate_fiadd : IRInstr → Script := iarith env env.fp.add
def translate_fisub : IRInstr → Script := iarith env env.fp.sub
def translate_fisubr : IRInstr → Script :=
  iarith env fun a b => env.fp.sub b a
def translate_fimul : IRInstr → Script := iarith env env.fp.mul
def translate_fidiv : IRInstr → Script := iarith env env.fp.div
def translate_fidivr : IRInstr → Script :=
  iarith env fun a b => env.fp.div b a
def translate_fchs : Script := unary fun _ => env.fp.neg
def translate_fabs : Script := unary fun _ => env.fp.abs
def translate_fsqrt : Script := unary fun _ => env.fp.sqrt
def translate_frndint : Script := unary fun g => env.fp.rndint (env.rc g)

-- ============================================================= stores

/-- The value of `ST(0)` in an FP register, an 80-bit slot converted on
the way and left as it is. -/
def loadSt0 (conv : BitVec 80 → BitVec 64) (c : X87Cache) : Script :=
  if c.holdsF80At (c.resolveDepth 0) then
    [.loadImage (st 0) 0, setD 0 fun _ s => conv (s.q 0)]
  else [.load (st 0) 0 0]

/-- `translate_fst`: the m80 form, the register form and the m32 and m64
forms, with or without a pop. -/
def translate_fst (c : X87Cache) (a2 : IRInstr) : Script :=
  let isFstp := a2.opcode = .fstp ∨ a2.opcode = .fstp_stack
  let f80 := c.holdsF80At (c.resolveDepth 0)
  let body : Script :=
    if a2.op0.kind ≠ .register ∧ a2.op0.size = .s80 then
      if f80 then
        [.loadImage (st 0) 0,
          onGuest fun g s => g.storeF80 (env.ea true a2.op0 g) (s.q 0)]
      else
        [.load (st 0) 0 0,
          onGuest fun g s =>
            g.storeF80 (env.ea true a2.op0 g) (env.fp.toF80 (s.d 0))]
    else if a2.op0.kind = .register then
      let dst := a2.op0.depth
      if dst ≠ 0 ∧ f80 then
        [.loadImage (st 0) 0, .storeImage (st dst) 0,
          .noteNative (st dst)]
      else if dst ≠ 0 then [.load (st 0) 0 0, .store (st dst) 0]
      else []
    else
      -- a binary32 is rounded to odd first, so that it is rounded once
      loadSt0 (if a2.op0.size = .s32 then env.fp.ofF80Odd
               else env.fp.ofF80) c
        ++ [onGuest fun g s => env.storeFp a2.op0 g (s.d 0)]
  .begin :: body ++ onlyIf isFstp [.pop] ++ [.finish 1]

/-- `fist`, `fistp` and `fisttp` from the binary64 value. -/
def intStore (rc : Guest → BitVec 2) (pops : Bool) (c : X87Cache)
    (a2 : IRInstr) : Script :=
  .begin :: loadSt0 env.fp.ofF80 c
    ++ [onGuest fun g s => env.storeInt (rc g) a2.op0 g (s.d 0)]
    ++ onlyIf pops [.pop] ++ [.finish 1]

def translate_fist : X87Cache → IRInstr → Script :=
  intStore env env.rc false
def translate_fistp : X87Cache → IRInstr → Script :=
  intStore env env.rc true
def translate_fisttp : X87Cache → IRInstr → Script :=
  intStore env (fun _ => rcTruncate) true

/-- `translate_int_store_native`: from the 80-bit image. A transport
reply has no renaming and takes the slot at TOP. -/
def translate_int_store_native (rc : Guest → BitVec 2) (pops : Bool)
    (c : X87Cache) (a2 : IRInstr) : Script :=
  [.begin, .loadImage (if c.nativeSlots then st 0 else .raw 0) 0,
    onGuest fun g s =>
      env.storeBits a2.op0 g
        (env.fp.f80ToInt (rc g) (Env.intBits a2.op0) (s.q 0))]
    ++ onlyIf pops [.pop] ++ [.finish 1]

def translate_fist_native : X87Cache → IRInstr → Script :=
  translate_int_store_native env env.rc false
def translate_fistp_native : X87Cache → IRInstr → Script :=
  translate_int_store_native env env.rc true
def translate_fisttp_native : X87Cache → IRInstr → Script :=
  translate_int_store_native env (fun _ => rcTruncate) true

/-- `translate_fbstp`. -/
def translate_fbstp (a2 : IRInstr) : Script :=
  [.begin, .load (st 0) 0 0,
    onGuest fun g s =>
      g.storeF80 (env.ea (Env.addrIs64 a2.op0) a2.op0 g)
        (env.fp.toBcd g.rc (s.d 0)),
    .pop, .finish 1]

-- ======================================================== comparisons

/-- `translate_fcom`: one emitter for six opcodes. -/
def translate_fcom (a2 : IRInstr) : Script :=
  let twice := a2.opcode = .fcompp ∨ a2.opcode = .fucompp
  let once := a2.opcode = .fcomp ∨ a2.opcode = .fucomp
  .begin :: .load (st 0) 0 0 ::
    (if twice then [.load (st 1) 0 1]
     else if a2.op1.kind = .register then [.load (st a2.op1.depth) 0 1]
     else [setD 1 fun g _ => env.memFp true a2.op1 g])
    ++ compareCC env 0 1
    ++ (if twice then [.popN 2] else onlyIf once [.pop])
    ++ [.finish 1]

/-- `translate_ficom`. -/
def translate_ficom (a2 : IRInstr) : Script :=
  [.begin, .load (st 0) 0 0, setD 1 fun g _ => env.intOperand a2.op0 g]
    ++ compareCC env 0 1
    ++ onlyIf (a2.opcode = .ficomp) [.pop] ++ [.finish 1]

/-- `translate_ftst`: tags and TOP are written first. -/
def translate_ftst : Script :=
  .begin :: flushTags ++ [.flush .top .always, .load (st 0) 0 0,
    setD 1 fun _ _ => env.fp.zero] ++ compareCC env 0 1 ++ [.finish 1]

/-- `translate_fcomi`. -/
def translate_fcomi (a2 : IRInstr) : Script :=
  [.begin, .load (st 0) 0 0, .load (st a2.op1.depth) 0 1,
    onGuest fun g s =>
      { g with flags := (env.fp.cmp (s.d 0) (s.d 1)).flags }]
    ++ onlyIf (a2.opcode = .fcomip ∨ a2.opcode = .fucomip) [.pop]
    ++ [.finish 1]

/-- The condition of an `fcmov`. -/
def fcmovCond : Opcode → Nat
  | .fcmovb => 3
  | .fcmovbe => 9
  | .fcmove => 0
  | .fcmovnb => 2
  | .fcmovnbe => 8
  | .fcmovne => 1
  | .fcmovu => kFcmovCondPF
  | .fcmovnu => kFcmovCondNPF
  | _ => 14

/-- `translate_fcmov`: tags and TOP are written first. -/
def translate_fcmov (a2 : IRInstr) : Script :=
  .begin :: flushTags
    ++ [.flush .top .always, .load (st a2.op1.depth) 0 1,
      .load (st 0) 0 0,
      setD 0 fun g s =>
        if Denote.condHolds g.flags (fcmovCond a2.opcode) then s.d 1
        else s.d 0,
      .storeKey 0 0, .finish 1]

/-- The class bits of `translate_fxam`: by exponent and mantissa, with an
empty tag deciding before them, and the sign in C1. -/
def fxamClass (v : BitVec 64) (empty : Bool) : BitVec 16 :=
  let exp := v.extractLsb' 52 11
  let mant := v.extractLsb' 0 52
  let cls : BitVec 16 :=
    if empty then 0x4100
    else if exp = 0x7FF then (if mant = 0 then 0x0500 else 0x0100)
    else if exp = 0 then (if mant = 0 then 0x4000 else 0x4400)
    else 0x0400
  cls ||| (if v.msb then 0x0200 else 0)

/-- `translate_fxam`: TOP and a pending push tag are written first, the
tags of deferred pops are not. -/
def translate_fxam : Script :=
  [.begin, .flush .top .gprsValid, .flush .push .gprsValid,
    .load (st 0) 0 0, .ldTag 1,
    setX 0 fun _ s =>
      (fxamClass (s.d 0) (decide (s.x 1 = 3))).setWidth 64,
    .ccWrite 0, .finish 1]

-- ================================================= status and control

/-- `translate_fstsw`: neither `x87_begin` nor `x87_end`. -/
def translate_fstsw (a2 : IRInstr) : Script :=
  [.flush .top .baseCached, .flush .pops .baseCached,
    .flush .push .baseCached, .ldSw 0,
    onGuest fun g s =>
      if a2.op0.kind = .register then
        g.setReg16 a2.op0.index ((s.x 0).setWidth 16)
      else g.storeAt (env.ea true a2.op0 g) 2 ((s.x 0).setWidth 16)]

/-- `translate_fldcw`. -/
def translate_fldcw (a2 : IRInstr) : Script :=
  [.begin, .flush .top .always,
    onGuest fun g _ =>
      g.setControlWord (g.mem.load (env.ea true a2.op0 g) 2),
    .finish 1]

/-- `translate_fnstcw`. -/
def translate_fnstcw (a2 : IRInstr) : Script :=
  [.begin, onGuest fun g _ => g.storeAt (env.ea true a2.op0 g) 2 g.cw,
    .finish 1]

/-- `translate_fnop`. -/
def translate_fnop : Script := [.begin, .finish 1]

-- ============================================= exchange and TOP moves

/-- `translate_fxch`: renamed while a run is active, else swapped in
memory. -/
def translate_fxch (c : X87Cache) (a2 : IRInstr) : Script :=
  let depth := a2.op1.depth
  if depth = 0 then [.begin, .finish 1]
  else if c.active ∧ !env.disableDeferredFxch then
    [.begin, .exchange depth, .finish 1]
  else if c.holdsF80At 0 || c.holdsF80At depth then
    [.begin, .loadImage (.raw 0) 0, .loadImage (.raw depth) 1,
      .storeImage (.raw depth) 0, .storeImage (.raw 0) 1,
      .noteSwap 0 depth, .finish 1]
  else
    [.begin, .load (.raw 0) 0 0, .load (.raw depth) 1 1,
      .storeKey 1 0, .storeKey 0 1, .finish 1]

/-- `translate_fdecstp`. -/
def translate_fdecstp : Script :=
  .begin :: .flushPerm :: flushTags ++ [.rotate (-1), .finish 1]

/-- `translate_fincstp`. -/
def translate_fincstp : Script :=
  .begin :: .flushPerm :: flushTags ++ [.rotate 1, .finish 1]

/-- `translate_ffree`. -/
def translate_ffree (a2 : IRInstr) : Script :=
  .begin :: flushTags ++ [.free a2.op0.depth, .finish 1]

-- ===================================================== transcendental

/-- `translate_fscale`, and `fprem` and `fprem1` but for the codes. -/
def binaryOn0 (f : BitVec 64 → BitVec 64 → BitVec 64) (tail : Script) :
    Script :=
  [.begin, .load (st 0) 0 0, .load (st 1) 0 1,
    setD 0 fun _ s => f (s.d 0) (s.d 1)]
    ++ tail ++ [.store (st 0) 0, .finish 1]

/-- `translate_fpatan` and its like: `f(ST(1), ST(0))` into `ST(1)`, then
a pop. -/
def binaryPop (f : BitVec 64 → BitVec 64 → BitVec 64) : Script :=
  [.begin, .load (st 0) 0 0, .load (st 1) 0 1,
    setD 0 fun _ s => f (s.d 1) (s.d 0), .store (st 1) 0, .pop,
    .finish 1]

/-- `translate_fsin` and `translate_fcos`. -/
def trig (f : BitVec 64 → BitVec 64) : Script :=
  [.begin, .load (st 0) 0 0, setD 0 fun _ s => f (s.d 0)] ++ clearCC
    ++ [.store (st 0) 0, .finish 1]

/-- `translate_fsincos`, and `translate_fptan` with 1.0 for the second
result: one result in place, the other pushed. -/
def trigPair (f g : BitVec 64 → BitVec 64) : Script :=
  [.begin, .load (st 0) 0 0, setD 1 fun _ s => g (s.d 0),
    setD 0 fun _ s => f (s.d 0)] ++ clearCC
    ++ [.store (st 0) 0, .push, .store (.raw 0) 1, .finish 1]

def translate_fsin : Script := trig env.fp.sin
def translate_fcos : Script := trig env.fp.cos
def translate_fsincos : Script := trigPair env.fp.sin env.fp.cos
def translate_fptan : Script := trigPair env.fp.tan fun _ => env.fp.one
def translate_fpatan : Script := binaryPop env.fp.patan
def translate_fyl2x : Script := binaryPop env.fp.yl2x
def translate_fscale : Script := binaryOn0 env.fp.scale []
def translate_fprem : Script := binaryOn0 env.fp.prem clearCC
def translate_fprem1 : Script := binaryOn0 env.fp.prem1 clearCC

/-- `translate_fyl2xp1`: `ST(0)` is loaded once more for the correction
term. -/
def translate_fyl2xp1 : Script :=
  [.begin, .load (st 0) 0 0, .load (st 1) 0 1, .load (st 0) 0 2,
    setD 0 fun _ s => env.fp.yl2xp1 (s.d 1) (s.d 0), .store (st 1) 0,
    .pop, .finish 1]

/-- `translate_f2xm1`. -/
def translate_f2xm1 : Script :=
  [.begin, .load (st 0) 0 0, setD 0 fun _ s => env.fp.exp2m1 (s.d 0),
    .store (st 0) 0, .finish 1]

/-- `translate_fxtract`: the exponent is stored at depth 0 as it stands,
the significand pushed. -/
def translate_fxtract : Script :=
  [.begin, .load (st 0) 0 0, setD 1 fun _ s => env.fp.xtractSig (s.d 0),
    setD 0 fun _ s => env.fp.xtractExp (s.d 0),
    .store (.raw 0) 0, .push, .store (.raw 0) 1, .finish 1]

-- ================================================== the whole register file

/-- The eight depths, each handled by a few steps. -/
def eachDepth (f : Depth → Script) : Script :=
  X87Cache.depths.flatMap f

/-- Where the image of `ST(i)` lies in a save area. -/
def saveOffset (i : Depth) : BitVec 64 :=
  0x1C + 10 * i.setWidth 64

/-- `translate_fsave`: everything owed is written first, then the header
and the registers, then the state of `finit`. -/
def translate_fsave (c : X87Cache) (a2 : IRInstr) : Script :=
  let area := fun g => env.ea (Env.addrIs64 a2.op0) a2.op0 g
  let flushed := (perm_flush_before_stack_change c).1
  [.begin, .flush .top .always] ++ flushTags ++ [.flushPerm,
    setX 2 fun g _ => area g,
    onGuest fun g s => g.storeAt (s.x 2) 4 (g.cw.setWidth 32),
    .ldSw 0,
    onGuest fun g s => g.storeAt (s.x 2 + 4) 4 ((s.x 0).setWidth 32),
    .ldTw 0,
    onGuest fun g s =>
      (((g.storeAt (s.x 2 + 8) 4 ((s.x 0).setWidth 32)).storeAt
        (s.x 2 + 12) 4 0).storeAt (s.x 2 + 16) 8 0).storeAt
        (s.x 2 + 24) 4 0]
    ++ eachDepth (fun i =>
        if flushed.holdsF80At i then
          [.loadImage (.raw i) 0,
            onGuest fun g s => g.storeF80 (s.x 2 + saveOffset i) (s.q 0)]
        else
          [.load (.raw i) 0 0,
            onGuest fun g s =>
              g.storeF80 (s.x 2 + saveOffset i) (env.fp.toF80 (s.d 0))])
    ++ [onGuest fun g _ => g.setControlWord 0x037F,
      setX 0 fun _ _ => 0, .stSw 0, setX 0 fun _ _ => 0xFFFF, .stTw 0,
      .zeroTop, .finish 1]

/-- `translate_frstor`: what is owed is for state about to be replaced
and is forgotten. An isolated one neither loads TOP nor ends a run. -/
def translate_frstor (c : X87Cache) (a2 : IRInstr) : Script :=
  let area := fun g => env.ea (Env.addrIs64 a2.op0) a2.op0 g
  onlyIf c.active [.begin, .discard]
    ++ [setX 2 fun g _ => area g,
      onGuest fun g s => g.setControlWord (g.mem.load (s.x 2) 2),
      setX 0 fun g s => (g.mem.load (s.x 2 + 4) 2).setWidth 64,
      .stSw 0, .anchor 0,
      setX 0 fun g s => (g.mem.load (s.x 2 + 8) 2).setWidth 64,
      .stTw 0]
    ++ eachDepth (fun i =>
        setQ 0 (fun g s => g.mem.load (s.x 2 + saveOffset i) 10) ::
        (if c.nativeSlots then [.storeImage (.raw i) 0]
         else [setD 0 fun _ s => env.fp.ofF80 (s.q 0),
               .store (.raw i) 0]))
    ++ onlyIf c.active [.finish 1]

-- =========================================================== dispatch

/-- The dispatch of `translate_instruction_impl`: the emitter of an
opcode, `none` for one left to stock. -/
def single (c : X87Cache) (a2 : IRInstr) : Option Script :=
  match a2.opcode with
  | .fldz => some (translate_fldz env)
  | .fld1 => some (translate_fld1 env)
  | .fldl2e => some translate_fldl2e
  | .fldl2t => some translate_fldl2t
  | .fldlg2 => some translate_fldlg2
  | .fldln2 => some translate_fldln2
  | .fldpi => some translate_fldpi
  | .fld => some (translate_fld env c a2)
  | .fild => some (translate_fild env a2)
  | .fbld => some (translate_fbld env a2)
  | .fadd => some (translate_fadd env a2)
  | .faddp => some (translate_faddp env a2)
  | .fiadd => some (translate_fiadd env a2)
  | .fsub => some (translate_fsub env a2)
  | .fsubr => some (translate_fsubr env a2)
  | .fsubp => some (translate_fsubp env a2)
  | .fsubrp => some (translate_fsubrp env a2)
  | .fdiv => some (translate_fdiv env a2)
  | .fdivr => some (translate_fdivr env a2)
  | .fdivp => some (translate_fdivp env a2)
  | .fdivrp => some (translate_fdivrp env a2)
  | .fmul => some (translate_fmul env a2)
  | .fmulp => some (translate_fmulp env a2)
  | .fst | .fst_stack | .fstp | .fstp_stack =>
      some (translate_fst env c a2)
  | .fstsw => some (translate_fstsw env a2)
  | .fxam => some translate_fxam
  | .fdecstp => some translate_fdecstp
  | .fincstp => some translate_fincstp
  | .ffree => some (translate_ffree a2)
  | .fxtract => some (translate_fxtract env)
  | .fscale => some (translate_fscale env)
  | .fbstp => some (translate_fbstp env a2)
  | .frstor => some (translate_frstor env c a2)
  | .fsave => some (translate_fsave env c a2)
  | .fcom | .fcomp | .fcompp | .fucom | .fucomp | .fucompp =>
      some (translate_fcom env a2)
  | .fxch => some (translate_fxch env c a2)
  | .fchs => some (translate_fchs env)
  | .fabs => some (translate_fabs env)
  | .fsqrt => some (translate_fsqrt env)
  | .fistp => some (translate_fistp env c a2)
  | .fisttp => some (translate_fisttp env c a2)
  | .fidiv => some (translate_fidiv env a2)
  | .fimul => some (translate_fimul env a2)
  | .fisub => some (translate_fisub env a2)
  | .fidivr => some (translate_fidivr env a2)
  | .frndint => some (translate_frndint env)
  | .fcomi | .fcomip | .fucomi | .fucomip =>
      some (translate_fcomi env a2)
  | .ftst => some (translate_ftst env)
  | .fist => some (translate_fist env c a2)
  | .fisubr => some (translate_fisubr env a2)
  | .ficom | .ficomp => some (translate_ficom env a2)
  | .fcmovb | .fcmovbe | .fcmove | .fcmovnb | .fcmovnbe | .fcmovne
  | .fcmovu | .fcmovnu => some (translate_fcmov a2)
  | .fldcw => some (translate_fldcw env a2)
  | .fnstcw => some (translate_fnstcw env a2)
  | .fnop | .fdisi | .feni => some translate_fnop
  | .fsin => some (translate_fsin env)
  | .fcos => some (translate_fcos env)
  | .f2xm1 => some (translate_f2xm1 env)
  | .fpatan => some (translate_fpatan env)
  | .fsincos => some (translate_fsincos env)
  | .fptan => some (translate_fptan env)
  | .fyl2x => some (translate_fyl2x env)
  | .fyl2xp1 => some (translate_fyl2xp1 env)
  | .fprem => some (translate_fprem env)
  | .fprem1 => some (translate_fprem1 env)
  | _ => none

/-- The emitters on the 80-bit image that the dispatch may choose
instead: for every `fild` and integer store of a transport reply, and
with `native_slots` for an exact `fild` and for a store of an 80-bit
`ST(0)`. -/
def singleNative (c : X87Cache) (a2 : IRInstr) : Option Script :=
  match a2.opcode with
  | .fild => some (translate_fild_native env a2)
  | .fist => some (translate_fist_native env c a2)
  | .fistp => some (translate_fistp_native env c a2)
  | .fisttp => some (translate_fisttp_native env c a2)
  | _ => none

-- ================================================= the emitters, by shape

/-- The shapes an emitter comes in. -/
inductive Emitted (c : X87Cache) (a2 : IRInstr) : Script → Prop
  | loadConst (v : BitVec 64) : Emitted c a2 (loadConst v)
  | fld : Emitted c a2 (translate_fld env c a2)
  | fbld : Emitted c a2 (translate_fbld env a2)
  | fild : Emitted c a2 (translate_fild env a2)
  | fildNative : Emitted c a2 (translate_fild_native env a2)
  | arith (f : BitVec 64 → BitVec 64 → BitVec 64) :
      Emitted c a2 (arith env f a2)
  | arithp (f : BitVec 64 → BitVec 64 → BitVec 64) :
      Emitted c a2 (arithp f a2)
  | iarith (f : BitVec 64 → BitVec 64 → BitVec 64) :
      Emitted c a2 (iarith env f a2)
  | unary (f : Guest → BitVec 64 → BitVec 64) : Emitted c a2 (unary f)
  | fst : Emitted c a2 (translate_fst env c a2)
  | intStore (rc : Guest → BitVec 2) (pops : Bool) :
      Emitted c a2 (intStore env rc pops c a2)
  | intStoreNative (rc : Guest → BitVec 2) (pops : Bool) :
      Emitted c a2 (translate_int_store_native env rc pops c a2)
  | fbstp : Emitted c a2 (translate_fbstp env a2)
  | fcom : Emitted c a2 (translate_fcom env a2)
  | ficom : Emitted c a2 (translate_ficom env a2)
  | ftst : Emitted c a2 (translate_ftst env)
  | fcomi : Emitted c a2 (translate_fcomi env a2)
  | fcmov : Emitted c a2 (translate_fcmov a2)
  | fxam (h : a2.opcode = .fxam) : Emitted c a2 translate_fxam
  | fstsw (h : a2.opcode = .fstsw) : Emitted c a2 (translate_fstsw env a2)
  | fldcw : Emitted c a2 (translate_fldcw env a2)
  | fnstcw : Emitted c a2 (translate_fnstcw env a2)
  | fnop : Emitted c a2 translate_fnop
  | fxch : Emitted c a2 (translate_fxch env c a2)
  | fdecstp : Emitted c a2 translate_fdecstp
  | fincstp : Emitted c a2 translate_fincstp
  | ffree : Emitted c a2 (translate_ffree a2)
  | binaryOn0 (f : BitVec 64 → BitVec 64 → BitVec 64) :
      Emitted c a2 (binaryOn0 f [])
  | binaryOn0Codes (f : BitVec 64 → BitVec 64 → BitVec 64) :
      Emitted c a2 (binaryOn0 f clearCC)
  | binaryPop (f : BitVec 64 → BitVec 64 → BitVec 64) :
      Emitted c a2 (binaryPop f)
  | trig (f : BitVec 64 → BitVec 64) : Emitted c a2 (trig f)
  | trigPair (f g : BitVec 64 → BitVec 64) : Emitted c a2 (trigPair f g)
  | fyl2xp1 : Emitted c a2 (translate_fyl2xp1 env)
  | f2xm1 : Emitted c a2 (translate_f2xm1 env)
  | fxtract (h : a2.opcode = .fxtract) : Emitted c a2 (translate_fxtract env)
  | fsave : Emitted c a2 (translate_fsave env c a2)
  | frstor : Emitted c a2 (translate_frstor env c a2)

variable {env} {c : X87Cache} {a2 : IRInstr} {s : Script}

/-- The dispatch chooses among these shapes. -/
theorem single_shape (h : single env c a2 = some s) :
    Emitted env c a2 s := by
  unfold single at h
  split at h
  all_goals cases h
  all_goals first
    | with_reducible constructor; done
    | exact .arith _
    | exact .arithp _
    | exact .iarith _
    | exact .unary _
    | exact .loadConst _
    | exact .intStore _ _
    | exact .trig _
    | exact .trigPair _ _
    | exact .binaryPop _
    | exact .binaryOn0 _
    | exact .binaryOn0Codes _
    | exact .fxam ‹_›
    | exact .fstsw ‹_›
    | exact .fxtract ‹_›

theorem singleNative_shape (h : singleNative env c a2 = some s) :
    Emitted env c a2 s := by
  unfold singleNative at h
  split at h
  all_goals cases h
  all_goals constructor

end

end X87Sidecar
