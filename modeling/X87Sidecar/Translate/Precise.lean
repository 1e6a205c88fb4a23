/-
Replies under precise faults (`Translator.cpp`).

A fault is recovered by rolling back to the start of a reply, so with
`X87_PRECISE_FAULTS=2` and native slots a reply ends before every memory
access but that of its first instruction, and that one is probed before
the reply changes any state.
-/
import X87Sidecar.Lib.Memory
import X87Sidecar.Translate.Turn

namespace X87Sidecar

-- ========================================================== the accesses

/-- The operand kinds that `compute_operand_address` takes. -/
def IROperand.isAddress (op : IROperand) : Bool :=
  op.kind = .memRef ∨ op.kind = .absMem ∨ op.kind = .immediate

/-- An instruction accesses memory: it has an operand that
`compute_operand_address` takes. -/
def IRInstr.usesMemory (i : IRInstr) : Bool :=
  i.operands.any (·.isAddress)

/-- `x87_access_bytes`. -/
def x87_access_bytes (i : IRInstr) (op : IROperand) : Nat :=
  match i.opcode with
  | .fbld | .fbstp => 10
  | .fsave | .frstor => 108
  | _ =>
      match op.size with
      | .s16 => 2
      | .s32 => 4
      | .s64 => 8
      | .s80 => 10
      | _ => 1

/-- `x87_writes_memory`. -/
def x87_writes_memory : Opcode → Bool
  | .fst | .fstp | .fist | .fistp | .fisttp | .fbstp | .fnstcw | .fstsw
  | .fsave => true
  | _ => false

-- ============================================================= the probe

/-- What a probe does: loads bytes, or loads them and stores them back. -/
inductive ProbeStep
  | load (a : BitVec 64) (n : Nat)
  | writeBack (a : BitVec 64) (n : Nat)

namespace ProbeStep

/-- The step reads a byte. -/
def reads : ProbeStep → BitVec 64 → Prop
  | .load a n, b | .writeBack a n, b => ∃ k < n, b = a + BitVec.ofNat 64 k

/-- The step writes a byte. -/
def writes : ProbeStep → BitVec 64 → Prop
  | .load _ _, _ => False
  | .writeBack a n, b => ∃ k < n, b = a + BitVec.ofNat 64 k

end ProbeStep

/-- The halfword that a 10- or 108-byte store is written back as, in the
registers `Xend` and `Xc` of the source. -/
def writeBackAddr (bytes : Nat) (Xaddr : BitVec 64) : BitVec 64 :=
  let Xend := Xaddr + BitVec.ofNat 64 (bytes - 1)
  let Xend := Xend >>> 12
  let Xc := Xaddr >>> 12
  let Xc := Xend - Xc
  let Xend := Xend <<< 12
  let Xend := Xend - Xaddr
  let Xend := Xend - 1
  let Xc := 0 - Xc
  let Xend := Xend &&& Xc
  Xaddr + Xend

/-- The code of `emit_fault_probe` for an access. -/
def probeCode (bytes : Nat) (store : Bool) (Xaddr : BitVec 64) :
    List ProbeStep :=
  if bytes = 2 ∨ bytes = 4 ∨ bytes = 8 then
    [if store then .writeBack Xaddr bytes else .load Xaddr bytes]
  else if store ∧ 1 < bytes then
    [.writeBack (writeBackAddr bytes Xaddr) 2]
  else
    (if 1 < bytes then [.load (Xaddr + BitVec.ofNat 64 (bytes - 1)) 1]
      else [])
    ++ [if store then .writeBack Xaddr 1 else .load Xaddr 1]

/-- The operand that `emit_fault_probe` probes. -/
def probedOperand (i : IRInstr) : Option IROperand :=
  i.operands.find? fun op => op.kind = .memRef ∨ op.kind = .absMem

/-- `emit_fault_probe`: nothing, or the probe of an operand at the address
that `compute_operand_address` gives. -/
def emit_fault_probe (i : IRInstr) :
    Option (IROperand × (BitVec 64 → List ProbeStep)) :=
  (probedOperand i).map fun op =>
    (op, probeCode (x87_access_bytes i op) (x87_writes_memory i.opcode))

-- ============================================================ the replies

/-- The probe that the reply to a request begins with: none in a transport
reply. -/
def Walk.probe (cfg : TranslatorConfig) (w : Walk) :
    Option (IROperand × (BitVec 64 → List ProbeStep)) :=
  if cfg.fusion.preciseFaults && !(w.found cfg).nativeTransport then
    w.rest.head?.bind emit_fault_probe
  else none

/-- How many instructions the reply to a request covers: it goes on as
long as its run is active (`translate_instruction`). -/
def Walk.reply (cfg : TranslatorConfig) : Walk → List Choice → Nat
  | _, [] => 0
  | w, x :: xs =>
      match w.turn cfg x with
      | none => 0
      | some t =>
          t.count + if (w.step cfg x).cache.active
            then reply cfg (w.step cfg x) xs else 0

end X87Sidecar
