/-
The cross-instruction cache of a run (`X87Cache.h`, `X87Cache.cpp`): what
the translator knows, while it emits code, of the state that code will
find.

TOP lives in a register and its write-back may be owed (`top_dirty`), so
may the tag of the last push (`tag_push_pending`) and those of a row of
pops (`deferred_pop_count`); exchanges are kept as a renaming of depths
(`perm`). With `native_slots` the format of each physical slot is tracked
by its distance from TOP at the start of the reply (`slot_fmt`,
`top_rel`).

Register numbers, the profiler's tallies and the fields that only decide
how a request is declined are not part of it.
-/
import X87Sidecar.IR.Instr
import Mathlib.Logic.Function.Basic
import Mathlib.Logic.Equiv.Basic

namespace X87Sidecar

/-- A stack depth, or a slot by its distance from TOP. -/
abbrev Depth := BitVec 3

/-- `X87SlotFmt`: what a slot holds under `native_slots`. -/
inductive X87SlotFmt
  /-- `kSlotNative`: an 80-bit value -/
  | native
  /-- `kSlotF64`: the binary64 working value, in the low 64 bits -/
  | f64
  /-- `kSlotDead`: popped or freed in this reply, binary64 bits -/
  | dead
  /-- `kSlotDeadNative`: popped or freed in this reply, 80-bit bits -/
  | deadNative
  deriving DecidableEq, Repr

namespace X87SlotFmt

/-- `x87_slot_holds_f80`: the bytes are an 80-bit image, live or not. -/
def holdsF80 : X87SlotFmt → Bool
  | .native | .deadNative => true
  | .f64 | .dead => false

/-- `x87_slot_killed`: the format of a slot once popped or freed. -/
def killed (f : X87SlotFmt) : X87SlotFmt :=
  if f.holdsF80 then .deadNative else .dead

@[simp] theorem holdsF80_killed (f : X87SlotFmt) :
    f.killed.holdsF80 = f.holdsF80 := by
  cases f <;> rfl

end X87SlotFmt

/-- `X87Cache`. -/
structure X87Cache where
  /-- instructions of the run still to come; 0 when no run is active -/
  runRemaining : Nat := 0
  /-- the base and TOP registers hold what they are for -/
  gprsValid : Bool := false
  topDirty : Bool := false
  tagPushPending : Bool := false
  /-- an `int8_t`, counted up in `int8` -/
  deferredPopCount : Int := 0
  nativeTransport : Bool := false
  nativeSlots : Bool := false
  /-- the run holds only `fldcw` and `fnstcw`: TOP is never loaded -/
  topUnused : Bool := false
  topRel : Depth := 0
  slotFmt : Depth → X87SlotFmt := fun _ => .native
  perm : Depth → Depth := id
  permDirty : Bool := false

namespace X87Cache

/-- `active`. -/
def active (c : X87Cache) : Bool := 0 < c.runRemaining

/-- `reset_perm`. -/
def resetPerm (c : X87Cache) : X87Cache :=
  { c with perm := id, permDirty := false }

/-- `invalidate`. -/
def invalidate (c : X87Cache) : X87Cache :=
  { c with
    gprsValid := false, topDirty := false, tagPushPending := false,
    deferredPopCount := 0, runRemaining := 0,
    perm := id, permDirty := false }

/-- A count kept in an `int8_t`. -/
def int8 (n : Int) : Int := (n + 128) % 256 - 128

/-- A count kept in an `int16_t`; a negative one counts as nothing left. -/
def int16Count (n : Nat) : Nat := (BitVec.ofNat 16 n).toInt.toNat

/-- `set_run`: a run of one instruction is not a run. -/
def setRun (c : X87Cache) (runLength : Nat) : X87Cache :=
  if 2 ≤ runLength then { c with runRemaining := int16Count runLength }
  else c

/-- `tick`. What is still owed when the count runs out is forgotten, the
permutation apart. -/
def tick (c : X87Cache) : X87Cache :=
  if 0 < c.runRemaining then
    if c.runRemaining = 1 then
      { c with
        runRemaining := 0, gprsValid := false, topDirty := false,
        tagPushPending := false, deferredPopCount := 0 }
    else { c with runRemaining := c.runRemaining - 1 }
  else c

/-- `resolve_depth`: the depth that a logical depth is renamed to. -/
def resolveDepth (c : X87Cache) (d : Depth) : Depth :=
  if c.permDirty then c.perm d else d

-- ================================================== the slot tracker

/-- `tracked_slot`. -/
def trackedSlot (c : X87Cache) (d : Depth) : Depth := c.topRel + d

/-- The format at a depth. -/
def fmtAt (c : X87Cache) (d : Depth) : X87SlotFmt :=
  c.slotFmt (c.trackedSlot d)

/-- Set the format at a depth; the tracker is on with `native_slots`
only. -/
def noteFmt (c : X87Cache) (d : Depth) (f : X87SlotFmt) : X87Cache :=
  if c.nativeSlots then
    { c with slotFmt := Function.update c.slotFmt (c.trackedSlot d) f }
  else c

/-- `x87_slot_holds_f80_at`. -/
def holdsF80At (c : X87Cache) (d : Depth) : Bool :=
  c.nativeSlots && (c.fmtAt d).holdsF80

/-- `x87_slot_note_write`. -/
def noteWrite (c : X87Cache) (d : Depth) : X87Cache := c.noteFmt d .f64

/-- `x87_slot_note_native`. -/
def noteNative (c : X87Cache) (d : Depth) : X87Cache :=
  c.noteFmt d .native

/-- `x87_slot_note_free`. -/
def noteFree (c : X87Cache) (d : Depth) : X87Cache :=
  c.noteFmt d (c.fmtAt d).killed

/-- `x87_slot_note_rotate`. -/
def noteRotate (c : X87Cache) (delta : Depth) : X87Cache :=
  if c.nativeSlots then { c with topRel := c.topRel + delta } else c

/-- `x87_slot_note_push(1)`. -/
def notePush (c : X87Cache) : X87Cache := (c.noteRotate (-1)).noteFmt 0 .f64

/-- `x87_slot_note_pop(1)`. -/
def notePop (c : X87Cache) : X87Cache := (c.noteFree 0).noteRotate 1

/-- `x87_slot_note_swap`. -/
def noteSwap (c : X87Cache) (a b : Depth) : X87Cache :=
  if c.nativeSlots then
    { c with
      slotFmt := c.slotFmt
        ∘ Equiv.swap (c.trackedSlot a) (c.trackedSlot b) }
  else c

/-- `x87_slot_note_reanchor`. -/
def noteReanchor (c : X87Cache) (f : X87SlotFmt) : X87Cache :=
  if c.nativeSlots then { c with topRel := 0, slotFmt := fun _ => f }
  else c

/-- The eight depths. -/
def depths : List Depth := [0, 1, 2, 3, 4, 5, 6, 7]

/-- `x87_perm_moves_f80`: a slot the permutation moves holds an 80-bit
image. -/
def permMovesF80 (c : X87Cache) : Bool :=
  depths.any fun i => decide (c.perm i ≠ i) && c.holdsF80At i

end X87Cache

-- ============================================================= the run

/-- `is_handled_x87`: the opcodes a run is made of. -/
def isHandledX87 : Opcode → Bool
  | .fclex | .finit | .fldenv | .fstenv | .fxsave | .fxrstor
  | .mov | .lea | .movzx | .movsx | .movsxd | .wait | .add | .sub | .and
  | .or | .xor | .inc | .dec | .arpl | .other => false
  | _ => true

/-- `X87Cache::lookahead` from the head of the instructions left. -/
def lookahead : List IRInstr → Nat
  | [] => 0
  | i :: rest => if isHandledX87 i.opcode then lookahead rest + 1 else 0

/-- `is_native_transport_x87`. -/
def isNativeTransportX87 : Opcode → Bool
  | .fild | .fist | .fistp | .fisttp | .fldcw | .fnstcw | .fnop | .fdisi
  | .feni => true
  | _ => false

/-- `X87Cache::is_native_transport_run`. -/
def isNativeTransportRun (instrs : List IRInstr) : Bool :=
  decide (0 < lookahead instrs)
    && (instrs.take (lookahead instrs)).all fun i =>
         isNativeTransportX87 i.opcode

end X87Sidecar
