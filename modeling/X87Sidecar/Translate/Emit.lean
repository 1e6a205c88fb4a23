/-
The helpers every emitter is written in (`TranslatorX87Internal.hpp`,
`TranslatorX87Helpers.cpp`) and the steps of an emitter.

A helper changes the cache and emits code. An emitter of one instruction,
or of a fused group, is a list of steps; each step is one helper call of
the source, and `Act.emit` is what that call does.
-/
import X87Sidecar.Lib.Cycle
import X87Sidecar.Translate.Code

namespace X87Sidecar

open Lib

/-- An emitter of the translator. -/
abbrev Emitter := Emit X87Cache Insn

-- ===================================================== begin and end

/-- `x87_begin`. -/
def x87_begin : Emitter := fun c =>
  if 0 < c.runRemaining ∧ c.gprsValid then (c, [])
  else if 0 < c.runRemaining then
    ({ c with gprsValid := true }, if c.topUnused then [] else [.loadTop])
  else (c, [.loadTop])

/-- The moves of a permutation flush as code. -/
def Insn.ofMove (image : Bool) : Move Depth → Insn
  | .save d => .save image d
  | .copy dst src => .move image dst src
  | .restore d => .restore image d

/-- The formats after a permutation flush: images take theirs along, and
binary64 stores leave binary64 behind. -/
def X87Cache.permutedFmt (c : X87Cache) : Depth → X87SlotFmt :=
  if c.nativeSlots then
    if c.permMovesF80 then
      fun r => c.slotFmt (c.trackedSlot (c.perm (r - c.topRel)))
    else fun r =>
      if c.perm (r - c.topRel) = r - c.topRel then c.slotFmt r else .f64
  else c.slotFmt

/-- `x87_emit_perm_flush`. -/
def x87_emit_perm_flush : Emitter := fun c =>
  ({ c.resetPerm with slotFmt := c.permutedFmt },
    (cycleMoves c.perm 8 X87Cache.depths []).map
      (Insn.ofMove c.permMovesF80))

/-- Where `plan_slots` has got to: TOP, the renaming, the formats and the
slot it follows. -/
structure SlotSim where
  top : Depth
  perm : Depth → Depth
  fmt : Depth → X87SlotFmt
  /-- the slot pushed first, if it is still there -/
  pushed : Option Depth

/-- The flush of `plan_slots`. -/
def SlotSim.flush (s : SlotSim) : SlotSim :=
  { s with
    fmt := fun r => s.fmt (s.top + s.perm (r - s.top))
    pushed := s.pushed.map fun r =>
      (X87Cache.depths.find? fun i => s.top + s.perm i = r).elim r
        fun i => s.top + i
    perm := id }

/-- `perm_flush_before_stack_change`. -/
def perm_flush_before_stack_change : Emitter :=
  Emit.when (·.permDirty) x87_emit_perm_flush

/-- The three updates that may be owed besides the permutation. -/
inductive Pending
  | top | pops | push
  deriving DecidableEq, Repr

/-- Is the update owed? -/
def X87Cache.owes (c : X87Cache) : Pending → Bool
  | .top => c.topDirty
  | .pops => 0 < c.deferredPopCount
  | .push => c.tagPushPending

/-- Settle an owed update: `emit_store_top`,
`emit_x87_tag_set_empty_batch` (no tag for a count below 0),
`emit_x87_tag_clear`. -/
def settle : Pending → Emitter
  | .top => fun c => ({ c with topDirty := false }, [.storeTop])
  | .pops => fun c =>
      ({ c with deferredPopCount := 0 },
        [.tagSetEmptyBatch c.deferredPopCount.toNat])
  | .push => fun c => ({ c with tagPushPending := false }, [.tagClear])

/-- `x87_flush_top`, `x87_flush_deferred_pops`, and the part of
`x87_flush_tags` that is the push's. -/
def flush (p : Pending) : Emitter := Emit.when (·.owes p) (settle p)

/-- `x87_end`: settle everything when the run ends within `consumed`
instructions. -/
def x87_end (consumed : Nat) : Emitter :=
  Emit.when (fun c => decide (c.runRemaining ≤ consumed))
    (Emit.all [perm_flush_before_stack_change, flush .pops, flush .push,
      flush .top])

-- ====================================================== push and pop

/-- `x87_push`. -/
def x87_push : Emitter :=
  (Emit.ite (·.active)
    (Emit.all [flush .push, flush .pops, flush .top,
      perm_flush_before_stack_change,
      fun c =>
        ({ c with topDirty := true, tagPushPending := true },
          [.addTop (-1)])])
    (Emit.code [.addTop (-1), .storeTop, .tagClear])).seq
    (Emit.modify X87Cache.notePush)

/-- The three ways an active run pops: a push still pending is cancelled,
with or without its TOP; otherwise the tag is owed. -/
def popActive : Emitter := fun c =>
  if c.tagPushPending && c.topDirty then
    ({ c with tagPushPending := false, topDirty := false }, [.addTop 1])
  else if c.tagPushPending then
    ({ c with tagPushPending := false, topDirty := false },
      [.addTop 1, .storeTop])
  else
    ({ c with deferredPopCount := X87Cache.int8 (c.deferredPopCount + 1),
              topDirty := true }, [.addTop 1])

/-- `x87_pop`. -/
def x87_pop : Emitter :=
  (Emit.ite (·.active)
    (perm_flush_before_stack_change.seq popActive)
    (fun c =>
      ({ c with topDirty := false },
        [.tagSetEmpty 0, .addTop 1, .storeTop]))).seq
    (Emit.modify X87Cache.notePop)

/-- `x87_slot_note_pop(n)`. -/
def X87Cache.notePopN (c : X87Cache) : Nat → X87Cache
  | 0 => c
  | n + 1 => (c.notePop).notePopN n

/-- `x87_pop_n`. -/
def x87_pop_n (n : Nat) : Emitter :=
  Emit.all [flush .pops, flush .push,
    Emit.ite (·.active)
      (perm_flush_before_stack_change.seq fun c =>
        ({ c with topDirty := true },
          [.tagSetEmptyNext n, .addTop (BitVec.ofNat 3 n)]))
      (fun c =>
        ({ c with topDirty := false },
          [.tagSetEmptyNext n, .addTop (BitVec.ofNat 3 n), .storeTop])),
    Emit.modify (·.notePopN n)]

-- ============================================== the steps of an emitter

/-- A depth handed to a slot access: through the renaming, or as it is. -/
inductive StDepth
  /-- `resolve_depth(d)` -/
  | resolve (d : Depth)
  /-- `resolve_depth(d + 1)`: past the last depth it reads what lies after
  `perm`, which is `perm_dirty` -/
  | next (d : Depth)
  /-- `d` -/
  | raw (d : Depth)

/-- The depth accessed. -/
def StDepth.at (c : X87Cache) : StDepth → Depth
  | .resolve d => c.resolveDepth d
  | .next d =>
      if d = 7 then (if c.permDirty then 1 else 0)
      else c.resolveDepth (d + 1)
  | .raw d => d

/-- The condition a flush call stands under. -/
inductive Guard
  | always
  /-- `gprs_valid` (`translate_fxam`) -/
  | gprsValid
  /-- `run_remaining > 0 && gprs_valid` (`translate_fstsw`) -/
  | baseCached
  /-- `!(tag_push_pending && top_dirty)` -/
  | unlessPush
  deriving DecidableEq, Repr

/-- Does the condition hold? -/
def Guard.holds (c : X87Cache) : Guard → Bool
  | .always => true
  | .gprsValid => c.gprsValid
  | .baseCached => c.active && c.gprsValid
  | .unlessPush => !(c.tagPushPending && c.topDirty)

/-- One step of an emitter. FP registers, integer registers, images and
keys are numbered as the emitter likes. -/
inductive Act
  /-- `x87_begin` -/
  | begin
  /-- `x87_end` -/
  | finish (consumed : Nat)
  /-- settle an owed update under a condition -/
  | flush (p : Pending) (g : Guard)
  /-- `perm_flush_before_stack_change` -/
  | flushPerm
  /-- `x87_push` -/
  | push
  /-- `x87_pop` -/
  | pop
  /-- `x87_pop_n` -/
  | popN (n : Nat)
  /-- TOP moved by `fincstp` or `fdecstp` -/
  | rotate (k : Depth)
  /-- the renaming of `ST(0)` and `ST(d)` swapped -/
  | exchange (d : Depth)
  /-- a slot's tag set empty (`translate_ffree`) -/
  | free (d : Depth)
  /-- `emit_load_st` -/
  | load (d : StDepth) (k r : Nat)
  /-- `emit_store_st` -/
  | store (d : StDepth) (r : Nat)
  /-- `emit_store_st_at_offset` -/
  | storeKey (k r : Nat)
  /-- the ten bytes of a slot loaded -/
  | loadImage (d : StDepth) (q : Nat)
  /-- and stored -/
  | storeImage (d : StDepth) (q : Nat)
  /-- `x87_slot_note_native` -/
  | noteNative (d : StDepth)
  /-- `x87_slot_note_swap` -/
  | noteSwap (a b : Depth)
  /-- the status word read -/
  | ldSw (x : Nat)
  /-- the status word written, `frstor` and `fsave` -/
  | stSw (x : Nat)
  /-- the tag word read -/
  | ldTw (x : Nat)
  /-- the tag word written -/
  | stTw (x : Nat)
  /-- the tag of the slot at TOP read -/
  | ldTag (x : Nat)
  /-- TOP read from its register (the fusions that patch AX) -/
  | ldTop (x : Nat)
  /-- the condition codes written -/
  | ccWrite (x : Nat)
  /-- guest memory, guest registers and arithmetic -/
  | compute (f : Guest → Scratch → Guest × Scratch)
  /-- everything owed forgotten (`translate_frstor`) -/
  | discard
  /-- TOP taken from a status word just written; the tracker starts again
  with images in every slot (`translate_frstor`) -/
  | anchor (x : Nat)
  /-- TOP set to 0; the tracker starts again with every slot dead
  (`translate_fsave`) -/
  | zeroTop
  /-- `run_remaining--`, the fusions that absorb an `fxch` -/
  | shorten

/-- `x87_slot_note_rotate` and the update of TOP. -/
def rotateTop (k : Depth) : Emitter := fun c =>
  ({ (c.noteRotate k) with topDirty := true }, [.addTop k])

/-- The slot that `translate_ffree` tags. -/
def freeSlot (d : Depth) : Emitter := fun c =>
  (c.noteFree (c.resolveDepth d), [.tagSetEmpty (c.resolveDepth d)])

/-- Swap `perm[0]` and `perm[d]`. -/
def X87Cache.swapPerm (c : X87Cache) (d : Depth) : X87Cache :=
  { c with perm := c.perm ∘ Equiv.swap 0 d, permDirty := true }

/-- Forget what is owed. -/
def X87Cache.discard (c : X87Cache) : X87Cache :=
  { c with
    topDirty := false, tagPushPending := false, deferredPopCount := 0,
    perm := id, permDirty := false }

/-- What a step emits. -/
def Act.emit : Act → Emitter
  | .begin => x87_begin
  | .finish n => x87_end n
  | .flush p g => Emit.when (g.holds ·) (X87Sidecar.flush p)
  | .flushPerm => perm_flush_before_stack_change
  | .push => x87_push
  | .pop => x87_pop
  | .popN n => x87_pop_n n
  | .rotate k => rotateTop k
  | .exchange d => Emit.modify (·.swapPerm d)
  | .free d => freeSlot d
  | .load d k r => fun c => (c, [.ldSt (d.at c) k r])
  | .store d r => fun c => (c.noteWrite (d.at c), [.stSt (d.at c) r])
  | .storeKey k r => Emit.code [.stKey k r]
  | .loadImage d q => fun c => (c, [.ldImage (d.at c) q])
  | .storeImage d q => fun c => (c, [.stImage (d.at c) q])
  | .noteNative d => Emit.modify fun c => c.noteNative (d.at c)
  | .noteSwap a b => Emit.modify (·.noteSwap a b)
  | .ldSw x => Emit.code [.ldSw x]
  | .stSw x => Emit.code [.stSw x]
  | .ldTw x => Emit.code [.ldTw x]
  | .stTw x => Emit.code [.stTw x]
  | .ldTag x => Emit.code [.ldTag x]
  | .ldTop x => Emit.code [.ldTop x]
  | .ccWrite x => Emit.code [.ccWrite x]
  | .compute f => Emit.code [.compute f]
  | .discard => Emit.modify X87Cache.discard
  | .anchor x => fun c => (c.noteReanchor .native, [.topOfX x])
  | .zeroTop => fun c =>
      ({ (c.noteReanchor .dead) with topDirty := false }, [.zeroTop])
  | .shorten =>
      Emit.modify fun c => { c with runRemaining := c.runRemaining - 1 }

/-- An emitter's steps. -/
abbrev Script := List Act

/-- What an emitter emits. -/
def Script.emit (s : Script) : Emitter := Emit.all (s.map Act.emit)

/-- The cache and the machine after one step of an emitter, its code run
at once. -/
def Act.run (a : Act) (s : X87Cache × Machine) : X87Cache × Machine :=
  a.emit.run Insn.exec s

end X87Sidecar
