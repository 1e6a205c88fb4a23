/-
A translate request across the process boundary
(`processTranslateRequest` in `rosetta_loader/src/sidecar.cpp`; its
`allocAndAppendInParent` is `Buffer.relocate`).

The tracee's translation result names seven growable buffers: the
instruction buffer and six fixup lists. The translator runs on empty
local lists and a local instruction buffer whose end starts at the
tracee's, so that the offsets in fixups count in the tracee's
coordinates. On a reply the emitted bytes and the pushed fixups are
appended to the tracee's buffers, then the translation result is written
back. The run cache of the thread is kept here, in `g_x87Cache`.

A buffer is its start and the distances of its end and capacity from it.
What the translator works on besides (the request's instructions, the
thread context, the register masks and the other fields of the result)
is opaque, and it may answer anything.
-/
import X87Sidecar.Lib.Remote
import X87Sidecar.Translate.Cache

namespace X87Sidecar.Sidecar

open Lib

variable {ρ ι : Type}

/-- `insn_buf` among the seven buffers. -/
abbrev insnBuf : Fin 7 := 0

/-- `TranslationResult`: `insn_buf`, then the six lists of `kFixupLists`,
and the rest. -/
structure TranslationResult (ρ : Type) where
  bufs : Fin 7 → Buffer
  rest : ρ

/-- The tracee: its memory and its translation results by address. -/
structure World (ρ : Type) where
  remote : Remote
  tr : Nat → TranslationResult ρ

/-- The tracee and the run caches kept for its threads
(`g_x87Cache`). -/
structure SidecarState (ρ : Type) where
  world : World ρ
  caches : Nat → X87Cache

/-- An operation on the tracee's memory. -/
def onRemote {α : Type} (m : Keep Remote α) : Keep (World ρ) α := fun w =>
  ((m w.remote).1, { w with remote := (m w.remote).2 })

/-- `readTranslate` of a translation result. -/
def readTr (addr : Nat) : Keep (World ρ) (TranslationResult ρ) := fun w =>
  match onRemote Remote.next w with
  | (some _, w) => (some (w.tr addr), w)
  | (none, w) => (none, w)

/-- `writeTranslate` of a translation result. -/
def writeTr (addr : Nat) (tr : TranslationResult ρ) :
    Keep (World ρ) Unit := fun w =>
  match onRemote Remote.next w with
  | (some _, w) => (some (), { w with tr := Function.update w.tr addr tr })
  | (none, w) => (none, w)

/-- What the translator leaves. -/
structure TranslatorOutput (ρ : Type) where
  /-- where stock is to continue, or a decline -/
  result : Option (BitVec 64)
  /-- bytes emitted past the end the translator was given -/
  emitted : Nat
  /-- the local buffer was outgrown -/
  insnGrew : Bool
  /-- the local instruction buffer, by offset -/
  buf : Nat → BitVec 8
  /-- bytes pushed to each list -/
  pushedBytes : Fin 6 → Nat
  pushed : Fin 6 → Nat → BitVec 8
  rest : ρ
  cache : X87Cache

/-- What the write-back appends to each buffer. -/
def TranslatorOutput.tails (out : TranslatorOutput ρ) (origInsnEnd : Nat) :
    Fin 7 → Buffer.Tail :=
  Fin.cons
    { move := out.insnGrew, size := out.emitted,
      bytes := fun i => out.buf (origInsnEnd + i) }
    fun i => { size := out.pushedBytes i, bytes := out.pushed i }

/-- A request with what it meets besides the tracee's memory. -/
structure Exchange (ρ ι : Type) where
  trAddr : Nat
  /-- the checks before any read pass -/
  admitted : Bool := true
  /-- the instructions and the thread context, when they could be read -/
  inputs : Option ι
  /-- the block goes to stock whole -/
  stockHit : ι → Bool := fun _ => false
  translate : (insnEnd : Nat) → ρ → X87Cache → ι → TranslatorOutput ρ

/-- The translator's run on a translation result. -/
def Exchange.output (x : Exchange ρ ι) (tr : TranslationResult ρ)
    (cache : X87Cache) (ir : ι) : TranslatorOutput ρ :=
  x.translate (tr.bufs insnBuf).live tr.rest cache ir

/-- The appends of a reply, the instruction buffer's first. A decline
appends nothing. -/
def writeBack (tr : TranslationResult ρ) (out : TranslatorOutput ρ) :
    Keep (World ρ) (TranslationResult ρ) :=
  match out.result with
  | none => pure { tr with rest := out.rest }
  | some _ => do
      let bufs ← onRemote (Buffer.appendAll (out.tails (tr.bufs insnBuf).live)
        (List.finRange 7) tr.bufs)
      pure { bufs := bufs, rest := out.rest }

/-- `CacheBypassGuard`: a reply that skipped the translator. -/
def bypass (caches : Nat → X87Cache) (addr : Nat) : Nat → X87Cache :=
  Function.update caches addr (caches addr).invalidate

/-- The half of a request after the translator ran: the appends, the run
cache, the translation result. -/
def answer (trAddr : Nat) (tr : TranslationResult ρ)
    (out : TranslatorOutput ρ) (s : SidecarState ρ) :
    Option (BitVec 64) × SidecarState ρ :=
  match writeBack tr out s.world with
  | (none, w) => (none, { s with world := w })
  | (some tr', w) =>
      let caches := Function.update s.caches trAddr out.cache
      match writeTr trAddr tr' w with
      | (none, w) => (none, { world := w, caches := caches })
      | (some _, w) => (out.result, { world := w, caches := caches })

/-- `processTranslateRequest`. -/
def processTranslateRequest (x : Exchange ρ ι) (s : SidecarState ρ) :
    Option (BitVec 64) × SidecarState ρ :=
  if !x.admitted then (none, s)
  else match readTr x.trAddr s.world with
    | (none, w) => (none, { s with world := w })
    | (some tr, w) =>
        match x.inputs with
        | none => (none, { world := w, caches := bypass s.caches x.trAddr })
        | some ir =>
            if x.stockHit ir then
              (none, { world := (writeTr x.trAddr tr w).2
                       caches := bypass s.caches x.trAddr })
            else
              answer x.trAddr tr (x.output tr (s.caches x.trAddr) ir)
                { s with world := w }

end X87Sidecar.Sidecar
