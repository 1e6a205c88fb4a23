/-
The sidecar's copy of a block's decoded instructions
(`processTranslateRequest`, `IRCacheEntry` in
`rosetta_loader/src/sidecar.cpp`).

The translator works on a copy of the tracee's instruction array. One
copy is kept for each translation result and reused while the request's
block, array and length are the ones it was read for, the request is at
or past where the last reply told stock to continue, and the next
`kProbeWindow` instructions compare equal to the tracee's. Otherwise the
array is read again whole.

Instructions are compared as bytes, so they stay an arbitrary type with
decidable equality. The request's other inputs (the translation result,
the thread context, the translator) appear by whether they can be read
and by what the translator answers. Left out: statistics, diagnostic
dumps and the trace.
-/
import X87Sidecar.Lib.Visits
import Mathlib.Data.BitVec

namespace X87Sidecar.Sidecar

open Lib

variable {ι : Type}

/-- `IRCacheEntry`. -/
structure IRCacheEntry (ι : Type) where
  block : BitVec 64 := 0
  instrArray : BitVec 64 := 0
  numInstrs : Nat := 0
  /-- where the previous reply told stock to continue -/
  nextIdx : Nat := 0
  hash : BitVec 64 := 0
  hashValid : Bool := false
  hasBcd : Bool := false
  ir : List ι := []

/-- `TranslateRequest`: the fields the instruction copy depends on. -/
structure Request where
  trAddr : BitVec 64
  block : BitVec 64
  instrArray : BitVec 64
  numInstrs : Nat
  insnIdx : Nat
  deriving DecidableEq

/-- The tracee while it waits for a reply: its instruction arrays, and
which reads of them succeed. -/
structure Tracee (ι : Type) where
  instr : BitVec 64 → Nat → ι
  readable : BitVec 64 → Nat → Nat → Bool := fun _ _ _ => true

/-- `readTranslate` of `count` instructions from index `start`. -/
def Tracee.fetch (t : Tracee ι) (array : BitVec 64) (start count : Nat) :
    Option (List ι) :=
  if t.readable array start count then
    some ((List.range' start count).map (t.instr array))
  else none

/-- A request with what it meets: the tracee, whether the translation
result and the thread context can be read, and the translator's answer
to the instructions it is given. -/
structure Turn (ι : Type) where
  req : Request
  tracee : Tracee ι
  trReads : Bool := true
  tcoReads : Bool := true
  translate : List ι → Option Nat

/-- The settings a request consults, and the two functions of the stream
they go by. -/
structure Config (ι : Type) where
  alwaysNone : Bool := false
  noIrCache : Bool := false
  /-- `X87_STOCK_BCD` -/
  stockBcd : Bool := true
  /-- one of the hash or opcode lists is set -/
  hashLists : Bool := false
  stockHash : BitVec 64 → Bool := fun _ => false
  stockOp : ι → Bool := fun _ => false
  /-- `fbld` or `fbstp` -/
  isBcd : ι → Bool
  /-- `profile::hash_ir_stream` -/
  hashIrStream : List ι → BitVec 64

/-- `kMaxNumInstrs`. -/
def kMaxNumInstrs : Nat := 0x10000

/-- `kProbeWindow`. -/
def kProbeWindow : Nat := 32

/-- The instructions compared before a reuse. -/
def probeWindow (req : Request) : Nat :=
  if kProbeWindow < req.numInstrs - req.insnIdx then kProbeWindow
  else req.numInstrs - req.insnIdx

/-- Whether the copy came from the cache or from the tracee. -/
inductive Source
  | reused | filled
  deriving DecidableEq, Repr

/-- Read the array whole; a failed read leaves a blank entry. -/
def refill (cfg : Config ι) (t : Turn ι) (irc : IRCacheEntry ι) :
    Option Source × IRCacheEntry ι :=
  match t.tracee.fetch t.req.instrArray 0 t.req.numInstrs with
  | none => (none, {})
  | some ir =>
      (some .filled,
        { irc with
          block := t.req.block, instrArray := t.req.instrArray,
          numInstrs := t.req.numInstrs, nextIdx := t.req.insnIdx + 1,
          hashValid := false, hasBcd := ir.any cfg.isBcd, ir := ir })

/-- The entry's keys are the request's, which is at or past the
frontier. -/
def mayReuse (cfg : Config ι) (req : Request) (irc : IRCacheEntry ι) :
    Bool :=
  !cfg.noIrCache && irc.block == req.block
    && irc.instrArray == req.instrArray && irc.numInstrs == req.numInstrs
    && decide (irc.nextIdx ≤ req.insnIdx)

section Requests

variable [DecidableEq ι]

/-- The instructions for a request: where they came from, or nothing
when a read failed, and the entry that holds them. -/
def serve (cfg : Config ι) (t : Turn ι) (irc : IRCacheEntry ι) :
    Option Source × IRCacheEntry ι :=
  if mayReuse cfg t.req irc then
    match t.tracee.fetch t.req.instrArray t.req.insnIdx
        (probeWindow t.req) with
    | none => (none, irc)
    | some probe =>
        if probe = (irc.ir.drop t.req.insnIdx).take (probeWindow t.req) then
          (some .reused, { irc with nextIdx := t.req.insnIdx + 1 })
        else refill cfg t irc
  else refill cfg t irc

/-- The checks before the instructions are looked at. -/
def admitted (cfg : Config ι) (t : Turn ι) : Bool :=
  !cfg.alwaysNone && t.req.numInstrs != 0
    && decide (t.req.numInstrs ≤ kMaxNumInstrs)
    && decide (t.req.insnIdx < t.req.numInstrs) && t.trReads

/-- The hash is taken once for each fill, when a list asks for it. -/
def hashed (cfg : Config ι) (irc : IRCacheEntry ι) : IRCacheEntry ι :=
  if cfg.hashLists && !irc.hashValid then
    { irc with hash := cfg.hashIrStream irc.ir, hashValid := true }
  else irc

/-- The block goes to stock whole: by hash, by opcode, or for its BCD
instructions. -/
def stockHit (cfg : Config ι) (irc : IRCacheEntry ι) : Bool :=
  (cfg.hashLists && (cfg.stockHash irc.hash || irc.ir.any cfg.stockOp))
    || (cfg.stockBcd && irc.hasBcd)

/-- What a request hands to the translator, and where it has it from. -/
def translated (cfg : Config ι) (t : Turn ι) (irc : IRCacheEntry ι) :
    Option (Source × List ι) :=
  if admitted cfg t then
    match serve cfg t irc with
    | (none, _) => none
    | (some source, irc) =>
        if t.tcoReads && !stockHit cfg (hashed cfg irc) then
          some (source, irc.ir)
        else none
  else none

/-- The entry after a request. -/
def afterRequest (cfg : Config ι) (t : Turn ι) (irc : IRCacheEntry ι) :
    IRCacheEntry ι :=
  if admitted cfg t then
    match serve cfg t irc with
    | (none, irc) => irc
    | (some _, irc) =>
        if t.tcoReads then
          let irc := hashed cfg irc
          if stockHit cfg irc then irc
          else match t.translate irc.ir with
            | none => irc
            | some n => { irc with nextIdx := n }
        else irc
  else irc

/-- `g_irCache`: one entry for each translation result. -/
abbrev IrCache (ι : Type) := BitVec 64 → IRCacheEntry ι

/-- `processTranslateRequest`, as far as the instruction copies go. -/
def process (cfg : Config ι) (m : IrCache ι) (t : Turn ι) : IrCache ι :=
  fun tr => if tr = t.req.trAddr then afterRequest cfg t (m tr) else m tr

/-- The copies after a sequence of requests. -/
def afterAll (cfg : Config ι) (past : List (Turn ι)) : IrCache ι :=
  final (process cfg) (fun _ => {}) past

end Requests

end X87Sidecar.Sidecar
