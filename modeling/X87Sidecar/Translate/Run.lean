/-
A run of single instructions, as translated and as meant.

The translator goes through the run with its cache; the machine runs the
code of each emitter when it is emitted, which comes to the same as
running it later. Beside it stands the machine that does every operation
at once: TOP and the tags are in memory when an operation is over, and
TOP's register never differs from the status word.
-/
import X87Sidecar.Translate.Single

namespace X87Sidecar

open Lib

-- ======================================================= the run

/-- A request: the instruction, and whether the dispatch takes its
emitter on the 80-bit image. -/
structure Call where
  instr : IRInstr
  native : Bool := false

/-- The emitter of a request. -/
def Call.script (env : Env) (c : X87Cache) (call : Call) :
    Option Script :=
  if call.native then singleNative env c call.instr
  else single env c call.instr

/-- `top_unused`: with `native_slots`, a run of control word moves. -/
def onlyCw (instrs : List IRInstr) : Bool :=
  instrs.all fun i => i.opcode = .fnstcw ∨ i.opcode = .fldcw

/-- The cache when a run starts: nothing owed, no register loaded. -/
def X87Cache.freshRun (transport slots : Bool)
    (fmt : Depth → X87SlotFmt) (calls : List Call) : X87Cache :=
  X87Cache.setRun
    { topUnused := slots && onlyCw (calls.map (·.instr)),
      nativeTransport := transport, nativeSlots := slots,
      slotFmt := fmt }
    calls.length

/-- The steps of an emitter, one after the other. -/
def Script.run (s : Script) (st : X87Cache × Machine) :
    X87Cache × Machine :=
  s.foldl (fun st a => a.run st) st

/-- One request of a run. An opcode left to stock changes nothing here. -/
def Call.run (env : Env) (st : X87Cache × Machine) (call : Call) :
    X87Cache × Machine :=
  match call.script env st.1 with
  | none => st
  | some s => ((s.run st).1.tick, (s.run st).2)

/-- The requests of a run. -/
def runCalls (env : Env) (calls : List Call) (st : X87Cache × Machine) :
    X87Cache × Machine :=
  calls.foldl (Call.run env) st

-- ================================================ everything at once

/-- TOP's register brought in line with the status word. -/
def Machine.sync (m : Machine) : Machine :=
  { m with wTop := topOf m.guest.sw }

/-- The code of the permutation flush, where one is pending. -/
def X87Cache.permCode (c : X87Cache) : List Insn :=
  (perm_flush_before_stack_change c).2

/-- What a step does when nothing about TOP and the tags is put off: a
push or a pop writes both, and there is nothing to flush or to forget.
The cache says where a depth lies and no more. -/
def Act.eagerCode (c : X87Cache) : Act → List Insn
  | .push =>
      (if c.active then c.permCode else [])
        ++ [.addTop (-1), .storeTop, .tagClear]
  | .pop =>
      (if c.active then c.permCode else [])
        ++ [.tagSetEmpty 0, .addTop 1, .storeTop]
  | .popN n =>
      (if c.active then c.permCode else [])
        ++ [.tagSetEmptyNext n, .addTop (BitVec.ofNat 3 n), .storeTop]
  | .rotate k => [.addTop k, .storeTop]
  | .flushPerm => c.permCode
  | .finish n => if c.runRemaining ≤ n then c.permCode else []
  | .begin | .flush _ _ | .discard | .anchor _ | .zeroTop => []
  | a => (a.emit c).2

/-- A step of the machine that puts nothing off. -/
def Act.eager (c : X87Cache) (a : Act) (m : Machine) : Machine :=
  (exec (a.eagerCode c) m).sync

/-- The same along the translator's cache. -/
def Act.eagerRun (a : Act) (st : X87Cache × Machine) :
    X87Cache × Machine :=
  ((a.emit st.1).1, a.eager st.1 st.2)

/-- The steps of an emitter. -/
def Script.eagerRun (s : Script) (st : X87Cache × Machine) :
    X87Cache × Machine :=
  s.foldl (fun st a => a.eagerRun st) st

/-- One request. -/
def Call.eagerRun (env : Env) (st : X87Cache × Machine) (call : Call) :
    X87Cache × Machine :=
  match call.script env st.1 with
  | none => st
  | some s => ((s.eagerRun st).1.tick, (s.eagerRun st).2)

/-- The requests of a run. -/
def eagerCalls (env : Env) (calls : List Call)
    (st : X87Cache × Machine) : X87Cache × Machine :=
  calls.foldl (Call.eagerRun env) st

-- ============================================ what the stack has room for

/-- A push finds its slot empty and a pop finds it full. -/
def Act.fits (e : Machine) : Act → Bool
  | .push => tagOf e.tw (e.wTop - 1) = 3
  | .pop => tagOf e.tw e.wTop ≠ 3
  | .popN n =>
      (List.range n).all fun i =>
        tagOf e.tw (e.wTop + BitVec.ofNat 3 i) ≠ 3
  | _ => true

/-- Every push and every pop of an emitter does. -/
def Script.fits : Script → X87Cache × Machine → Bool
  | [], _ => true
  | a :: rest, st => a.fits st.2 && Script.fits rest (a.eagerRun st)

/-- Every push and every pop of a run does. -/
def callsFit (env : Env) : List Call → X87Cache × Machine → Bool
  | [], _ => true
  | call :: rest, st =>
      (match call.script env st.1 with
        | none => true
        | some s => s.fits st)
        && callsFit env rest (call.eagerRun env st)

-- ============================================= what memory and cache say

/-- The state that memory and the updates still owed denote. -/
def X87Cache.denote (c : X87Cache) (m : Machine) : Machine :=
  let tw := tagSetEmptyBatch m.tw m.wTop c.deferredPopCount.toNat
  { m with
    guest := { m.guest with
      sw := if c.topDirty then withTop m.guest.sw m.wTop
            else m.guest.sw },
    tw := if c.tagPushPending then tagClear tw m.wTop else tw }

/-- What holds of the cache and the two machines between two
instructions. -/
structure Denoted (c : X87Cache) (m e : Machine) : Prop where
  /-- memory and what is owed come to the state that puts nothing off -/
  state : { c.denote m with wTop := e.wTop } = e
  /-- a push's tag and pops' tags are never owed together -/
  apart : ¬(c.tagPushPending = true ∧ 0 < c.deferredPopCount)
  /-- once the run is over memory alone is the state -/
  ended : c.active = false → { m with wTop := e.wTop } = e

/-- A run of single instructions with TOP and the tags put off is one with
both at once, whatever the operands, the arithmetic and the slots'
formats, as long as the pushes and pops fit the stack. -/
def RefinesEager (transport slots : Bool) (fmt : Depth → X87SlotFmt)
    (calls : List Call) (m : Machine) : Prop :=
  let c := X87Cache.freshRun transport slots fmt calls
  ∀ env, callsFit env calls (c, m.sync) → ∀ n,
    let st := runCalls env (calls.take n) (c, m)
    Denoted st.1 st.2 (eagerCalls env (calls.take n) (c, m.sync)).2

/-- Every `fxam` of a run is reached with fewer than eight pops
deferred. -/
def FewAtFxam (transport slots : Bool) (fmt : Depth → X87SlotFmt)
    (calls : List Call) (m : Machine) : Prop :=
  ∀ env n call, calls[n]? = some call → call.instr.opcode = .fxam →
    (runCalls env (calls.take n)
      (X87Cache.freshRun transport slots fmt calls, m)).1.deferredPopCount
        < 8

end X87Sidecar
