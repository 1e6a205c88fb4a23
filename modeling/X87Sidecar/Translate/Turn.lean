/-
One turn of the translator (`translate_instruction_impl`) and the walk
over a block that the turns make.

A turn starts a run where none is active, then lets the IR, a fusion or a
single emitter cover the next instructions, and counts them off. A reply
goes on with further turns as long as its run is active
(`translate_instruction`). What the rest of the translator decides from
things not modelled here (how much the pressure model grants, what the
slot planner converts, whether two runs may be bridged) is an input of
the turn.

The walk keeps, beside the cache, how many instructions of the current
run are still to come; the translator itself has only its counter.
-/
import X87Sidecar.Translate.CompileRun
import X87Sidecar.Translate.Fusion

namespace X87Sidecar

open Lib

-- ======================================================= what is fixed

/-- The deferred state that the IR gate may write out on its own. -/
inductive GateFlush
  | topDirty | deferredPop | permDirty
  deriving DecidableEq, Repr

/-- What the turns of a block read of the configuration. -/
structure TranslatorConfig where
  env : Env
  fusion : FusionConfig
  opt : OptConfig
  /-- `native_slots` -/
  nativeSlots : Bool
  /-- `native_transport` -/
  nativeTransport : Bool
  /-- `disable_x87_cache` -/
  cacheDisabled : Bool
  /-- `disable_x87_ir` -/
  irDisabled : Bool
  /-- `force_x87_ir_gate` -/
  forceGate : Bool
  /-- `x87_ir_gate_flush_threshold_*` -/
  gateThreshold : GateFlush → Nat
  /-- `rollback_allowed`; a permutation is always rolled back -/
  rollbackAllowed : GateFlush → Bool
  /-- `enable_bridge_v2` -/
  bridges : Build.BridgeMode

/-- What decides a turn besides the cache and the instructions. -/
structure Choice where
  pressure : Pressure
  /-- the total of `lookahead_bridged`, where bridging is allowed -/
  bridgedTotal : Nat
  /-- the formats after `emit_slot_conversions` -/
  converted : Depth → X87SlotFmt
  /-- `soft_f80` or `exact_fild`: only the integer copies may be fused -/
  copiesOnly : Bool
  /-- the emitter on the 80-bit image is taken -/
  native : Bool

-- ======================================================== a new request

/-- The cache as a request finds it: whether its reply is a transport
reply or works on native slots, whose formats start again as images
(`NativeLayoutScope`). A turn in the middle of a run belongs to the
request that began it. -/
def X87Cache.entered (cfg : TranslatorConfig) (c : X87Cache)
    (instrs : List IRInstr) : X87Cache :=
  if c.active then c
  else
    let transport := cfg.nativeTransport && isNativeTransportRun instrs
    if cfg.nativeSlots && !transport then
      { c with
        nativeTransport := transport, nativeSlots := true, topRel := 0,
        slotFmt := fun _ => .native }
    else { c with nativeTransport := transport, nativeSlots := false }

-- ======================================================= starting a run

/-- `x87_accesses_memory`. -/
def x87_accesses_memory (i : IRInstr) : Bool :=
  i.operands.any fun op => op.kind = .memRef ∨ op.kind = .absMem

/-- `precise_window` from the head of the instructions left. -/
def precise_window (instrs : List IRInstr) (limit : Nat) : Nat :=
  1 + (((instrs.drop 1).take (limit - 1)).takeWhile
    fun i => !x87_accesses_memory i).length

section
variable (cfg : TranslatorConfig) (c : X87Cache) (instrs : List IRInstr)
  (x : Choice)

/-- A reply that ends before each later memory access. -/
def split : Bool := c.nativeSlots && cfg.fusion.preciseSplit

/-- How many instructions the run that starts here has. -/
def runLength : Nat :=
  let run := if c.nativeTransport && cfg.fusion.preciseFaults then 1
    else lookahead instrs
  if split cfg c then precise_window instrs run else run

/-- A run is looked for: none is active and the cache is on. -/
def starts : Bool := !c.active && !cfg.cacheDisabled

/-- The cache with its run set up. -/
def setUpRun : X87Cache :=
  if starts cfg c then
    let run := if c.nativeTransport && cfg.fusion.preciseFaults then 1
      else lookahead instrs
    X87Cache.setRun
      { c with topUnused := cfg.nativeSlots && onlyCw (instrs.take run) }
      (runLength cfg c instrs)
  else c

/-- The total of a bridged region worth an attempt; 0 for none. -/
def bridgePending : Nat :=
  if starts cfg c && !c.nativeTransport && !split cfg c
      && decide (1 ≤ runLength cfg c instrs)
      && decide (runLength cfg c instrs < x.bridgedTotal)
  then X87Cache.int16Count x.bridgedTotal else 0

-- ============================================================= the IR

/-- The gate: refused, or open, perhaps after a flush. -/
def irGate (c : X87Cache) : Option (Option GateFlush) :=
  let due (f : GateFlush) : Bool :=
    c.gprsValid && decide (cfg.gateThreshold f ≤ c.runRemaining)
  if cfg.forceGate then some none
  else if c.runRemaining < 3 then none
  else if c.topDirty then
    if due .topDirty then some (some .topDirty) else none
  else if c.deferredPopCount ≠ 0 then
    if due .deferredPop && decide (c.deferredPopCount ≤ 2)
    then some (some .deferredPop) else none
  else if c.permDirty then
    if due .permDirty then some (some .permDirty) else none
  else some none

/-- The cache after the gate's flush. -/
def GateFlush.emit : GateFlush → Emitter
  | .topDirty => settle .top
  | .deferredPop => settle .pops
  | .permDirty => x87_emit_perm_flush

/-- Is the flush taken back when the IR takes nothing? -/
def GateFlush.rolledBack : GateFlush → Bool
  | .permDirty => true
  | f => cfg.rollbackAllowed f

/-- The instructions a turn covers and the cache before they are counted
off. -/
structure Turn where
  count : Nat
  cache : X87Cache

/-- The bridged attempt, all or nothing, and the cache when it fails. -/
def bridgedAttempt (total : Nat) (c : X87Cache) :
    X87Cache × Option Turn :=
  if !cfg.irDisabled && decide (0 < total) && !c.topDirty
      && !c.tagPushPending && decide (c.deferredPopCount = 0)
      && !c.permDirty then
    match compile_run x.pressure cfg.opt cfg.bridges true
        (c.setRun total) instrs total with
    | some ctx => (c, some ⟨ctx.consumed, (c.setRun total).lowered⟩)
    | none =>
        let plain := X87Cache.int16Count (runLength cfg c instrs)
        ({ c with runRemaining := if 2 ≤ plain then plain else 0 }, none)
  else (c, none)

/-- The attempt on the run itself, and the cache when it fails. -/
def irAttempt (c : X87Cache) : X87Cache × Option Turn :=
  if !cfg.irDisabled && !c.nativeTransport && c.active then
    match irGate cfg c with
    | none => (c, none)
    | some f =>
        let flushed := match f with
          | some f => (f.emit c).1
          | none => c
        match compile_run x.pressure cfg.opt {} false flushed instrs
            c.runRemaining with
        | some ctx => (c, some ⟨ctx.consumed, flushed.lowered⟩)
        | none =>
            (match f with
              | some f => if f.rolledBack cfg then c else flushed
              | none => c, none)
  else (c, none)

-- ================================================== emitters and fusions

/-- The instructions a fusion may reach. -/
def fusionWindow (c : X87Cache) : List IRInstr :=
  if split cfg c then instrs.take (precise_window instrs 8) else instrs

/-- The fusions allowed on this request. -/
def fusionConfig (c : X87Cache) : FusionConfig :=
  if c.nativeTransport || x.copiesOnly then
    { cfg.fusion with
      disabled := fun id =>
        cfg.fusion.disabled id || decide (id ≠ .fild_fistp) }
  else cfg.fusion

/-- The slots that the next emitter reads converted. -/
def convertSlots (c : X87Cache) : X87Cache :=
  if c.nativeSlots then { c with slotFmt := x.converted } else c

/-- The emitter of a single instruction, on the 80-bit image where that is
wanted and there is one. -/
def singleEmitter (c : X87Cache) (i : IRInstr) : Option Script :=
  (if x.native then singleNative cfg.env c i else none).or
    (single cfg.env c i)

/-- The emitter of a turn, and how many instructions it covers. -/
def chosen (c : X87Cache) : Option Fused :=
  (try_peephole cfg.env (fusionConfig cfg x c) c
      (fusionWindow cfg instrs c)).or
    (instrs.head?.bind fun i =>
      (singleEmitter cfg x c i).map fun s => ⟨1, s⟩)

/-- The cache when the bridged attempt is over and has taken nothing. -/
def afterBridge : X87Cache :=
  (bridgedAttempt cfg instrs x (bridgePending cfg c instrs x)
    (setUpRun cfg c instrs)).1

/-- The cache the emitter of a turn finds, when the IR has taken nothing
either. -/
def atEmitter : X87Cache :=
  convertSlots x (irAttempt cfg instrs x (afterBridge cfg c instrs x)).1

/-- What the emitter of a turn does. -/
def Fused.turn (c : X87Cache) (f : Fused) : Turn :=
  ⟨f.count, (f.script.emit c).1⟩

/-- What the IR takes of a turn, bridged or not. -/
def irTurn : Option Turn :=
  (bridgedAttempt cfg instrs x (bridgePending cfg c instrs x)
      (setUpRun cfg c instrs)).2
  <|> (irAttempt cfg instrs x (afterBridge cfg c instrs x)).2

/-- One turn: `none` for an instruction left to stock. -/
def turn : Option Turn :=
  irTurn cfg c instrs x
  <|> (chosen cfg instrs x (atEmitter cfg c instrs x)).map
      (Fused.turn (atEmitter cfg c instrs x))

end

-- ============================================================= the walk

/-- `n` ticks. -/
def X87Cache.ticks (c : X87Cache) : Nat → X87Cache
  | 0 => c
  | n + 1 => c.tick.ticks n

/-- `flush_run_and_release` but for its tick: an instruction counted into a
run was declined, and the run ends before it. -/
def flush_run (c : X87Cache) : X87Cache :=
  (Script.emit [.begin, .finish 1] { c with runRemaining := 1 }).1

/-- Where the translator stands in a block. -/
structure Walk where
  cache : X87Cache
  /-- the instructions from here on -/
  rest : List IRInstr
  /-- how many of the current run are still to come -/
  left : Nat

namespace Walk

/-- At the start of a block. -/
def start (block : List IRInstr) : Walk := ⟨{}, block, 0⟩

variable (cfg : TranslatorConfig) (w : Walk) (x : Choice)

/-- The cache a turn finds. -/
def found : X87Cache := w.cache.entered cfg w.rest

/-- What a turn does. -/
def turn : Option Turn := X87Sidecar.turn cfg (w.found cfg) w.rest x

/-- The instructions left of the run a turn works on. -/
def runLeft : Nat :=
  if starts cfg (w.found cfg) then runLength cfg (w.found cfg) w.rest
  else w.left

/-- The cache at the end of a turn and what is still to be counted off. An
instruction declined in the middle of a run ends the run before it. -/
def uncounted : X87Cache × Nat :=
  match w.turn cfg x with
  | some t => (t.cache, t.count)
  | none =>
      let c := atEmitter cfg (w.found cfg) w.rest x
      if w.cache.active then (flush_run c, 1) else (c, 0)

/-- How many instructions a turn is done with; stock does the one declined,
unless it is asked for again. -/
def covered : Nat :=
  match w.turn cfg x with
  | some t => t.count
  | none => if w.cache.active then 0 else 1

/-- The walk after one turn. -/
def step : Walk where
  cache := (w.uncounted cfg x).1.ticks (w.uncounted cfg x).2
  rest := w.rest.drop (w.covered cfg x)
  left :=
    match w.turn cfg x with
    | some t => w.runLeft cfg - t.count
    | none => 0

end Walk

end X87Sidecar
