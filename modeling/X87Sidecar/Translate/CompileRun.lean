/-
How much of a run the IR takes (`compile_run` in `X87IRLower.cpp`).

The run is built, optimised and measured, and when it needs more
registers than there are a shorter prefix is tried. The pressure model
itself (`peak_live_fprs`, `peak_live_gprs`) and the rematerialisation
that relieves it are parameters: nothing here depends on what they say.
So is the code `lower` emits; what `lower` does to the cache is
`X87Cache.lowered`.
-/
import X87Sidecar.IR.Optimize
import X87Sidecar.IR.Build
import X87Sidecar.Translate.Emit

namespace X87Sidecar

/-- A Context measured: the peak, and the node that first exceeded the
pool. -/
abbrev Peak := Nat × Option Nat

/-- What `compile_run` is told of registers. -/
structure Pressure where
  /-- free FP registers, the test clamp applied -/
  available : Nat
  /-- free integer registers, the test clamp applied -/
  gprAvailable : Nat
  /-- `peak_live_fprs` -/
  peakFprs : Context → Peak
  /-- `remat_relieve_fpr_pressure`: the nodes it leaves, when it changed
  some -/
  remat : Context → Option (List Node × List Nat)
  /-- `peak_live_gprs`, the registers the cache holds taken into account -/
  peakGprs : X87Cache → Context → Peak
  /-- `enable_ir_split` -/
  split : Bool
  /-- `enable_ir_remat` -/
  enableRemat : Bool

/-- `split_prefix_len`: the prefix that ends before the instruction whose
node overflowed, and at any rate a shorter one. -/
def split_prefix_len (ctx : Context) (overNode : Option Nat)
    (attemptLen : Nat) : Nat :=
  match overNode.bind (ctx.nodeSrc[·]?) with
  | some src => if src < attemptLen - 1 then src else attemptLen - 1
  | none => attemptLen - 1

/-- `kMaxSplitRetries`. -/
def kMaxSplitRetries : Nat := 4

section
variable (p : Pressure) (opt : OptConfig) (mode : Build.BridgeMode)
  (bridged : Bool) (c : X87Cache) (run : List IRInstr)

/-- The FPR gate: relief first, where it is on. -/
def relieved (ctx : Context) : Context :=
  if p.available < (p.peakFprs ctx).1 ∧ p.enableRemat then
    match p.remat ctx with
    | some (nodes, nodeSrc) => { ctx with nodes, nodeSrc }
    | none => ctx
  else ctx

/-- FP registers that the flush of a leftover permutation takes. -/
def flushFprs : Nat :=
  if c.permDirty then (if c.permMovesF80 then 4 else 2) else 0

/-- The initial depths that hold an 80-bit image, as `lower` finds them. -/
def withNativeDepths (ctx : Context) : Context :=
  if c.nativeSlots then
    { ctx with
      nativeDepths := fun d =>
        decide (c.fmtAt (c.perm (BitVec.ofNat 3 d.val)) = .native) }
  else ctx

/-- The attempts of `compile_run`, with so many retries left: the Context
that is lowered, `none` when the run is left to the single emitters. -/
def compileAttempts : Nat → Nat → Option Context
  | retries, len =>
      let built := build mode (run.take len)
      if !buildOk built || (bridged && decide (built.consumed ≠ len)) then
        none
      else
        let ctx := relieved p (withNativeDepths c (optimize opt built))
        let shorter (overNode : Option Nat) : Option Context :=
          let next := split_prefix_len ctx overNode len
          match retries with
          | 0 => none
          | retries + 1 =>
              if p.split && !bridged && decide (3 ≤ next) then
                compileAttempts retries next
              else none
        if p.available < (p.peakFprs ctx).1 then
          shorter (p.peakFprs ctx).2
        else if p.available < flushFprs c then none
        else if p.gprAvailable < (p.peakGprs c ctx).1 then
          shorter (p.peakGprs c ctx).2
        else some ctx

/-- `compile_run` on a run of a given length. -/
def compile_run (runLength : Nat) : Option Context :=
  compileAttempts p opt mode bridged c run kMaxSplitRetries runLength

end

/-- What `lower` leaves in the cache: all that was owed is written, and
with a run the registers are loaded. -/
def X87Cache.lowered (c : X87Cache) : X87Cache :=
  { c with
    gprsValid := c.gprsValid || c.active, topDirty := false,
    tagPushPending := false, deferredPopCount := 0, perm := id,
    permDirty := false }

-- ===================================================== how much is taken

theorem relieved_consumed (p : Pressure) (ctx : Context) :
    (relieved p ctx).consumed = ctx.consumed := by
  unfold relieved
  split
  · split
    · rfl
    · rfl
  · rfl

theorem withNativeDepths_consumed (c : X87Cache) (ctx : Context) :
    (withNativeDepths c ctx).consumed = ctx.consumed := by
  unfold withNativeDepths
  split
  · rfl
  · rfl

theorem optimize_consumed (opt : OptConfig) (ctx : Context) :
    (optimize opt ctx).consumed = ctx.consumed := by
  unfold optimize optimizeValues beforeReduce Optimize.passExactI64Copy
    Optimize.passFmaReduce
  dsimp only
  split <;> split <;> split <;> rfl

end X87Sidecar
