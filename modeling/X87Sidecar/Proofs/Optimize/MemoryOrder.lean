/-
The reduction pass and the order of memory accesses.

`MemoryOrder.Kept` asks of a reduced Context that no absorbed load has
crossed a node that may disturb it, that each is issued where its own
operand says and yields what memory held at its own point, and that the
Context denotes what it did before. The code does this exactly when every
chain the pass finds is `Safe` and its pairs are wide, and checks neither:
it looks for bridge nodes, and takes stores, `fnstcw` and `fnstsw` for
harmless; and it does not look at address sizes before `lower` fetches
two elements with one load.
-/
import X87Sidecar.Proofs.Optimize.Reduce
import X87Sidecar.Proofs.Optimize.Status

namespace X87Sidecar

open Lib Denote
open Optimize hiding elemLoad

namespace MemoryOrder

-- ==================================================== what is promised

/-- Node `h` heads a reduction. -/
def HeadAt (l : List Node) (h : Nat) : Prop :=
  ∃ n, l[h]? = some n ∧ n.flags.fmaReduceHead = true

/-- The width of a reduction's loads. -/
def widthOf (l : List Node) (h : Nat) : Op :=
  (((l[h]?).bind fun n => l[n.in0.toNat]?).map Node.op).getD .LoadF32

/-- What the pass may make of the Context `c`. -/
structure Kept (c c' : Context) : Prop where
  /-- no absorbed load crosses a node that may disturb it -/
  unmoved : ∀ h, HeadAt c'.nodes h → Safe c'.nodes h (chainOf c'.nodes h)
  /-- each load a reduction issues is where the absorbed one's operand
  says, whatever the state -/
  aimed : ∀ h, HeadAt c'.nodes h →
    Aimed c'.nodes (widthOf c'.nodes h) (chainOf c'.nodes h)
  /-- the loads a reduction issues, stream by stream, read what the
  absorbed ones did, each at its own point -/
  loads : ∀ (V : Type) (fp : Fp V), fp.Reorders →
    ∀ (init : X87 V) (junk : Nat → V) (h : Nat), HeadAt c'.nodes h →
    ∀ side ∈ [Node.in0, Node.in1],
    streamVals fp c'.nodes (widthOf c'.nodes h)
        (execTo fp init c'.nodes (start init junk) h).guest side
        (chainOf c'.nodes h)
      = (streamLoads c'.nodes side (chainOf c'.nodes h)).map fun a =>
          (execTo fp init c.nodes (start init junk) (a.toNat + 1)).env
            a.toNat
  /-- the same stores, in the same order, and the same final stack -/
  same : ∀ (V : Type) (fp : Fp V), fp.Reorders →
    ∀ (init : X87 V) (junk : Nat → V),
    denote fp init junk c' = denote fp init junk c

/-- Every chain the pass comes to and accepts is safe, and no contiguous
pair of its loads has an address cut to 32 bits. -/
def Undisturbed (cfg : OptConfig) (c : Context) : Prop :=
  cfg.enableFmaReduce = true → (∀ n ∈ c.nodes, isBridge n.op = false) →
    ∀ i, i < c.nodes.length → ∀ chain,
      findChain (countUses c) (reduceTo c i) i = some chain →
      Safe (reduceTo c i) i chain
        ∧ WidePairs (reduceTo c i) (widthOf (reduceTo c i) i) chain

-- ========================================================== both ways

variable {cfg : OptConfig} {c : Context} {l l' : List Node}

/-- Tags do not enter into what is safe. -/
theorem safe_congr {h : Nat} {chain : List Nat}
    (hl : Pointwise (fun _ n m => ∃ h t, m = tagged h t n) l l') :
    Safe l' h chain ↔ Safe l h chain := by
  constructor
  · intro hs k hk m hm a ha ld hld q n hq hn hd hdist
    obtain ⟨_, hm', _, _, rfl⟩ := hl.get hm
    obtain ⟨_, hld', _, _, rfl⟩ := hl.get hld
    obtain ⟨_, hn', _, _, rfl⟩ := hl.get hn
    exact hs k hk _ hm' a ha _ hld' q _ hq hn' hd hdist
  · intro hs k hk m hm a ha ld hld q n hq hn hd hdist
    obtain ⟨_, hm', _, _, rfl⟩ := hl.was hm
    obtain ⟨_, hld', _, _, rfl⟩ := hl.was hld
    obtain ⟨_, hn', _, _, rfl⟩ := hl.was hn
    exact hs k hk _ hm' a ha _ hld' q _ hq hn' hd hdist

/-- The width of a chain is that of the loads of its reduction. -/
theorem widthOf_eq {uses : Nat → Int} {i : Nat} {elem : Op}
    {chain : List Nat} (hc : Chain l uses i elem chain) :
    widthOf l i = elem := by
  obtain ⟨rest, rfl, -⟩ := hc.start
  obtain ⟨m, hm⟩ := hc.member i (List.mem_cons_self ..)
  obtain ⟨ld, hld, hop, -⟩ := hm.left.node
  unfold widthOf
  rw [hm.at_, Option.bind_some, hld]
  exact hop

/-- Tags do not enter into it. -/
theorem widthOf_tagged
    (hl : Pointwise (fun _ n m => ∃ h t, m = tagged h t n) l l')
    (h : Nat) : widthOf l' h = widthOf l h := by
  have hop : ∀ k : Nat, l'[k]?.map Node.op = l[k]?.map Node.op :=
    hl.map_eq fun _ n m ⟨_, _, hm⟩ => by rw [hm]; rfl
  unfold widthOf
  cases hn : l'[h]? with
  | none =>
      rw [List.getElem?_eq_none_iff, hl.length] at hn
      rw [List.getElem?_eq_none hn]
      rfl
  | some n =>
      obtain ⟨n, hn₀, _, _, rfl⟩ := hl.was hn
      rw [hn₀]
      simp only [Option.bind_some, hop]
      rfl

/-- The Context the pass is given is well formed. -/
theorem beforeReduce_ok (cfg : OptConfig) (mode : Build.BridgeMode)
    (run : List IRInstr) :
    NodesOk (beforeReduce cfg (build mode run)).nodes := by
  have hdse := passDse_ok (build_ofRun mode run).wf.nodesOk
  unfold beforeReduce
  dsimp only
  split
  · exact passFma_ok hdse
  · exact hdse

theorem beforeReduce_slots (cfg : OptConfig) (mode : Build.BridgeMode)
    (run : List IRInstr) (d : Fin 8) (id : Nat)
    (h : (beforeReduce cfg (build mode run)).slotVal d = .node id) :
    id < (beforeReduce cfg (build mode run)).numNodes := by
  have hlen := (beforeReduce_status cfg (build mode run)).length
  have hslot : (beforeReduce cfg (build mode run)).slotVal
      = (build mode run).slotVal := by
    unfold beforeReduce
    dsimp only
    split <;> rfl
  rw [hslot] at h
  unfold Context.numNodes
  rw [hlen]
  exact (build_ofRun mode run).wf.slots d id h

/-- The pass does nothing, or every turn of it. -/
theorem passFmaReduce_cases (cfg : OptConfig) (c : Context) :
    passFmaReduce cfg c = c ∧ ¬(cfg.enableFmaReduce = true
        ∧ ∀ n ∈ c.nodes, isBridge n.op = false) ∨
      passFmaReduce cfg c
          = { c with nodes := reduceTo c c.nodes.length } ∧
        cfg.enableFmaReduce = true
          ∧ ∀ n ∈ c.nodes, isBridge n.op = false := by
  unfold passFmaReduce
  split
  · next h =>
    refine .inl ⟨rfl, fun ⟨hon, hno⟩ => ?_⟩
    rw [hon] at h
    simp only [Bool.not_true, Bool.false_or, List.any_eq_true] at h
    obtain ⟨n, hn, hb⟩ := h
    rw [hno n hn] at hb
    cases hb
  · next h =>
    simp only [Bool.or_eq_true, Bool.not_eq_true', List.any_eq_true,
      not_or, Bool.not_eq_false, not_exists, not_and,
      Bool.not_eq_true] at h
    exact .inr ⟨rfl, h.1, h.2⟩

/-- A chain whose pairs are wide is read where its operands say. -/
theorem aimed_of_wide {i : Nat} {chain : List Nat} {elem : Op}
    (hfind : findChain (countUses c) l i = some chain)
    (hc : Chain l (countUses c) i elem chain)
    (hwide : WidePairs l (widthOf l i) chain) : Aimed l elem chain := by
  rw [widthOf_eq hc] at hwide
  exact (aimed_iff (findChain_stepped hfind)).mpr hwide

/-- Folding safe chains, turn after turn. -/
theorem reduceTo_denote {V : Type} {fp : Fp V} {init : X87 V}
    {junk : Nat → V} (hok : NodesOk c.nodes)
    (hslots : ∀ d id, c.slotVal d = .node id → id < c.numNodes)
    (hsafe : ∀ i, i < c.nodes.length → ∀ chain,
      findChain (countUses c) (reduceTo c i) i = some chain →
      Safe (reduceTo c i) i chain
        ∧ WidePairs (reduceTo c i) (widthOf (reduceTo c i) i) chain)
    (hfp : fp.Reorders) {i : Nat} (hi : i ≤ c.nodes.length) :
    (∀ k, (execTo fp init (reduceTo c i) (start init junk) k).guest
        = (execTo fp init c.nodes (start init junk) k).guest) ∧
      denote fp init junk { c with nodes := reduceTo c i }
        = denote fp init junk c := by
  induction i with
  | zero => exact ⟨fun _ => rfl, rfl⟩
  | succ i ih =>
      obtain ⟨ih1, ih2⟩ := ih (Nat.le_of_succ_le hi)
      rw [reduceTo_succ]
      unfold reduceNode
      cases hfind : findChain (countUses c) (reduceTo c i) i with
      | none => exact ⟨ih1, ih2⟩
      | some chain =>
          obtain ⟨elem, hc⟩ := findChain_spec hfind
          obtain ⟨hsf, hwide⟩ := hsafe i hi chain hfind
          obtain ⟨h1, h2⟩ := Fold.denote init (start init junk)
            (reduceTo_walked hok i).tags hc hok hsf
            (aimed_of_wide hfind hc hwide) hfp junk hslots
          exact ⟨fun k => (h1 k).trans (ih1 k), h2.trans ih2⟩

/-- A chain, seen in the Context before the pass. -/
theorem absorbable_before {uses : Nat → Int} {elem : Op} {a : Int}
    (hok : NodesOk c.nodes)
    (hl : Pointwise (fun _ n m => ∃ h t, m = tagged h t n) c.nodes l)
    (h : Absorbable l uses elem a) : Absorbable c.nodes uses elem a := by
  refine ⟨h.nonneg, h.single, ?_⟩
  obtain ⟨ld, hld, hop, hd, -, hmem⟩ := h.node
  obtain ⟨n, hn, _, _, rfl⟩ := hl.was hld
  exact ⟨n, hn, hop, hd, (hok _ n hn).member, hmem⟩

/-- The chain behind a head: the pass found it, and `lower` walks it. -/
theorem reduceTo_head (hok : NodesOk c.nodes) {h : Nat}
    (hhead : HeadAt (reduceTo c c.nodes.length) h) :
    h < c.nodes.length ∧ ∃ chain,
      findChain (countUses c) (reduceTo c h) h = some chain
        ∧ chainOf (reduceTo c c.nodes.length) h = chain := by
  obtain ⟨n, hn, hhead⟩ := hhead
  have hwalked := reduceTo_walked hok c.nodes.length
  obtain ⟨-, -, hlt⟩ := hwalked.tags.head h n hn hhead
  obtain ⟨chain, hfind⟩ := hwalked.found h n hn hhead
  exact ⟨hlt, chain, hfind, (hwalked.made h hlt chain hfind).2⟩

/-- A load of one stream of a chain, read at the head of the chain and at
its own point before the pass. -/
theorem stream_hoisted {V : Type} {fp : Fp V} {init : X87 V}
    {junk : Nat → V} (hok : NodesOk c.nodes) {h : Nat} {elem : Op}
    {chain : List Nat}
    (hc : Chain (reduceTo c h) (countUses c) h elem chain)
    (hsafe : Safe (reduceTo c h) h chain) {side : Node → Int}
    (hside : side ∈ [Node.in0, Node.in1]) {a : Int}
    (ha : a ∈ streamLoads c.nodes side chain) :
    elemLoad fp c.nodes elem
        (execTo fp init c.nodes (start init junk) h).guest a
      = (execTo fp init c.nodes (start init junk) (a.toNat + 1)).env
          a.toNat := by
  have htags := (reduceTo_walked hok h).tags.same
  obtain ⟨k, hk, hka⟩ := List.mem_filterMap.mp ha
  obtain ⟨m, hm, rfl⟩ := Option.map_eq_some_iff.mp hka
  -- a member of the chain is what it was, but for its tags
  have hwas : ∀ j ∈ chain, ∀ n, c.nodes[j]? = some n →
      n.op = .FMAdd ∧ Absorbable c.nodes (countUses c) elem n.in0
        ∧ Absorbable c.nodes (countUses c) elem n.in1 := by
    intro j hj n hn
    obtain ⟨_, hmj⟩ := hc.member j hj
    obtain ⟨_, hn', _, _, rfl⟩ := htags.was hmj.at_
    rw [hn] at hn'
    cases hn'
    exact ⟨hmj.op, absorbable_before hok htags hmj.left,
      absorbable_before hok htags hmj.right⟩
  obtain ⟨-, hleft, hright⟩ := hwas k hk m hm
  have hhead : ∃ n, c.nodes[h]? = some n ∧ n.op = .FMAdd := by
    obtain ⟨rest, rfl, -⟩ := hc.start
    obtain ⟨_, hmh⟩ := hc.member h (List.mem_cons_self ..)
    obtain ⟨n, hn, -⟩ := htags.was hmh.at_
    exact ⟨n, hn, (hwas h (List.mem_cons_self ..) n hn).1⟩
  have hsafe := (safe_congr htags).mp hsafe
  simp only [List.mem_cons, List.not_mem_nil, or_false] at hside
  rcases hside with rfl | rfl
  · exact hleft.hoisted fp init _ (elemOp_load hc.width) hhead
      fun ld hld q n hq hn hd => hsafe k hk m hm m.in0 (by simp) ld hld
        q n hq hn hd
  · exact hright.hoisted fp init _ (elemOp_load hc.width) hhead
      fun ld hld q n hq hn hd => hsafe k hk m hm m.in1 (by simp) ld hld
        q n hq hn hd

/-- The loads of a reduction, each at its own point before the pass. -/
theorem reduceTo_loads {V : Type} {fp : Fp V} {init : X87 V}
    {junk : Nat → V} (hok : NodesOk c.nodes)
    (hslots : ∀ d id, c.slotVal d = .node id → id < c.numNodes)
    (hsafe : ∀ i, i < c.nodes.length → ∀ chain,
      findChain (countUses c) (reduceTo c i) i = some chain →
      Safe (reduceTo c i) i chain
        ∧ WidePairs (reduceTo c i) (widthOf (reduceTo c i) i) chain)
    (hfp : fp.Reorders) {h : Nat}
    (hhead : HeadAt (reduceTo c c.nodes.length) h) {side : Node → Int}
    (hside : side ∈ [Node.in0, Node.in1]) :
    let l := reduceTo c c.nodes.length
    streamVals fp l (widthOf l h)
        (execTo fp init l (start init junk) h).guest side (chainOf l h)
      = (streamLoads l side (chainOf l h)).map fun a =>
          (execTo fp init c.nodes (start init junk) (a.toNat + 1)).env
            a.toNat := by
  intro l
  obtain ⟨hlt, chain, hfind, hchain⟩ := reduceTo_head hok hhead
  obtain ⟨elem, hc⟩ := findChain_spec hfind
  obtain ⟨hsf, hwide⟩ := hsafe h hlt chain hfind
  have hsame := (reduceTo_walked hok c.nodes.length).tags.same
  have hthen := (reduceTo_walked hok h).tags.same
  have hwidth : widthOf l h = elem :=
    (widthOf_tagged hsame h).trans
      ((widthOf_tagged hthen h).symm.trans (widthOf_eq hc))
  have haim : Aimed c.nodes elem chain :=
    (aimed_tagged hthen).mp (aimed_of_wide hfind hc hwide)
  rw [hchain, hwidth, (reduceTo_denote hok hslots hsafe hfp
    (Nat.le_refl _)).1 h, streamVals_tagged hsame hside,
    streamLoads_tagged hsame hside, haim.streamVals hside]
  exact List.map_congr_left fun a ha => stream_hoisted hok hc hsf hside ha

/-- The reduction pass keeps the order of memory accesses, and with it
what the Context denotes, exactly when every chain it accepts is safe and
no contiguous pair of its loads is cut to 32 bits. -/
theorem fma_reduce_kept_iff (cfg : OptConfig) (mode : Build.BridgeMode)
    (run : List IRInstr) :
    Kept (beforeReduce cfg (build mode run))
        (passFmaReduce cfg (beforeReduce cfg (build mode run)))
      ↔ Undisturbed cfg (beforeReduce cfg (build mode run)) := by
  have hok := beforeReduce_ok cfg mode run
  have hslots := beforeReduce_slots cfg mode run
  generalize beforeReduce cfg (build mode run) = c at hok hslots
  have hwalked := reduceTo_walked hok c.nodes.length
  rcases passFmaReduce_cases cfg c with ⟨hc, hoff⟩ | ⟨hc, hon, hno⟩
  · -- nothing is tagged
    have hnone : ∀ h, ¬HeadAt c.nodes h := by
      rintro h ⟨n, hn, hhead⟩
      rw [(hok h n hn).head] at hhead
      cases hhead
    rw [hc]
    constructor
    · intro _ hon hno
      exact absurd ⟨hon, hno⟩ hoff
    · intro _
      exact ⟨fun h hh => absurd hh (hnone h),
        fun h hh => absurd hh (hnone h),
        fun _ _ _ _ _ h hh => absurd hh (hnone h),
        fun _ _ _ _ _ => rfl⟩
  · rw [hc]
    constructor
    · intro hkept _ _ i hi chain hfind
      obtain ⟨hhead, hchain⟩ := hwalked.made i hi chain hfind
      have hthen := (reduceTo_walked hok i).tags.same
      obtain ⟨elem, hfound⟩ := findChain_spec hfind
      constructor
      · have hun := hkept.unmoved i hhead
        dsimp only at hun
        rw [hchain] at hun
        exact (safe_congr hthen).mpr
          ((safe_congr hwalked.tags.same).mp hun)
      · have haim := hkept.aimed i hhead
        dsimp only at haim
        rw [hchain, widthOf_tagged hwalked.tags.same,
          ← widthOf_tagged hthen, aimed_tagged hwalked.tags.same,
          ← aimed_tagged hthen] at haim
        exact (aimed_iff (findChain_stepped hfind)).mp haim
    · intro hund
      have hsafe := hund hon hno
      refine ⟨fun h hhead => ?_, fun h hhead => ?_,
        fun V fp hfp init junk h hhead side hside =>
          reduceTo_loads hok hslots hsafe hfp hhead hside,
        fun V fp hfp init junk =>
          (reduceTo_denote hok hslots hsafe hfp (Nat.le_refl _)).2⟩
      · obtain ⟨hlt, chain, hfind, hchain⟩ := reduceTo_head hok hhead
        dsimp only
        rw [hchain]
        exact (safe_congr hwalked.tags.same).mpr
          ((safe_congr (reduceTo_walked hok h).tags.same).mp
            (hsafe h hlt chain hfind).1)
      · obtain ⟨hlt, chain, hfind, hchain⟩ := reduceTo_head hok hhead
        have hthen := (reduceTo_walked hok h).tags.same
        dsimp only
        rw [hchain, widthOf_tagged hwalked.tags.same,
          ← widthOf_tagged hthen, aimed_tagged hwalked.tags.same,
          ← aimed_tagged hthen]
        exact (aimed_iff (findChain_stepped hfind)).mpr
          (hsafe h hlt chain hfind).2

-- ------------------------------------------------------ a hoisted load

/-- Machine words for values, with wrapping arithmetic. -/
def words : Fp (BitVec 64) where
  ofF32 b := b.setWidth 64
  ofF64 b := b
  ofI16 b := b.signExtend 64
  ofI32 b := b.signExtend 64
  ofI64 b := b
  toF32 v := v.setWidth 32
  toF64 v := v
  toI16 _ v := v.setWidth 16
  toI32 _ v := v.setWidth 32
  toI64 _ v := v
  zero := 0
  one := 1
  add a b := a + b
  sub a b := a - b
  mul a b := a * b
  div a b := a / b
  fma a b c := c + a * b
  fms a b c := c - a * b
  fnms a b c := a * b - c
  neg a := -a
  abs a := a
  sqrt a := a
  rndint _ a := a
  sin a := a
  cos a := a
  tan a := a
  patan a b := a + b
  yl2x a b := a * b
  scale a b := a + b
  cmp a b := if a = b then .eq else if a.toNat < b.toNat then .lt else .gt

theorem words_reorders : words.Reorders where
  add_zero x := BitVec.add_zero x
  fma_add a b x y := by
    show x + a * b + y = x + y + a * b
    ac_rfl
  add_fma a b x y := by
    show x + (y + a * b) = x + y + a * b
    rw [BitVec.add_assoc]
  fma_comm a b c d x := by
    show x + c * d + a * b = x + a * b + c * d
    ac_rfl

/-- A dot product of two terms, with `ST(1)` stored over the second
element of a vector between them. -/
def storeBetween : List IRInstr :=
  [{ opcode := .fld, numOperands := 1, op0 := .based .s32 0 0 },
   { opcode := .fmul, numOperands := 1, op0 := .based .s32 3 0 },
   { opcode := .faddp, numOperands := 2, op0 := .st 1, op1 := .st 0 },
   { opcode := .fld, numOperands := 2, op0 := .st 0, op1 := .st 1 },
   { opcode := .fstp, numOperands := 1, op0 := .based .s32 0 4 },
   { opcode := .fld, numOperands := 1, op0 := .based .s32 0 4 },
   { opcode := .fmul, numOperands := 1, op0 := .based .s32 3 4 },
   { opcode := .faddp, numOperands := 2, op0 := .st 1, op1 := .st 0 }]

/-- Seven in `ST(1)`, and a one for it to be multiplied by. -/
def sevenInSt1 : X87 (BitVec 64) where
  guest := { Guest.blank with
    regs := fun r => if r = 3 then 0x1000 else 0
    mem := fun a => if a = 0x1004 then 1 else 0 }
  st d := if d = 1 then 7 else 0
  empty _ := false

/-- Both passes that contract multiply-adds enabled. -/
def contracting : OptConfig :=
  { enableFmaContract := true, enableFmaReduce := true }

/-- The load after the store is issued at the head, before it. -/
theorem not_fma_reduce_kept_store :
    (build {} storeBetween).consumed = 8 ∧
      ¬Kept (beforeReduce contracting (build {} storeBetween))
        (passFmaReduce contracting
          (beforeReduce contracting (build {} storeBetween))) := by
  refine ⟨by decide, fun h => ?_⟩
  have hsame := h.same (BitVec 64) words words_reorders sevenInSt1
    (fun _ => 0)
  have hafter : (denote words sevenInSt1 (fun _ => 0)
      (passFmaReduce contracting
        (beforeReduce contracting (build {} storeBetween)))).slot 0
      = some 0 := by decide
  have hbefore : (denote words sevenInSt1 (fun _ => 0)
      (beforeReduce contracting (build {} storeBetween))).slot 0
      = some 7 := by decide
  rw [hsame, hbefore] at hafter
  exact absurd hafter (by decide)

end MemoryOrder

end X87Sidecar
