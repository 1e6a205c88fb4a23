/-
Deferred TOP and tags over a run.

Every emitter of a single instruction passes `learn`; so a run keeps the
translator's machine and the one that puts nothing off together, at every
instruction boundary, and when the counter has run out memory alone is
the state. The exception is `fxam`, which writes TOP and a pending push
tag but not the tags of deferred pops: with eight of them deferred the
slot at TOP is itself one whose tag is not written yet.
-/
import X87Sidecar.Proofs.Translate.Deferred

namespace X87Sidecar.Deferred

open Lib

variable {unused b f : Bool} {k k' : Know} {c : X87Cache}
  {m e : Machine} {st : X87Cache × Machine} {env : Env} {a : IRInstr}
  {s t : Script}

-- ================================================ the steps of a script

@[simp] theorem run_cons (x : Act) (s : Script)
    (st : X87Cache × Machine) :
    Script.run (x :: s) st = Script.run s (x.run st) := rfl

/-- One stretch of steps after the other. -/
theorem run_append (s t : Script) (st : X87Cache × Machine) :
    Script.run (s ++ t) st = Script.run t (Script.run s st) :=
  List.foldl_append

/-- The same for the machine that defers nothing. -/
theorem eagerRun_append (s t : Script) (st : X87Cache × Machine) :
    Script.eagerRun (s ++ t) st
      = Script.eagerRun t (Script.eagerRun s st) :=
  List.foldl_append

/-- The stack has room for a step and for those after it. -/
theorem fits_cons (x : Act) (s : Script) (st : X87Cache × Machine) :
    Script.fits (x :: s) st = true
      ↔ x.fits st.2 = true ∧ Script.fits s (x.eagerRun st) = true :=
  Bool.and_eq_true_iff

/-- For a stretch and for the one after it. -/
theorem fits_append (s t : Script) (st : X87Cache × Machine) :
    Script.fits (s ++ t) st = true
      ↔ Script.fits s st = true
        ∧ Script.fits t (Script.eagerRun s st) = true := by
  induction s generalizing st with
  | nil => exact ⟨fun h => ⟨rfl, h⟩, fun h => h.2⟩
  | cons x s ih =>
      rw [List.cons_append, fits_cons, fits_cons, ih]
      exact and_assoc.symm

/-- Both machines go through the same caches. -/
theorem cache_run (s : Script) (c : X87Cache) (m e : Machine) :
    (Script.eagerRun s (c, e)).1 = (Script.run s (c, m)).1 := by
  induction s generalizing c m e with
  | nil => rfl
  | cons x s ih => exact ih _ _ _

/-- An emitter keeps the two machines together, as far as `learnAll`
says. -/
theorem Tracks.runAll (h : Tracks unused k (c, m) e)
    (hl : learnAll unused k s = some k') (hfit : s.fits (c, e) = true) :
    Tracks unused k' (s.run (c, m)) (s.eagerRun (c, e)).2 := by
  induction s generalizing k c m e with
  | nil =>
      have hk : k = k' := Option.some.inj hl
      rw [← hk]
      exact h
  | cons x s ih =>
      have hstep : learnAll unused k (x :: s)
          = (learn unused k x).bind fun k => learnAll unused k s := rfl
      rw [hstep] at hl
      obtain ⟨j, hj, hrest⟩ := Option.bind_eq_some_iff.mp hl
      obtain ⟨hx, hs⟩ := (fits_cons x s (c, e)).mp hfit
      exact ih (h.step x hj hx) hrest hs

-- ===================================================== the emitters pass

/-- What is known before an instruction: without a run nothing is
owed. -/
def Know.rest (alone few : Bool) : Know :=
  { alone, few := few || alone,
    topClean := alone, popsClean := alone, pushClean := alone }

/-- Nothing is left half done. -/
def rests : Option Know → Bool
  | some k => !k.begun && k.sw && k.tw && (k.done || k.settled)
  | none => false

/-- An emitter passes. -/
def Passes (unused alone few : Bool) (s : Script) : Prop :=
  rests (learnAll unused (Know.rest alone few) s) = true

/-- What is known in the end, where an emitter passes. -/
theorem Passes.exists {alone : Bool} (h : Passes unused alone f s) :
    ∃ k', learnAll unused (Know.rest alone f) s = some k'
      ∧ rests (some k') = true := by
  unfold Passes at h
  cases hl : learnAll unused (Know.rest alone f) s with
  | none =>
      rw [hl] at h
      exact Bool.noConfusion h
  | some k' =>
      rw [hl] at h
      exact ⟨k', rfl, h⟩

theorem passes_loadConst (v : BitVec 64) :
    Passes false b f (loadConst v) := by
  cases b <;> cases f <;> rfl

/-- The loads. -/
theorem passes_fld : Passes false b f (translate_fld env c a) := by
  unfold translate_fld
  dsimp only
  split_ifs <;> cases b <;> cases f <;> rfl

theorem passes_fbld : Passes false b f (translate_fbld env a) := by
  cases b <;> cases f <;> rfl

theorem passes_fild : Passes false b f (translate_fild env a) := by
  cases b <;> cases f <;> rfl

theorem passes_fild_native :
    Passes false b f (translate_fild_native env a) := by
  cases b <;> cases f <;> rfl

/-- The arithmetic. -/
theorem passes_arith (g : BitVec 64 → BitVec 64 → BitVec 64) :
    Passes false b f (arith env g a) := by
  unfold arith
  split <;> cases b <;> cases f <;> rfl

theorem passes_arithp (g : BitVec 64 → BitVec 64 → BitVec 64) :
    Passes false b f (arithp g a) := by
  cases b <;> cases f <;> rfl

theorem passes_iarith (g : BitVec 64 → BitVec 64 → BitVec 64) :
    Passes false b f (iarith env g a) := by
  cases b <;> cases f <;> rfl

theorem passes_unary (g : Guest → BitVec 64 → BitVec 64) :
    Passes false b f (unary g) := by
  cases b <;> cases f <;> rfl

/-- The stores. -/
theorem passes_fst : Passes false b f (translate_fst env c a) := by
  unfold translate_fst loadSt0 onlyIf
  dsimp only
  split_ifs <;> cases b <;> cases f <;> rfl

theorem passes_intStore (rc : Guest → BitVec 2) (pops : Bool) :
    Passes false b f (intStore env rc pops c a) := by
  unfold intStore loadSt0 onlyIf
  split_ifs <;> cases b <;> cases f <;> rfl

theorem passes_int_store_native (rc : Guest → BitVec 2) (pops : Bool) :
    Passes false b f (translate_int_store_native env rc pops c a) := by
  unfold translate_int_store_native onlyIf
  split_ifs <;> cases b <;> cases f <;> rfl

theorem passes_fbstp : Passes false b f (translate_fbstp env a) := by
  cases b <;> cases f <;> rfl

/-- The comparisons. -/
theorem passes_fcom : Passes false b f (translate_fcom env a) := by
  unfold translate_fcom onlyIf
  dsimp only
  split_ifs <;> cases b <;> cases f <;> rfl

theorem passes_ficom : Passes false b f (translate_ficom env a) := by
  unfold translate_ficom onlyIf
  split_ifs <;> cases b <;> cases f <;> rfl

theorem passes_ftst : Passes false b f (translate_ftst env) := by
  cases b <;> cases f <;> rfl

theorem passes_fcomi : Passes false b f (translate_fcomi env a) := by
  unfold translate_fcomi onlyIf
  split_ifs <;> cases b <;> cases f <;> rfl

theorem passes_fcmov : Passes false b f (translate_fcmov a) := by
  cases b <;> cases f <;> rfl

/-- `fxam` passes with fewer than eight pops deferred. -/
theorem passes_fxam : Passes false b true translate_fxam := by
  cases b <;> rfl

/-- The moves of status word and control word. -/
theorem passes_fstsw : Passes false b f (translate_fstsw env a) := by
  cases b <;> cases f <;> rfl

theorem passes_fldcw : Passes unused b f (translate_fldcw env a) := by
  cases unused <;> cases b <;> cases f <;> rfl

theorem passes_fnstcw : Passes unused b f (translate_fnstcw env a) := by
  cases unused <;> cases b <;> cases f <;> rfl

theorem passes_fnop : Passes false b f translate_fnop := by
  cases b <;> cases f <;> rfl

/-- The exchanges and rotations. -/
theorem passes_fxch : Passes false b f (translate_fxch env c a) := by
  unfold translate_fxch
  dsimp only
  split_ifs <;> cases b <;> cases f <;> rfl

theorem passes_rotate (d : Depth) :
    Passes false b f
      (.begin :: .flushPerm :: flushTags ++ [.rotate d, .finish 1]) := by
  cases b <;> cases f <;> rfl

theorem passes_ffree : Passes false b f (translate_ffree a) := by
  cases b <;> cases f <;> rfl

/-- The transcendentals and what is like them. -/
theorem passes_binaryOn0 (g : BitVec 64 → BitVec 64 → BitVec 64)
    (tail : Script) (ht : tail = [] ∨ tail = clearCC) :
    Passes false b f (binaryOn0 g tail) := by
  rcases ht with rfl | rfl <;> cases b <;> cases f <;> rfl

theorem passes_binaryPop (g : BitVec 64 → BitVec 64 → BitVec 64) :
    Passes false b f (binaryPop g) := by
  cases b <;> cases f <;> rfl

theorem passes_trig (g : BitVec 64 → BitVec 64) :
    Passes false b f (trig g) := by
  cases b <;> cases f <;> rfl

theorem passes_trigPair (g g' : BitVec 64 → BitVec 64) :
    Passes false b f (trigPair g g') := by
  cases b <;> cases f <;> rfl

theorem passes_fyl2xp1 : Passes false b f (translate_fyl2xp1 env) := by
  cases b <;> cases f <;> rfl

theorem passes_f2xm1 : Passes false b f (translate_f2xm1 env) := by
  cases b <;> cases f <;> rfl

theorem passes_fxtract : Passes false b f (translate_fxtract env) := by
  cases b <;> cases f <;> rfl

/-- An isolated `frstor` needs no `x87_begin`, since it loads TOP itself. -/
theorem passes_frstor :
    Passes false (!c.active) f (translate_frstor env c a) := by
  unfold translate_frstor onlyIf eachDepth
  dsimp only
  cases c.active <;> cases c.nativeSlots <;> cases f <;> rfl

/-- All but `fsave` pass, `fxam` with fewer than eight pops deferred. -/
theorem passes_emitted (h : Emitted env c a s)
    (hxam : a.opcode = .fxam → f = true) :
    s = translate_fsave env c a ∨ Passes false (!c.active) f s := by
  cases h with
  | fsave => exact .inl rfl
  | fxam hop =>
      refine .inr ?_
      rw [hxam hop]
      exact passes_fxam
  | loadConst v => exact .inr (passes_loadConst v)
  | fld => exact .inr passes_fld
  | fbld => exact .inr passes_fbld
  | fild => exact .inr passes_fild
  | fildNative => exact .inr passes_fild_native
  | arith g => exact .inr (passes_arith g)
  | arithp g => exact .inr (passes_arithp g)
  | iarith g => exact .inr (passes_iarith g)
  | unary g => exact .inr (passes_unary g)
  | fst => exact .inr passes_fst
  | intStore rc pops => exact .inr (passes_intStore rc pops)
  | intStoreNative rc pops => exact .inr (passes_int_store_native rc pops)
  | fbstp => exact .inr passes_fbstp
  | fcom => exact .inr passes_fcom
  | ficom => exact .inr passes_ficom
  | ftst => exact .inr passes_ftst
  | fcomi => exact .inr passes_fcomi
  | fcmov => exact .inr passes_fcmov
  | fstsw _ => exact .inr passes_fstsw
  | fldcw => exact .inr passes_fldcw
  | fnstcw => exact .inr passes_fnstcw
  | fnop => exact .inr passes_fnop
  | fxch => exact .inr passes_fxch
  | fdecstp => exact .inr (passes_rotate (-1))
  | fincstp => exact .inr (passes_rotate 1)
  | ffree => exact .inr passes_ffree
  | binaryOn0 g => exact .inr (passes_binaryOn0 g [] (.inl rfl))
  | binaryOn0Codes g => exact .inr (passes_binaryOn0 g _ (.inr rfl))
  | binaryPop g => exact .inr (passes_binaryPop g)
  | trig g => exact .inr (passes_trig g)
  | trigPair g g' => exact .inr (passes_trigPair g g')
  | fyl2xp1 => exact .inr passes_fyl2xp1
  | f2xm1 => exact .inr passes_f2xm1
  | fxtract => exact .inr passes_fxtract
  | frstor => exact .inr passes_frstor

-- ================================================================ fsave

/-- A part that teaches nothing, for each depth in turn. -/
theorem learnAll_flatMap {l : List Depth} {g : Depth → Script}
    (h : ∀ i, learnAll unused k (g i) = some k) :
    learnAll unused k (l.flatMap g) = some k := by
  induction l with
  | nil => rfl
  | cons i l ih =>
      rw [List.flatMap_cons, learnAll_append (h i)]
      exact ih

/-- What `fsave` knows once everything owed is written. -/
def Know.written (alone : Bool) : Know where
  top := .live
  begun := true
  alone := alone
  calm := true
  topClean := true
  popsClean := true
  pushClean := true
  few := true

/-- The store of one register image. -/
def saveOne (env : Env) (flushed : X87Cache) (i : Depth) : Script :=
  if flushed.holdsF80At i then
    [.loadImage (.raw i) 0,
      Act.onGuest fun g s => g.storeF80 (s.x 2 + saveOffset i) (s.q 0)]
  else
    [.load (.raw i) 0 0,
      Act.onGuest fun g s =>
        g.storeF80 (s.x 2 + saveOffset i) (env.fp.toF80 (s.d 0))]

/-- The first part of `fsave`: everything owed written, then the header. -/
def saveHead (env : Env) (a : IRInstr) : Script :=
  let area := fun g => env.ea (Env.addrIs64 a.op0) a.op0 g
  [.begin, .flush .top .always] ++ flushTags ++ [.flushPerm,
    Act.setX 2 fun g _ => area g,
    Act.onGuest fun g s => g.storeAt (s.x 2) 4 (g.cw.setWidth 32),
    .ldSw 0,
    Act.onGuest fun g s =>
      g.storeAt (s.x 2 + 4) 4 ((s.x 0).setWidth 32),
    .ldTw 0,
    Act.onGuest fun g s =>
      (((g.storeAt (s.x 2 + 8) 4 ((s.x 0).setWidth 32)).storeAt
        (s.x 2 + 12) 4 0).storeAt (s.x 2 + 16) 8 0).storeAt
        (s.x 2 + 24) 4 0]

/-- Its end: the state of `finit`, but for the status word. -/
def saveTail : Script :=
  [Act.setX 0 fun _ _ => 0xFFFF, .stTw 0, .zeroTop, .finish 1]

/-- All before the status word of `finit` is written. -/
def saveBefore (env : Env) (c : X87Cache) (a : IRInstr) : Script :=
  saveHead env a
    ++ eachDepth (saveOne env (perm_flush_before_stack_change c).1)
    ++ [Act.onGuest fun g _ => g.setControlWord 0x037F]

/-- The status word of `finit`. -/
def saveZero : Script := [Act.setX 0 fun _ _ => 0, .stSw 0]

/-- `fsave` is its image, then the state of `finit`. -/
theorem fsave_parts :
    translate_fsave env c a
      = saveBefore env c a ++ (saveZero ++ saveTail) := by
  unfold translate_fsave saveBefore saveHead saveTail saveZero
  simp only [List.append_assoc, List.cons_append, List.nil_append]
  rfl

/-- The image needs everything written, and writes it. -/
theorem learn_saveBefore :
    learnAll false (Know.rest b f) (saveBefore env c a)
      = some (Know.written b) := by
  have hhead : learnAll false (Know.rest b f) (saveHead env a)
      = some (Know.written b) := by
    cases b <;> cases f <;> rfl
  unfold saveBefore
  rw [List.append_assoc, learnAll_append hhead]
  have heach : learnAll false (Know.written b)
      (eachDepth (saveOne env (perm_flush_before_stack_change c).1))
      = some (Know.written b) := by
    apply learnAll_flatMap
    intro i
    unfold saveOne
    split
    · rfl
    · rfl
  rw [learnAll_append heach]
  rfl

/-- Both machines after a stretch of steps, as pairs with one cache. -/
theorem eagerRun_eq (s : Script) (c : X87Cache) (m e : Machine) :
    s.eagerRun (c, e) = ((s.run (c, m)).1, (s.eagerRun (c, e)).2) :=
  Prod.ext (cache_run s c m e) rfl

/-- The status word of `finit` in place, TOP's register still to be zeroed.
-/
theorem Tracks.zeroSw (h : Tracks unused (Know.written b) (c, m) e) :
    Tracks unused { Know.written b with top := .zero, sw := true }
      (saveZero.run (c, m)) (saveZero.eagerRun (c, e)).2 := by
  have hset := h.compute fun g s => (g, s.setX 0 0)
  have hq := not_owing_of_settled hset.owed rfl
  refine hset.stSw hq (.inl rfl) .zero TopKnow.noConfusion 0
    (fun _ hy => TopKnow.noConfusion hy) ?_
  intro _
  show topOf ((Function.update m.scratch.x 0 0 0).setWidth 16) = 0
  rw [Function.update_self]
  rfl

/-- `fsave`: its last part relies on the status word it has just
written. -/
theorem Tracks.fsave (h : Tracks false (Know.rest b f) (c, m) e)
    (hfit : (translate_fsave env c a).fits (c, e) = true) :
    Tracks false { done := true } ((translate_fsave env c a).run (c, m))
      ((translate_fsave env c a).eagerRun (c, e)).2 := by
  rw [fsave_parts] at hfit ⊢
  rw [fits_append, fits_append] at hfit
  rw [run_append, run_append, eagerRun_append, eagerRun_append]
  have hbefore := h.runAll learn_saveBefore hfit.1
  have hlast := hfit.2.2
  rw [eagerRun_eq (saveBefore env c a) c m e] at hlast ⊢
  generalize saveBefore env c a = before at hbefore hlast ⊢
  generalize before.run (c, m) = st at hbefore hlast ⊢
  generalize (before.eagerRun (c, e)).2 = e' at hbefore hlast ⊢
  obtain ⟨c', m'⟩ := st
  have hzero := hbefore.zeroSw
  rw [eagerRun_eq saveZero c' m' e'] at hlast ⊢
  exact hzero.runAll rfl hlast

-- ========================================================= one request

/-- An emitter that passes leaves nothing half done. -/
theorem Tracks.rested (h : Tracks unused k st e)
    (hk : rests (some k) = true) :
    Tracks unused { done := true } st e := by
  simp only [rests, Bool.and_eq_true, Bool.or_eq_true,
    Bool.not_eq_true'] at hk
  obtain ⟨⟨⟨hb, hsw⟩, htw⟩, hd⟩ := hk
  have ho := h.owed
  refine ⟨⟨h.same.guest, h.same.slot, h.same.scratch, h.same.hold,
    fun _ hx => TopKnow.noConfusion hx⟩, ?_⟩
  exact {
    sync := ho.sync
    sw := fun _ => ho.sw hsw
    tw := fun _ => ho.tw htw
    apart := ho.apart
    count := ho.count
    pushTag := ho.pushTag
    pushTop := ho.pushTop
    owesTop := ho.owesTop
    top := fun hk => TopKnow.noConfusion hk
    zero := fun hk => TopKnow.noConfusion hk
    loads := ho.loads
    quiet := ho.quiet
    begun := fun hk => Bool.noConfusion hk
    alone := fun hk => Bool.noConfusion hk
    rest := fun _ => ho.rest hb
    cached := fun _ => ho.cached hb
    calm := fun hk => Bool.noConfusion hk
    topClean := fun hk => Bool.noConfusion hk
    popsClean := fun hk => Bool.noConfusion hk
    pushClean := fun hk => Bool.noConfusion hk
    few := fun hk => Bool.noConfusion hk
    done := by
      intro _ hc
      rcases hd with hd | hd
      · exact ho.done hd hc
      · exact absurd hc (not_owing_of_settled ho hd) }

/-- What the start of an instruction adds. -/
theorem Tracks.atStart (h : Tracks unused {} (c, m) e)
    (hf : f = true → c.deferredPopCount < 8) :
    Tracks unused (Know.rest (!c.active) f) (c, m) e := by
  have ho := h.owed
  have hidle : (!c.active) = true → ¬owing c := by
    intro ha hc
    have hact := (ho.rest rfl hc).1
    rw [hact] at ha
    exact Bool.noConfusion ha
  exact ⟨h.same, { ho with
    alone := by
      intro ha
      have hidle : (!c.active) = true := ha
      simpa using hidle
    topClean := fun ha => (not_owing_iff.mp (hidle ha)).1
    popsClean := fun ha => ho.idle (hidle ha)
    pushClean := fun ha => (not_owing_iff.mp (hidle ha)).2.2
    few := by
      intro hk
      rcases Bool.or_eq_true _ _ ▸ hk with hk | hk
      · exact hf hk
      · exact (not_owing_iff.mp (hidle hk)).2.1.trans_lt (by decide)
    done := fun hd => Bool.noConfusion hd
    cached := fun _ => ho.cached rfl
    rest := fun _ => ho.rest rfl
    begun := fun hb => Bool.noConfusion hb
    calm := fun hc => Bool.noConfusion hc
    top := fun ht => TopKnow.noConfusion ht
    zero := fun ht => TopKnow.noConfusion ht
    sw := fun _ => ho.sw rfl
    tw := fun _ => ho.tw rfl }⟩

/-- `tick` forgets nothing that is owed. -/
theorem Tracks.tick (h : Tracks unused { done := true } st e) :
    Tracks unused {} (st.1.tick, st.2) e := by
  obtain ⟨c, m⟩ := st
  have ho := h.owed
  dsimp only at ho ⊢
  unfold X87Cache.tick
  split
  next hpos =>
    split
    next hone =>
      have hq : ¬owing c := by
        intro hc
        have hlt : 1 < c.runRemaining := ho.done rfl hc
        omega
      obtain ⟨hd, -, hpush⟩ := not_owing_iff.mp hq
      have hpops : c.deferredPopCount = 0 := ho.idle hq
      have hbase : Tracks unused { done := true }
          ({ c with
              topDirty := false, tagPushPending := false,
              deferredPopCount := 0 }, m) e :=
        h.alike ⟨rfl, rfl, hd.symm, hpush.symm, hpops.symm, rfl, id⟩
      have hnone : ∀ {g : Bool} {n : Nat}, ¬owing
          { c with
            runRemaining := n, gprsValid := g, topDirty := false,
            tagPushPending := false, deferredPopCount := 0 } :=
        not_owing_iff.mpr ⟨rfl, le_refl 0, rfl⟩
      exact ⟨h.same, { hbase.owed with
        begun := fun hb => Bool.noConfusion hb
        alone := fun hb => Bool.noConfusion hb
        rest := fun _ hc => absurd hc hnone
        cached := fun _ _ ha => Bool.noConfusion ha
        calm := fun hb => Bool.noConfusion hb
        done := fun hb => Bool.noConfusion hb
        owesTop := fun hc => absurd hc hnone }⟩
    next hne =>
      have hact : c.active = true := decide_eq_true hpos
      have hmore : decide (0 < c.runRemaining - 1) = true :=
        decide_eq_true (by omega)
      exact ⟨h.same, { ho with
        begun := fun hb => Bool.noConfusion hb
        alone := fun hb => Bool.noConfusion hb
        rest := fun _ hc => ⟨hmore, (ho.rest rfl hc).2⟩
        cached := fun _ hu _ hg => ho.cached rfl hu hact hg
        calm := fun hb => Bool.noConfusion hb
        done := fun hb => Bool.noConfusion hb }⟩
  next =>
    exact ⟨h.same, { ho with done := fun hb => Bool.noConfusion hb }⟩

/-- In a run of control word moves every emitter passes without TOP. -/
theorem passes_cw (h : single env c a = some s)
    (hop : a.opcode = .fnstcw ∨ a.opcode = .fldcw) :
    Passes true b f s := by
  unfold single at h
  rcases hop with hop | hop
  · rw [hop] at h
    cases h
    exact passes_fnstcw
  · rw [hop] at h
    cases h
    exact passes_fldcw

/-- A request's emitter passes. -/
theorem script_passes {call : Call} (h : call.script env c = some s)
    (hxam : call.instr.opcode = .fxam → f = true)
    (hcw : unused = true →
      call.instr.opcode = .fnstcw ∨ call.instr.opcode = .fldcw) :
    (unused = false ∧ s = translate_fsave env c call.instr)
      ∨ Passes unused (!c.active) f s := by
  unfold Call.script at h
  cases hu : unused with
  | false =>
      split at h
      · exact (passes_emitted (singleNative_shape h) hxam).imp_left
          fun hs => ⟨rfl, hs⟩
      · exact (passes_emitted (single_shape h) hxam).imp_left
          fun hs => ⟨rfl, hs⟩
  | true =>
      split at h
      next =>
        unfold singleNative at h
        rcases hcw hu with hop | hop <;> rw [hop] at h <;> cases h
      next => exact .inr (passes_cw h (hcw hu))

/-- One request keeps the two machines together. -/
theorem Tracks.call {call : Call} (h : Tracks unused {} (c, m) e)
    (hfit : ∀ s, call.script env c = some s → s.fits (c, e) = true)
    (hxam : call.instr.opcode = .fxam → c.deferredPopCount < 8)
    (hcw : unused = true →
      call.instr.opcode = .fnstcw ∨ call.instr.opcode = .fldcw) :
    Tracks unused {} (call.run env (c, m)) (call.eagerRun env (c, e)).2
      ∧ (call.eagerRun env (c, e)).1 = (call.run env (c, m)).1 := by
  unfold Call.run Call.eagerRun
  dsimp only
  cases hs : call.script env c with
  | none => exact ⟨h, rfl⟩
  | some s =>
      dsimp only
      refine ⟨?_, congrArg X87Cache.tick (cache_run s c m e)⟩
      have hstart := h.atStart
        (f := decide (call.instr.opcode = .fxam))
        fun hf => hxam (of_decide_eq_true hf)
      have hs' := hfit s hs
      rcases script_passes hs (fun hop => decide_eq_true hop) hcw with
        hsave | hpass
      · obtain ⟨hu, hsave⟩ := hsave
        subst hu
        rw [hsave] at hs' ⊢
        exact (hstart.fsave hs').tick
      · obtain ⟨k', hl, hk'⟩ := hpass.exists
        exact ((hstart.runAll hl hs').rested hk').tick

-- =============================================================== the run

/-- Between two instructions the relation says what is claimed. -/
theorem Tracks.denoted (h : Tracks unused {} (c, m) e) :
    Denoted c m e := by
  have ho := h.owed
  have hguest : ∀ {g g' : Guest}, g.hideSw = g'.hideSw → g.sw = g'.sw →
      g = g' := by
    intro g g' hh hs
    cases g
    cases g'
    simp only [Guest.hideSw, Guest.mk.injEq] at hh hs ⊢
    exact ⟨hh.1, hh.2.1, hh.2.2.1, hs, hh.2.2.2.2.1, hh.2.2.2.2.2⟩
  have hstate : { c.denote m with wTop := e.wTop } = e := by
    have hg : (c.denote m).guest = e.guest :=
      hguest h.same.guest (ho.sw rfl)
    have ht : (c.denote m).tw = e.tw := ho.tw rfl
    have hs : (c.denote m).slot = e.slot := h.same.slot
    have hx : (c.denote m).scratch = e.scratch := h.same.scratch
    have hh : (c.denote m).hold = e.hold := h.same.hold
    dsimp only
    rw [hg, ht, hs, hx, hh]
  refine ⟨hstate, ?_, ?_⟩
  · intro hc
    exact absurd (ho.apart hc.1) (ne_of_gt hc.2)
  · intro ha
    have hq : ¬owing c := by
      intro hc
      exact absurd (ha.symm.trans (ho.rest rfl hc).1) (by decide)
    rwa [denote_of_not_owing hq] at hstate

/-- Requests fit one after the other. -/
theorem callsFit_cons (call : Call) (l : List Call)
    (st : X87Cache × Machine) :
    callsFit env (call :: l) st = true
      ↔ (∀ s, call.script env st.1 = some s → s.fits st = true)
        ∧ callsFit env l (call.eagerRun env st) = true := by
  refine Bool.and_eq_true_iff.trans (and_congr_left fun _ => ?_)
  cases call.script env st.1 with
  | none => simp
  | some s => simp

/-- The requests of a run, from any state between two instructions. -/
theorem Tracks.calls (l : List Call) (h : Tracks unused {} (c, m) e)
    (hfit : callsFit env l (c, e) = true)
    (hxam : ∀ n call, l[n]? = some call → call.instr.opcode = .fxam →
      (runCalls env (l.take n) (c, m)).1.deferredPopCount < 8)
    (hcw : unused = true → ∀ call ∈ l,
      call.instr.opcode = .fnstcw ∨ call.instr.opcode = .fldcw)
    (n : Nat) :
    Tracks unused {} (runCalls env (l.take n) (c, m))
      (eagerCalls env (l.take n) (c, e)).2 := by
  induction l generalizing c m e n with
  | nil =>
      rw [List.take_nil]
      exact h
  | cons call l ih =>
      cases n with
      | zero => exact h
      | succ n =>
          obtain ⟨hfirst, hlater⟩ := (callsFit_cons call l (c, e)).mp hfit
          obtain ⟨hstep, hcache⟩ := h.call hfirst (hxam 0 call rfl)
            fun hu => hcw hu call List.mem_cons_self
          have hpair : call.eagerRun env (c, e)
              = ((call.run env (c, m)).1,
                (call.eagerRun env (c, e)).2) := Prod.ext hcache rfl
          rw [hpair] at hlater
          show Tracks unused {}
            (runCalls env (l.take n) (call.run env (c, m)))
            (eagerCalls env (l.take n) (call.eagerRun env (c, e))).2
          rw [hpair]
          exact ih hstep hlater
            (fun i call' hi => hxam (i + 1) call' hi)
            (fun hu call' hm => hcw hu call' (List.mem_cons_of_mem _ hm))
            n

/-- The start of a run. -/
theorem Tracks.fresh (transport slots : Bool) (fmt : Depth → X87SlotFmt)
    (calls : List Call) (m : Machine) :
    Tracks (X87Cache.freshRun transport slots fmt calls).topUnused {}
      (X87Cache.freshRun transport slots fmt calls, m) m.sync := by
  generalize hc : X87Cache.freshRun transport slots fmt calls = c
  have hfresh : c.topDirty = false ∧ c.deferredPopCount = 0
      ∧ c.tagPushPending = false ∧ c.gprsValid = false
      ∧ c.permDirty = false := by
    rw [← hc]
    unfold X87Cache.freshRun X87Cache.setRun
    split
    · exact ⟨rfl, rfl, rfl, rfl, rfl⟩
    · exact ⟨rfl, rfl, rfl, rfl, rfl⟩
  obtain ⟨htop, hpops, hpush, hgprs, hperm⟩ := hfresh
  have hq : ¬owing c := not_owing_iff.mpr ⟨htop, hpops.le, hpush⟩
  refine ⟨⟨rfl, rfl, rfl, rfl, fun _ hx => TopKnow.noConfusion hx⟩, ?_⟩
  exact {
    sync := rfl
    sw := by
      intro _
      rw [denote_of_not_owing hq]
      rfl
    tw := by
      intro _
      rw [denote_of_not_owing hq]
      rfl
    apart := fun _ => hpops
    count := by
      rw [hpops]
      decide
    pushTag := fun hp => absurd (hpush.symm.trans hp) (by decide)
    pushTop := fun hp => absurd (hpush.symm.trans hp) (by decide)
    owesTop := fun ho => absurd ho hq
    top := fun hk => TopKnow.noConfusion hk
    zero := fun hk => TopKnow.noConfusion hk
    loads := id
    quiet := fun _ => hperm
    begun := fun hk => Bool.noConfusion hk
    alone := fun hk => Bool.noConfusion hk
    rest := fun _ ho => absurd ho hq
    cached := fun _ _ _ hg => absurd (hgprs.symm.trans hg) (by decide)
    calm := fun hk => Bool.noConfusion hk
    topClean := fun hk => Bool.noConfusion hk
    popsClean := fun hk => Bool.noConfusion hk
    pushClean := fun hk => Bool.noConfusion hk
    few := fun hk => Bool.noConfusion hk
    done := fun hk => Bool.noConfusion hk }

/-- As long as every `fxam` comes with fewer than eight pops deferred,
a run with TOP and the tags put off is one with both at once. -/
theorem refines_eager (transport slots : Bool) (fmt : Depth → X87SlotFmt)
    (calls : List Call) (m : Machine)
    (h : FewAtFxam transport slots fmt calls m) :
    RefinesEager transport slots fmt calls m := by
  intro env hfit n
  refine ((Tracks.fresh transport slots fmt calls m).calls calls hfit
    (h env) ?_ n).denoted
  intro hu call hmem
  have hcw : (slots && onlyCw (calls.map (·.instr))) = true := by
    unfold X87Cache.freshRun X87Cache.setRun at hu
    split at hu
    · exact hu
    · exact hu
  have hall := List.all_eq_true.mp (Bool.and_eq_true_iff.mp hcw).2
  exact of_decide_eq_true
    (hall call.instr (List.mem_map_of_mem hmem))

/-- A push, `fxam`, and the pop that cancels the push. -/
def pushExamine : List Call :=
  [⟨{ opcode := .fld1 }, false⟩, ⟨{ opcode := .fxam }, false⟩,
    ⟨{ opcode := .fstp_stack, numOperands := 1, op0 := .st 0 }, false⟩]

/-- The theorem at work on an empty stack. -/
theorem refines_eager_pushExamine :
    Denoted
      (runCalls .blank (pushExamine.take 3)
        (X87Cache.freshRun false false (fun _ => .native) pushExamine,
          .blank 0xFFFF)).1
      (runCalls .blank (pushExamine.take 3)
        (X87Cache.freshRun false false (fun _ => .native) pushExamine,
          .blank 0xFFFF)).2
      (eagerCalls .blank (pushExamine.take 3)
        (X87Cache.freshRun false false (fun _ => .native) pushExamine,
          (Machine.blank 0xFFFF).sync)).2 := by
  refine refines_eager false false (fun _ => .native) pushExamine
    (.blank 0xFFFF) ?_ .blank (by decide) 3
  intro env i call hi hop
  match i, hi with
  | 0, hi => cases hi; exact Opcode.noConfusion hop
  | 1, _ => exact (by decide : (0 : Int) < 8)
  | 2, hi => cases hi; exact Opcode.noConfusion hop
  | i + 3, hi => exact absurd hi (by simp [pushExamine])

/-- Eight pops of a full stack, then `fxam`. -/
def popsExamine : List Call :=
  List.replicate 8
      ⟨{ opcode := .fstp_stack, numOperands := 1, op0 := .st 0 }, false⟩
    ++ [⟨{ opcode := .fxam }, false⟩]

/-- The ninth instruction reads the tag of a slot whose pop is still
owed: memory says valid where it is empty. -/
theorem not_refines_eager_popsExamine :
    callsFit .blank popsExamine
        (X87Cache.freshRun false false (fun _ => .native) popsExamine,
          (Machine.blank 0).sync) = true
      ∧ ¬RefinesEager false false (fun _ => .native) popsExamine
          (.blank 0) := by
  have hfit : callsFit .blank popsExamine
      (X87Cache.freshRun false false (fun _ => .native) popsExamine,
        (Machine.blank 0).sync) = true := by decide
  refine ⟨hfit, fun h => ?_⟩
  have hsw := congrArg (·.guest.sw) (h .blank hfit 9).state
  exact absurd hsw (by decide +kernel)

end X87Sidecar.Deferred
