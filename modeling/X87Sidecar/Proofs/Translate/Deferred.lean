/-
TOP and tags put off, and TOP and tags at once.

`Tracks` ties the translator's cache and its machine to the machine that
puts nothing off. What an emitter may rely on changes from step to step
(TOP's register is loaded, a flush has been called, the status word has
just been replaced), so the relation is indexed by that knowledge, and
`learn` computes it along an emitter's steps: an emitter is checked by
running `learn` over it, once for all machines.
-/
import X87Sidecar.Translate.Run

namespace X87Sidecar.Deferred

open Lib

-- ============================================== what an emitter knows

/-- What is known of TOP's register. -/
inductive TopKnow
  | lost
  /-- it holds TOP -/
  | live
  /-- an integer register holds the status word -/
  | inX (x : Nat)
  /-- TOP is 0 -/
  | zero
  deriving DecidableEq

/-- What an emitter knows between two steps. -/
structure Know where
  top : TopKnow := .lost
  /-- `x87_begin` has been called -/
  begun : Bool := false
  /-- there is no run -/
  alone : Bool := false
  /-- without a run nothing is owed -/
  calm : Bool := false
  topClean : Bool := false
  popsClean : Bool := false
  pushClean : Bool := false
  /-- fewer than eight pops are deferred -/
  few : Bool := false
  /-- the run does not end here with something owed -/
  done : Bool := false
  /-- status word and tag word are not about to be replaced -/
  sw : Bool := true
  tw : Bool := true
  deriving DecidableEq

namespace Know

/-- An update known to be settled. -/
def clean (k : Know) : Pending → Know
  | .top => { k with topClean := true }
  | .pops => { k with popsClean := true, few := true }
  | .push => { k with pushClean := true }

/-- Nothing is owed. -/
def settled (k : Know) : Bool :=
  k.topClean && k.popsClean && k.pushClean

/-- Does a flush under this condition settle its update? -/
def settles (k : Know) : Guard → Bool
  | .always => true
  | .gprsValid => k.begun && k.calm
  | .baseCached => !k.begun
  | .unlessPush => false

/-- Integer registers may have changed. -/
def forgetX (k : Know) : Know :=
  match k.top with
  | .inX _ => { k with top := .lost }
  | _ => k

/-- A push or a pop may be owed. -/
def stacked (k : Know) (calm : Bool) : Know :=
  { k with
    calm, topClean := false, popsClean := false, pushClean := false,
    few := false, done := false }

end Know

/-- What is known after a step, `none` where the step needs more. In a
run of control word moves (`unused`) TOP's register stays unknown. -/
def learn (unused : Bool) (k : Know) : Act → Option Know
  | .begin =>
      if !k.begun && k.sw then
        some { k with
          begun := true, calm := true,
          top := if unused then .lost else .live }
      else none
  | .finish n =>
      if k.begun && k.sw && k.tw && decide (0 < n)
          && (unused || decide (k.top = .live)) then
        some { done := true }
      else none
  | .flush p g => some (if k.settles g then k.clean p else k)
  | .flushPerm => if k.top = .live then some k else none
  | .push | .pop | .popN _ =>
      if k.begun && k.calm && k.sw && k.tw && decide (k.top = .live)
      then some (k.stacked true) else none
  | .rotate _ =>
      if k.begun && k.calm && k.sw && k.tw && k.popsClean && k.pushClean
          && decide (k.top = .live)
      then some (k.stacked false) else none
  | .exchange _ => if unused then none else some k
  | .free _ =>
      if k.tw && k.popsClean && k.pushClean && decide (k.top = .live) then
        some { k with tw := true }
      else none
  | .load _ _ _ | .store _ _ | .storeKey _ _ | .loadImage _ _
  | .storeImage _ _ => if k.top = .live then some k else none
  | .noteNative _ | .noteSwap _ _ => some k
  | .ldSw _ => if k.sw && k.topClean then some k.forgetX else none
  | .stSw x =>
      if k.settled && (k.begun || k.alone) then
        some { k with top := .inX x, sw := true }
      else none
  | .ldTw _ =>
      if k.tw && k.popsClean && k.pushClean then some k.forgetX else none
  | .stTw _ =>
      if k.popsClean && k.pushClean then some { k with tw := true }
      else none
  | .ldTag _ =>
      if k.tw && k.few && k.pushClean && decide (k.top = .live) then
        some k.forgetX
      else none
  | .ldTop _ => if k.top = .live then some k.forgetX else none
  | .ccWrite _ => if k.sw then some k.forgetX else none
  | .compute _ => some k.forgetX
  | .discard =>
      some { k with
        topClean := true, popsClean := true, pushClean := true,
        few := true, sw := false, tw := false }
  | .anchor x =>
      if k.settled && decide (k.top = .inX x) then
        some { k with top := .live }
      else none
  | .zeroTop =>
      if k.settled && decide (k.top = .zero) then
        some { k with top := .live }
      else none
  | .shorten => none

/-- The same along an emitter. -/
def learnAll (unused : Bool) : Know → Script → Option Know
  | k, [] => some k
  | k, a :: rest => (learn unused k a).bind fun k => learnAll unused k rest

theorem learnAll_append {unused : Bool} {k k' : Know} {s t : Script}
    (h : learnAll unused k s = some k') :
    learnAll unused k (s ++ t) = learnAll unused k' t := by
  induction s generalizing k with
  | nil =>
      have hk : k = k' := Option.some.inj h
      rw [hk]
      rfl
  | cons a s ih =>
      have hstep : learnAll unused k (a :: s)
          = (learn unused k a).bind fun k => learnAll unused k s := rfl
      rw [hstep] at h
      obtain ⟨j, hj, hrest⟩ := Option.bind_eq_some_iff.mp h
      show (learn unused k a).bind _ = _
      rw [hj]
      exact ih hrest

-- ======================================================= the relation

/-- Something is owed besides the permutation. -/
def owing (c : X87Cache) : Prop := ∃ p, c.owes p = true

/-- Status word, tag word and TOP of the two machines, given what is
known. -/
structure Owed (unused : Bool) (k : Know) (c : X87Cache)
    (m e : Machine) : Prop where
  sync : e.wTop = topOf e.guest.sw
  sw : k.sw = true → (c.denote m).guest.sw = e.guest.sw
  tw : k.tw = true → (c.denote m).tw = e.tw
  /-- a push's tag and pops' tags are never owed together -/
  apart : c.tagPushPending = true → c.deferredPopCount = 0
  /-- no more pops are owed than there are slots -/
  count : 0 ≤ c.deferredPopCount ∧ c.deferredPopCount ≤ 8
  /-- the slot of a push still pending is empty in memory -/
  pushTag : c.tagPushPending = true → tagOf m.tw m.wTop = 3
  /-- and the TOP in memory is the one before that push -/
  pushTop : c.tagPushPending = true → c.topDirty = true →
    topOf m.guest.sw = m.wTop + 1
  owesTop : owing c → m.wTop = e.wTop
  top : k.top = .live → m.wTop = e.wTop
  zero : k.top = .zero → e.wTop = 0
  loads : unused = false → c.topUnused = false
  quiet : unused = true → c.permDirty = false
  begun : k.begun = true → c.active = true → c.gprsValid = true
  alone : k.alone = true → c.active = false
  rest : k.begun = false → owing c → c.active = true ∧ c.gprsValid = true
  cached : k.begun = false → unused = false → c.active = true →
    c.gprsValid = true → m.wTop = e.wTop
  calm : k.calm = true → owing c → c.active = true
  topClean : k.topClean = true → c.topDirty = false
  popsClean : k.popsClean = true → c.deferredPopCount = 0
  pushClean : k.pushClean = true → c.tagPushPending = false
  few : k.few = true → c.deferredPopCount < 8
  done : k.done = true → owing c → 1 < c.runRemaining

/-- The two machines otherwise. -/
structure Same (t : TopKnow) (m e : Machine) : Prop where
  guest : m.guest.hideSw = e.guest.hideSw
  slot : m.slot = e.slot
  scratch : m.scratch = e.scratch
  hold : m.hold = e.hold
  inX : ∀ x, t = .inX x → (m.scratch.x x).setWidth 16 = e.guest.sw

/-- The two machines. -/
structure Tracks (unused : Bool) (k : Know) (st : X87Cache × Machine)
    (e : Machine) : Prop where
  same : Same k.top st.2 e
  owed : Owed unused k st.1 st.2 e

variable {unused b : Bool} {k k' : Know} {c c' : X87Cache}
  {m m' e e' : Machine} {st : X87Cache × Machine}

-- ================================================== what stays as it is

/-- The fields of the cache that `Owed` looks at. -/
structure Alike (c c' : X87Cache) : Prop where
  run : c'.runRemaining = c.runRemaining
  gprs : c'.gprsValid = c.gprsValid
  top : c'.topDirty = c.topDirty
  push : c'.tagPushPending = c.tagPushPending
  pops : c'.deferredPopCount = c.deferredPopCount
  unused : c'.topUnused = c.topUnused
  perm : c'.permDirty = true → c.permDirty = true

theorem Alike.refl (c : X87Cache) : Alike c c :=
  ⟨rfl, rfl, rfl, rfl, rfl, rfl, id⟩

/-- The parts of a machine that `Owed` looks at. -/
structure Steady (m m' : Machine) : Prop where
  sw : m'.guest.sw = m.guest.sw
  tw : m'.tw = m.tw
  wTop : m'.wTop = m.wTop

theorem Alike.owing (h : Alike c c') : owing c' ↔ owing c := by
  have hp : ∀ p, c'.owes p = c.owes p := by
    intro p
    cases p with
    | top => exact h.top
    | pops =>
        show decide (0 < c'.deferredPopCount) = _
        rw [h.pops]
        rfl
    | push => exact h.push
  simp only [Deferred.owing, hp]

theorem Alike.active (h : Alike c c') : c'.active = c.active := by
  show decide (0 < c'.runRemaining) = _
  rw [h.run]
  rfl

/-- What a step leaves alone, `Owed` keeps. -/
theorem Owed.steady (h : Owed unused k c m e) (hc : Alike c c')
    (hm : Steady m m') (he : Steady e e') :
    Owed unused k c' m' e' where
  sync := by rw [he.wTop, he.sw]; exact h.sync
  sw := by
    intro hk
    show (if c'.topDirty then withTop m'.guest.sw m'.wTop
      else m'.guest.sw) = _
    rw [hc.top, hm.sw, hm.wTop, he.sw]
    exact h.sw hk
  tw := by
    intro hk
    show (if c'.tagPushPending then
        tagClear (tagSetEmptyBatch m'.tw m'.wTop
          c'.deferredPopCount.toNat) m'.wTop
      else tagSetEmptyBatch m'.tw m'.wTop c'.deferredPopCount.toNat) = _
    rw [hc.push, hc.pops, hm.tw, hm.wTop, he.tw]
    exact h.tw hk
  apart := by rw [hc.push, hc.pops]; exact h.apart
  count := by rw [hc.pops]; exact h.count
  pushTag := by rw [hc.push, hm.tw, hm.wTop]; exact h.pushTag
  pushTop := by rw [hc.push, hc.top, hm.sw, hm.wTop]; exact h.pushTop
  owesTop := by rw [hc.owing, hm.wTop, he.wTop]; exact h.owesTop
  top := by rw [hm.wTop, he.wTop]; exact h.top
  zero := by rw [he.wTop]; exact h.zero
  loads := by rw [hc.unused]; exact h.loads
  quiet := by
    intro hu
    cases hd : c'.permDirty with
    | false => rfl
    | true => exact absurd (hc.perm hd) (by simp [h.quiet hu])
  begun := by rw [hc.active, hc.gprs]; exact h.begun
  alone := by rw [hc.active]; exact h.alone
  rest := by rw [hc.owing, hc.active, hc.gprs]; exact h.rest
  cached := by
    rw [hc.active, hc.gprs, hm.wTop, he.wTop]
    exact h.cached
  calm := by rw [hc.owing, hc.active]; exact h.calm
  topClean := by rw [hc.top]; exact h.topClean
  popsClean := by rw [hc.pops]; exact h.popsClean
  pushClean := by rw [hc.push]; exact h.pushClean
  few := by rw [hc.pops]; exact h.few
  done := by rw [hc.owing, hc.run]; exact h.done

/-- Integer registers do not matter to `Owed`. -/
theorem Owed.forgetX (h : Owed unused k c m e) :
    Owed unused k.forgetX c m e := by
  unfold Know.forgetX
  cases hk : k.top with
  | inX x =>
      exact { h with
        top := fun h' => TopKnow.noConfusion h'
        zero := fun h' => TopKnow.noConfusion h' }
  | lost => exact h
  | live => exact h
  | zero => exact h

theorem Same.forgetX (hg : m.guest.hideSw = e.guest.hideSw)
    (hs : m.slot = e.slot) (hx : m.scratch = e.scratch)
    (hh : m.hold = e.hold) : Same k.forgetX.top m e where
  guest := hg
  slot := hs
  scratch := hx
  hold := hh
  inX := by
    intro x hk
    unfold Know.forgetX at hk
    cases ht : k.top <;> simp [ht] at hk

@[simp] theorem sync_sync (m : Machine) : m.sync.sync = m.sync := rfl

theorem sync_eq (h : m.wTop = topOf m.guest.sw) : m.sync = m := by
  unfold Machine.sync
  rw [← h]

-- ================================================ the permutation flush

/-- A move of the rotation leaves all but the slots alone. -/
theorem exec_ofMove (image : Bool) (mv : Move Depth) (m : Machine) :
    ∃ slot hold, Insn.exec m (.ofMove image mv)
      = { m with slot, hold } := by
  cases mv with
  | save d => exact ⟨m.slot, m.slot (m.phys d), rfl⟩
  | copy dst src =>
      cases image with
      | false => exact ⟨_, m.hold, rfl⟩
      | true => exact ⟨_, m.hold, rfl⟩
  | restore d =>
      cases image with
      | false => exact ⟨_, m.hold, rfl⟩
      | true => exact ⟨_, m.hold, rfl⟩

/-- And does the same to both machines. -/
theorem exec_ofMove_same (image : Bool) (mv : Move Depth)
    (hw : m.wTop = e.wTop) (hs : m.slot = e.slot) (hh : m.hold = e.hold) :
    (Insn.exec m (.ofMove image mv)).slot
        = (Insn.exec e (.ofMove image mv)).slot
      ∧ (Insn.exec m (.ofMove image mv)).hold
        = (Insn.exec e (.ofMove image mv)).hold := by
  cases mv with
  | save d =>
      refine ⟨hs, ?_⟩
      show m.slot (m.wTop + d) = e.slot (e.wTop + d)
      rw [hs, hw]
  | copy dst src =>
      cases image <;>
        simp [Insn.exec, Insn.ofMove, Machine.put, Machine.setF64,
          Machine.setSlot, Machine.phys, hs, hw, hh]
  | restore d =>
      cases image <;>
        simp [Insn.exec, Insn.ofMove, Machine.put, Machine.setF64,
          Machine.setSlot, Machine.phys, hs, hw, hh]

/-- A row of moves leaves all but the slots alone and does the same to
both machines. -/
theorem exec_moves (image : Bool) (moves : List (Move Depth))
    (hw : m.wTop = e.wTop) (hs : m.slot = e.slot) (hh : m.hold = e.hold) :
    ∃ slot hold,
      exec (moves.map (Insn.ofMove image)) m = { m with slot, hold }
        ∧ exec (moves.map (Insn.ofMove image)) e
          = { e with slot, hold } := by
  induction moves generalizing m e with
  | nil => exact ⟨m.slot, m.hold, rfl, by rw [hs, hh]; rfl⟩
  | cons mv rest ih =>
      obtain ⟨s, o, hm⟩ := exec_ofMove image mv m
      obtain ⟨s', o', he⟩ := exec_ofMove image mv e
      obtain ⟨hs', hh'⟩ := exec_ofMove_same image mv hw hs hh
      rw [List.map_cons, exec, exec, runCode_cons, runCode_cons]
      obtain ⟨s'', o'', hm'', he''⟩ :=
        ih (m := Insn.exec m (.ofMove image mv))
          (e := Insn.exec e (.ofMove image mv))
          (by rw [hm, he]; exact hw) hs' hh'
      refine ⟨s'', o'', ?_, ?_⟩
      · exact hm''.trans (by rw [hm])
      · exact he''.trans (by rw [he])

/-- A permutation flush, where one is pending. -/
theorem Tracks.permFlush (h : Tracks unused k st e)
    (hw : st.1.permDirty = true → st.2.wTop = e.wTop) :
    Tracks unused k (perm_flush_before_stack_change.run Insn.exec st)
      (exec st.1.permCode e) := by
  obtain ⟨c, m⟩ := st
  unfold X87Cache.permCode perm_flush_before_stack_change Emit.when
    Emit.run
  dsimp only
  split
  next hd =>
    obtain ⟨slot, hold, hm, he⟩ := exec_moves c.permMovesF80
      (cycleMoves c.perm 8 X87Cache.depths []) (hw hd) h.same.slot
      h.same.hold
    show Tracks unused k ({ c.resetPerm with slotFmt := c.permutedFmt },
      exec (List.map _ _) m) (exec (List.map _ _) e)
    rw [hm, he]
    refine ⟨⟨h.same.guest, rfl, h.same.scratch, rfl, h.same.inX⟩,
      h.owed.steady ?_ ⟨rfl, rfl, rfl⟩ ⟨rfl, rfl, rfl⟩⟩
    exact ⟨rfl, rfl, rfl, rfl, rfl, rfl, fun hd => Bool.noConfusion hd⟩
  next => exact h

-- ================================================= settling an update

@[simp] theorem tagSetEmptyBatch_zero (tw : BitVec 16) (t : BitVec 3) :
    tagSetEmptyBatch tw t 0 = tw := rfl

/-- Settling owes no more than before. -/
theorem owing_settle {p : Pending} (h : owing (settle p c).1) :
    owing c := by
  obtain ⟨q, hq⟩ := h
  refine ⟨q, ?_⟩
  cases p <;> cases q <;>
    first
    | exact hq
    | exact Bool.noConfusion hq

/-- The machine after an owed update is written. -/
theorem Tracks.settle {p : Pending} (h : Tracks unused k (c, m) e)
    (hp : c.owes p = true) :
    Tracks unused (k.clean p)
      ((X87Sidecar.settle p).run Insn.exec (c, m)) e := by
  have ho := h.owed
  have hw : m.wTop = e.wTop := ho.owesTop ⟨p, hp⟩
  have same : Same (k.clean p).top
      (exec (X87Sidecar.settle p c).2 m) e := by
    cases p <;>
      exact ⟨h.same.guest, h.same.slot, h.same.scratch, h.same.hold,
        h.same.inX⟩
  cases p with
  | top =>
      have hd : c.topDirty = true := hp
      refine ⟨same, { ho with
        sw := ?_, tw := ho.tw, apart := ho.apart, pushTag := ho.pushTag,
        pushTop := fun _ hc => Bool.noConfusion hc,
        owesTop := fun _ => hw, topClean := fun _ => rfl,
        rest := fun hb hc => ho.rest hb (owing_settle hc),
        calm := fun hk hc => ho.calm hk (owing_settle hc),
        done := fun hk hc => ho.done hk (owing_settle hc) }⟩
      intro hk
      have hsw := ho.sw hk
      rw [← hsw]
      show withTop m.guest.sw m.wTop = if c.topDirty then _ else _
      rw [hd]
      rfl
  | pops =>
      have hpos : 0 < c.deferredPopCount := of_decide_eq_true hp
      have hpush : c.tagPushPending = false := by
        cases hc : c.tagPushPending with
        | false => rfl
        | true => exact absurd (ho.apart hc) (ne_of_gt hpos)
      refine ⟨same, { ho with
        sw := ho.sw, tw := ?_, apart := fun _ => rfl,
        count := ⟨le_refl 0, (by decide : (0 : Int) ≤ 8)⟩,
        pushTag := fun hc => absurd (hpush.symm.trans hc) (by decide),
        pushTop := ho.pushTop, owesTop := fun _ => hw,
        popsClean := fun _ => rfl, few := fun _ => (by decide : (0 : Int) < 8),
        rest := fun hb hc => ho.rest hb (owing_settle hc),
        calm := fun hk hc => ho.calm hk (owing_settle hc),
        done := fun hk hc => ho.done hk (owing_settle hc) }⟩
      intro hk
      have htw := ho.tw hk
      rw [← htw]
      show (if c.tagPushPending then tagClear _ _ else _)
        = if c.tagPushPending then tagClear _ _ else _
      rw [hpush]
      rfl
  | push =>
      have hpend : c.tagPushPending = true := hp
      refine ⟨same, { ho with
        sw := ho.sw, tw := ?_, apart := fun hc => Bool.noConfusion hc,
        pushTag := fun hc => Bool.noConfusion hc,
        pushTop := fun hc => Bool.noConfusion hc, owesTop := fun _ => hw,
        pushClean := fun _ => rfl,
        rest := fun hb hc => ho.rest hb (owing_settle hc),
        calm := fun hk hc => ho.calm hk (owing_settle hc),
        done := fun hk hc => ho.done hk (owing_settle hc) }⟩
      intro hk
      have htw := ho.tw hk
      rw [← htw]
      show tagSetEmptyBatch (tagClear m.tw m.wTop) m.wTop
          c.deferredPopCount.toNat
        = if c.tagPushPending then
            tagClear (tagSetEmptyBatch m.tw m.wTop
              c.deferredPopCount.toNat) m.wTop
          else _
      rw [hpend, ho.apart hpend]
      rfl

/-- What is not owed is settled. -/
theorem Tracks.clean {p : Pending} (h : Tracks unused k (c, m) e)
    (hp : c.owes p = false) : Tracks unused (k.clean p) (c, m) e := by
  cases p with
  | top => exact ⟨h.same, { h.owed with topClean := fun _ => hp }⟩
  | pops =>
      have hzero : c.deferredPopCount = 0 :=
        le_antisymm (not_lt.mp (of_decide_eq_false hp)) h.owed.count.1
      exact ⟨h.same, { h.owed with
        popsClean := fun _ => hzero
        few := fun _ => lt_of_eq_of_lt hzero (by decide) }⟩
  | push => exact ⟨h.same, { h.owed with pushClean := fun _ => hp }⟩

/-- A flush, whatever is owed. -/
theorem Tracks.flush (p : Pending) (h : Tracks unused k st e) :
    Tracks unused (k.clean p) ((X87Sidecar.flush p).run Insn.exec st)
      e := by
  unfold X87Sidecar.flush
  rw [Emit.run_when]
  split
  next hp => exact h.settle hp
  next hp => exact h.clean (by simpa using hp)

/-- Less may be known. -/
theorem Tracks.forget {p : Pending}
    (h : Tracks unused (k.clean p) st e) : Tracks unused k st e := by
  cases p with
  | top =>
      exact ⟨h.same, { h.owed with
        topClean := fun _ => h.owed.topClean rfl }⟩
  | pops =>
      exact ⟨h.same, { h.owed with
        popsClean := fun _ => h.owed.popsClean rfl
        few := fun _ => h.owed.few rfl }⟩
  | push =>
      exact ⟨h.same, { h.owed with
        pushClean := fun _ => h.owed.pushClean rfl }⟩

-- ===================================================== begin and end

/-- Nothing is owed. -/
theorem not_owing_iff : ¬owing c ↔
    c.topDirty = false ∧ c.deferredPopCount ≤ 0
      ∧ c.tagPushPending = false := by
  constructor
  · intro h
    refine ⟨?_, ?_, ?_⟩
    · cases hd : c.topDirty with
      | false => rfl
      | true => exact absurd ⟨.top, hd⟩ h
    · by_contra hn
      exact h ⟨.pops, decide_eq_true (not_le.mp hn)⟩
    · cases hd : c.tagPushPending with
      | false => rfl
      | true => exact absurd ⟨.push, hd⟩ h
  · intro h hc
    obtain ⟨p, hp⟩ := hc
    cases p with
    | top => exact absurd (hp.symm.trans h.1) (by decide)
    | pops =>
        have hpos : 0 < c.deferredPopCount := of_decide_eq_true hp
        exact absurd h.2.1 (not_le.mpr hpos)
    | push => exact absurd (hp.symm.trans h.2.2) (by decide)

/-- With nothing owed, memory is the state. -/
theorem denote_of_not_owing (h : ¬owing c) (m : Machine) :
    c.denote m = m := by
  obtain ⟨ht, hp, hs⟩ := not_owing_iff.mp h
  unfold X87Cache.denote
  rw [ht, hs, Int.toNat_of_nonpos hp]
  rfl

/-- Nothing is owed: the count of pops is 0. -/
theorem Owed.idle (h : Owed unused k c m e) (hq : ¬owing c) :
    c.deferredPopCount = 0 :=
  le_antisymm (not_owing_iff.mp hq).2.1 h.count.1

/-- What `x87_begin` leaves known. -/
def Know.start (unused : Bool) (k : Know) : Know :=
  { k with
    begun := true, calm := true,
    top := if unused then .lost else .live }

/-- TOP's register after `x87_begin`. -/
theorem begin_top (h : Tracks unused k (c, m) e) (hb : k.begun = false)
    (hsw : k.sw = true) (hu : unused = false) :
    (x87_begin.run Insn.exec (c, m)).2.wTop = e.wTop := by
  have ho := h.owed
  unfold x87_begin Emit.run
  dsimp only
  split
  next hc => exact ho.cached hb hu (decide_eq_true hc.1) hc.2
  next hc =>
    have hquiet : ¬owing c := by
      intro howe
      obtain ⟨ha, hg⟩ := ho.rest hb howe
      exact hc ⟨of_decide_eq_true ha, hg⟩
    have hmem : m.guest.sw = e.guest.sw := by
      have hden := ho.sw hsw
      rwa [denote_of_not_owing hquiet] at hden
    have hload : topOf m.guest.sw = e.wTop := by rw [hmem, ho.sync]
    split
    next =>
      show (exec (if c.topUnused then _ else _) m).wTop = _
      rw [ho.loads hu]
      exact hload
    next => exact hload

/-- With nothing owed TOP's register may be loaded. -/
theorem Owed.load (h : Owed unused k c m e) (hq : ¬owing c)
    (gprs : Bool) (w : BitVec 3)
    (hg : c.active = true → gprs = true)
    (hw : unused = false → w = e.wTop) :
    Owed unused (k.start unused) { c with gprsValid := gprs }
      { m with wTop := w } e := by
  obtain ⟨ht, hp, hs⟩ := not_owing_iff.mp hq
  have hnone : ∀ {P : Prop}, owing { c with gprsValid := gprs } → P :=
    fun hc => absurd hc hq
  exact {
    sync := h.sync
    sw := by
      intro hk
      rw [denote_of_not_owing (c := { c with gprsValid := gprs }) hq]
      have hden := h.sw hk
      rwa [denote_of_not_owing hq] at hden
    tw := by
      intro hk
      rw [denote_of_not_owing (c := { c with gprsValid := gprs }) hq]
      have hden := h.tw hk
      rwa [denote_of_not_owing hq] at hden
    apart := h.apart
    count := h.count
    pushTag := fun hc => absurd (hs.symm.trans hc) (by decide)
    pushTop := fun hc => absurd (hs.symm.trans hc) (by decide)
    owesTop := hnone
    top := by
      intro hk
      cases hu : unused with
      | false => exact hw hu
      | true =>
          unfold Know.start at hk
          rw [hu] at hk
          cases hk
    zero := by
      intro hk
      unfold Know.start at hk
      cases hu : unused <;> rw [hu] at hk <;> cases hk
    loads := h.loads
    quiet := h.quiet
    begun := fun _ => hg
    alone := h.alone
    rest := fun hb => Bool.noConfusion hb
    cached := fun hb => Bool.noConfusion hb
    calm := fun _ => hnone
    topClean := h.topClean
    popsClean := h.popsClean
    pushClean := h.pushClean
    few := h.few
    done := fun _ => hnone }

theorem Same.start (h : Same k.top m e) (w : BitVec 3) :
    Same (k.start unused).top { m with wTop := w } e := by
  refine ⟨h.guest, h.slot, h.scratch, h.hold, ?_⟩
  intro x hk
  unfold Know.start at hk
  cases unused <;> cases hk

/-- `x87_begin`. -/
theorem Tracks.begin (h : Tracks unused k (c, m) e)
    (hb : k.begun = false) (hsw : k.sw = true) :
    Tracks unused (k.start unused) (x87_begin.run Insn.exec (c, m))
      e := by
  have ho := h.owed
  have htop := begin_top h hb hsw
  unfold x87_begin Emit.run at htop ⊢
  dsimp only at htop ⊢
  split
  next hc =>
    have ha : c.active = true := decide_eq_true hc.1
    rw [if_pos hc] at htop
    refine ⟨h.same.start m.wTop, { ho with
      top := ?_, zero := ?_, begun := fun _ _ => hc.2,
      rest := fun hb => Bool.noConfusion hb,
      cached := fun hb => Bool.noConfusion hb, calm := fun _ _ => ha }⟩
    · intro hk
      cases hu : unused with
      | false => exact htop hu
      | true =>
          unfold Know.start at hk
          rw [hu] at hk
          cases hk
    · intro hk
      unfold Know.start at hk
      cases hu : unused <;> rw [hu] at hk <;> cases hk
  next hc =>
    have hquiet : ¬owing c := by
      intro howe
      obtain ⟨ha, hg⟩ := ho.rest hb howe
      exact hc ⟨of_decide_eq_true ha, hg⟩
    rw [if_neg hc] at htop
    split
    next hr =>
      rw [if_pos hr] at htop
      have hset : exec (if c.topUnused then [] else [.loadTop]) m
          = { m with
              wTop := if c.topUnused then m.wTop
                else topOf m.guest.sw } := by
        cases c.topUnused <;> rfl
      show Tracks _ _ (_, exec _ m) _
      rw [hset]
      refine ⟨h.same.start _, ho.load hquiet true _ (fun _ => rfl) ?_⟩
      intro hu
      have := htop hu
      rw [← this]
      show _ = (exec _ m).wTop
      rw [hset]
    next hr =>
      rw [if_neg hr] at htop
      have hact : c.active = false := decide_eq_false hr
      exact ⟨h.same.start _, ho.load hquiet c.gprsValid _
        (fun ha => absurd (hact.symm.trans ha) (by decide)) htop⟩

/-- Between two instructions. -/
theorem Tracks.atRest (h : Tracks unused k st e) (hb : k.begun = true)
    (hsw : k.sw = true) (htw : k.tw = true)
    (ht : unused = false → k.top = .live)
    (hr : owing st.1 → 1 < st.1.runRemaining) :
    Tracks unused { done := true } st e := by
  have ho := h.owed
  have ha : owing st.1 → st.1.active = true :=
    fun hc => decide_eq_true (Nat.lt_of_succ_lt (hr hc))
  refine ⟨⟨h.same.guest, h.same.slot, h.same.scratch, h.same.hold,
    fun x hx => TopKnow.noConfusion hx⟩, ?_⟩
  exact {
    sync := ho.sync
    sw := fun _ => ho.sw hsw
    tw := fun _ => ho.tw htw
    apart := ho.apart
    count := ho.count
    pushTag := ho.pushTag
    pushTop := ho.pushTop
    owesTop := ho.owesTop
    top := fun hk => TopKnow.noConfusion hk
    zero := fun hk => TopKnow.noConfusion hk
    loads := ho.loads
    quiet := ho.quiet
    begun := fun hk => Bool.noConfusion hk
    alone := fun hk => Bool.noConfusion hk
    rest := fun _ hc => ⟨ha hc, ho.begun hb (ha hc)⟩
    cached := fun _ hu _ _ => ho.top (ht hu)
    calm := fun hk => Bool.noConfusion hk
    topClean := fun hk => Bool.noConfusion hk
    popsClean := fun hk => Bool.noConfusion hk
    pushClean := fun hk => Bool.noConfusion hk
    few := fun hk => Bool.noConfusion hk
    done := fun _ => hr }

/-- `x87_end`. -/
theorem Tracks.finish {n : Nat} (h : Tracks unused k (c, m) e)
    (hb : k.begun = true) (hsw : k.sw = true) (htw : k.tw = true)
    (ht : unused = false → k.top = .live) (hn : 0 < n) :
    Tracks unused { done := true } ((x87_end n).run Insn.exec (c, m))
      (Act.eager c (.finish n) e) := by
  unfold x87_end
  rw [Emit.run_when]
  unfold Act.eager Act.eagerCode
  dsimp only
  by_cases hrun : c.runRemaining ≤ n
  · rw [if_pos (decide_eq_true hrun), if_pos hrun]
    have hperm := h.permFlush (by
      intro hd
      cases hu : unused with
      | false => exact h.owed.top (ht hu)
      | true =>
          exact absurd ((h.owed.quiet hu).symm.trans hd) (by decide))
    have hall := ((hperm.flush .pops).flush .push).flush .top
    simp only [Emit.run_all_cons, Emit.run_all_nil]
    rw [sync_eq hperm.owed.sync]
    apply hall.atRest hb hsw htw ht
    intro howe
    have hclean := not_owing_iff.mpr ⟨hall.owed.topClean rfl,
      (hall.owed.popsClean rfl).le, hall.owed.pushClean rfl⟩
    exact absurd howe hclean
  · rw [if_neg (by simpa using hrun), if_neg hrun]
    show Tracks unused { done := true } (c, m) e.sync
    rw [sync_eq h.owed.sync]
    refine h.atRest hb hsw htw ht ?_
    intro _
    show 1 < c.runRemaining
    omega

-- ======================================================= push and pop

/-- The permutation flush leaves all but the slots alone. -/
theorem exec_permCode (c : X87Cache) (e : Machine) :
    ∃ slot hold, exec c.permCode e = { e with slot, hold } := by
  unfold X87Cache.permCode perm_flush_before_stack_change Emit.when
  split
  next =>
    obtain ⟨slot, hold, -, he⟩ := exec_moves (m := e) (e := e)
      c.permMovesF80 (cycleMoves c.perm 8 X87Cache.depths []) rfl rfl rfl
    exact ⟨slot, hold, he⟩
  next => exact ⟨e.slot, e.hold, rfl⟩

theorem permCode_eq (c : X87Cache) :
    c.permCode
      = if c.permDirty then
          (cycleMoves c.perm 8 X87Cache.depths []).map
            (Insn.ofMove c.permMovesF80)
        else [] := by
  unfold X87Cache.permCode perm_flush_before_stack_change Emit.when
  split
  · rfl
  · rfl

theorem permCode_flush (p : Pending) (st : X87Cache × Machine) :
    ((flush p).run Insn.exec st).1.permCode = st.1.permCode := by
  rw [permCode_eq, permCode_eq]
  unfold flush
  rw [Emit.run_when]
  split
  · cases p <;> rfl
  · rfl

theorem active_flush (p : Pending) (st : X87Cache × Machine) :
    ((flush p).run Insn.exec st).1.active = st.1.active := by
  unfold flush
  rw [Emit.run_when]
  split
  · cases p <;> rfl
  · rfl

theorem active_permFlush (st : X87Cache × Machine) :
    (perm_flush_before_stack_change.run Insn.exec st).1.active
      = st.1.active := by
  unfold perm_flush_before_stack_change
  rw [Emit.run_when]
  split
  · rfl
  · rfl

theorem active_settled (st : X87Cache × Machine) :
    (perm_flush_before_stack_change.run Insn.exec
      ((flush .top).run Insn.exec ((flush .pops).run Insn.exec
        ((flush .push).run Insn.exec st)))).1.active = st.1.active := by
  rw [active_permFlush, active_flush, active_flush, active_flush]

theorem active_popFlush (st : X87Cache × Machine) :
    ((flush .push).run Insn.exec
      ((flush .pops).run Insn.exec st)).1.active = st.1.active := by
  rw [active_flush, active_flush]

/-- Where TOP was found and what the slots hold does not matter. -/
theorem alike_tracking (c : X87Cache) (k : Depth)
    (f : Depth → X87SlotFmt) :
    Alike c { c with topRel := k, slotFmt := f } :=
  ⟨rfl, rfl, rfl, rfl, rfl, rfl, id⟩

/-- The tracker's notes do not matter to `Owed`. -/
theorem alike_noteFmt (c : X87Cache) (d : Depth) (f : X87SlotFmt) :
    Alike c (c.noteFmt d f) := by
  unfold X87Cache.noteFmt
  split
  · exact alike_tracking c _ _
  · exact .refl c

theorem alike_noteRotate (c : X87Cache) (k : Depth) :
    Alike c (c.noteRotate k) := by
  unfold X87Cache.noteRotate
  split
  · exact alike_tracking c _ _
  · exact .refl c

theorem alike_noteReanchor (c : X87Cache) (f : X87SlotFmt) :
    Alike c (c.noteReanchor f) := by
  unfold X87Cache.noteReanchor
  split
  · exact alike_tracking c _ _
  · exact .refl c

theorem alike_noteSwap (c : X87Cache) (a b : Depth) :
    Alike c (c.noteSwap a b) := by
  unfold X87Cache.noteSwap
  split
  · exact alike_tracking c _ _
  · exact .refl c

theorem Alike.trans {c'' : X87Cache} (h : Alike c c')
    (h' : Alike c' c'') : Alike c c'' where
  run := h'.run.trans h.run
  gprs := h'.gprs.trans h.gprs
  top := h'.top.trans h.top
  push := h'.push.trans h.push
  pops := h'.pops.trans h.pops
  unused := h'.unused.trans h.unused
  perm := fun hd => h.perm (h'.perm hd)

theorem alike_notePush (c : X87Cache) : Alike c c.notePush :=
  (alike_noteRotate c _).trans (alike_noteFmt _ _ _)

theorem alike_notePop (c : X87Cache) : Alike c c.notePop :=
  (alike_noteFmt c _ _).trans (alike_noteRotate _ _)

theorem alike_notePopN (c : X87Cache) (n : Nat) :
    Alike c (c.notePopN n) := by
  induction n generalizing c with
  | zero => exact .refl c
  | succ n ih => exact (alike_notePop c).trans (ih c.notePop)

theorem Tracks.alike (h : Tracks unused k (c, m) e) (hc : Alike c c') :
    Tracks unused k (c', m) e :=
  ⟨h.same, h.owed.steady hc ⟨rfl, rfl, rfl⟩ ⟨rfl, rfl, rfl⟩⟩

/-- Everything settled: memory is the state, and TOP's register holds
TOP. -/
structure Settled (c : X87Cache) (m e : Machine) : Prop where
  quiet : ¬owing c
  wTop : m.wTop = e.wTop
  sw : m.guest.sw = e.guest.sw
  tw : m.tw = e.tw

theorem Tracks.settled (h : Tracks unused k (c, m) e) (hq : ¬owing c)
    (hw : m.wTop = e.wTop) (hsw : k.sw = true) (htw : k.tw = true) :
    Settled c m e := by
  refine ⟨hq, hw, ?_, ?_⟩
  · have := h.owed.sw hsw
    rwa [denote_of_not_owing hq] at this
  · have := h.owed.tw htw
    rwa [denote_of_not_owing hq] at this

/-- What a push or a pop may assume. -/
structure Know.ready (k : Know) : Prop where
  begun : k.begun = true
  calm : k.calm = true
  sw : k.sw = true
  tw : k.tw = true
  top : k.top = .live

theorem Know.ready.settled (h : k.ready) :
    (((k.clean .push).clean .pops).clean .top).ready :=
  ⟨h.begun, h.calm, h.sw, h.tw, h.top⟩

/-- The status word, the tag word and TOP after a push at once. -/
theorem eager_push (e : Machine) :
    (exec [.addTop (-1), .storeTop, .tagClear] e).sync
      = { e with
          wTop := e.wTop + -1,
          guest := { e.guest with
            sw := withTop e.guest.sw (e.wTop + -1) },
          tw := tagClear e.tw (e.wTop + -1) } := by
  unfold Machine.sync
  simp [exec, Insn.exec, Machine.setSw]

/-- The parts of the cache that a push or a pop leaves alone. -/
structure Beside (c c' : X87Cache) : Prop where
  run : c'.runRemaining = c.runRemaining
  gprs : c'.gprsValid = c.gprsValid
  unused : c'.topUnused = c.topUnused
  perm : c'.permDirty = true → c.permDirty = true

/-- After a push or a pop: TOP's register is right, and status word and
tag word are owed or written. -/
theorem Owed.stacked (h : Owed unused k c m e) (hk : k.ready)
    (hc : Beside c c') (sync : e'.wTop = topOf e'.guest.sw)
    (wTop : m'.wTop = e'.wTop)
    (sw : (c'.denote m').guest.sw = e'.guest.sw)
    (tw : (c'.denote m').tw = e'.tw)
    (apart : c'.tagPushPending = true → c'.deferredPopCount = 0)
    (count : 0 ≤ c'.deferredPopCount ∧ c'.deferredPopCount ≤ 8)
    (pushTag : c'.tagPushPending = true → tagOf m'.tw m'.wTop = 3)
    (pushTop : c'.tagPushPending = true → c'.topDirty = true →
      topOf m'.guest.sw = m'.wTop + 1)
    (calm : b = true → owing c' → c'.active = true) :
    Owed unused (k.stacked b) c' m' e' where
  sync := sync
  sw := fun _ => sw
  tw := fun _ => tw
  apart := apart
  count := count
  pushTag := pushTag
  pushTop := pushTop
  owesTop := fun _ => wTop
  top := fun _ => wTop
  zero := fun hz => absurd (hk.top.symm.trans hz) TopKnow.noConfusion
  loads := by rw [hc.unused]; exact h.loads
  quiet := by
    intro hu
    cases hd : c'.permDirty with
    | false => rfl
    | true => exact absurd (hc.perm hd) (by simp [h.quiet hu])
  begun := by
    show k.begun = true → decide (0 < c'.runRemaining) = true → _
    rw [hc.run, hc.gprs]
    exact h.begun
  alone := by
    show k.alone = true → decide (0 < c'.runRemaining) = false
    rw [hc.run]
    exact h.alone
  rest := fun hb => absurd (hk.begun.symm.trans hb) (by decide)
  cached := fun hb => absurd (hk.begun.symm.trans hb) (by decide)
  calm := calm
  topClean := fun hf => Bool.noConfusion hf
  popsClean := fun hf => Bool.noConfusion hf
  pushClean := fun hf => Bool.noConfusion hf
  few := fun hf => Bool.noConfusion hf
  done := fun hf => Bool.noConfusion hf

theorem Same.stacked (h : Same k.top m e) (hk : k.ready)
    (hg : m'.guest.hideSw = m.guest.hideSw) (hs : m'.slot = m.slot)
    (hx : m'.scratch = m.scratch) (hh : m'.hold = m.hold)
    (hg' : e'.guest.hideSw = e.guest.hideSw) (hs' : e'.slot = e.slot)
    (hx' : e'.scratch = e.scratch) (hh' : e'.hold = e.hold) :
    Same (k.stacked b).top m' e' where
  guest := hg.trans (h.guest.trans hg'.symm)
  slot := hs.trans (h.slot.trans hs'.symm)
  scratch := hx.trans (h.scratch.trans hx'.symm)
  hold := hh.trans (h.hold.trans hh'.symm)
  inX := fun _ hx => absurd (hk.top.symm.trans hx) TopKnow.noConfusion

/-- The push of an active run, once everything else is settled. -/
theorem Tracks.pushed (h : Tracks unused k st e) (hk : k.ready)
    (hq : ¬owing st.1) (ha : st.1.active = true)
    (hempty : tagOf e.tw (e.wTop + -1) = 3) :
    Tracks unused (k.stacked true)
      ({ st.1 with topDirty := true, tagPushPending := true },
        { st.2 with wTop := st.2.wTop + -1 })
      (exec [.addTop (-1), .storeTop, .tagClear] e).sync := by
  obtain ⟨c, m⟩ := st
  have hs := h.settled hq (h.owed.top hk.top) hk.sw hk.tw
  have hpops : c.deferredPopCount = 0 := h.owed.idle hq
  rw [eager_push]
  refine ⟨h.same.stacked hk rfl rfl rfl rfl rfl rfl rfl rfl,
    h.owed.stacked hk ⟨rfl, rfl, rfl, id⟩ (topOf_withTop _ _).symm ?_ ?_ ?_ ?_
      h.owed.count ?_ ?_ ?_⟩
  · exact congrArg (· + -1) hs.wTop
  · show withTop m.guest.sw (m.wTop + -1) = _
    rw [hs.sw, hs.wTop]
  · show tagClear (tagSetEmptyBatch m.tw _ c.deferredPopCount.toNat) _ = _
    rw [hpops, Int.toNat_zero, tagSetEmptyBatch_zero, hs.tw, hs.wTop]
  · intro _
    exact hpops
  · intro _
    show tagOf m.tw (m.wTop + -1) = 3
    rw [hs.tw, hs.wTop]
    exact hempty
  · intro _ _
    show topOf m.guest.sw = m.wTop + -1 + 1
    rw [hs.sw, ← h.owed.sync, hs.wTop]
    bv_omega
  · intro _ _
    exact ha

/-- The push of an isolated instruction. -/
theorem Tracks.pushedAlone (h : Tracks unused k (c, m) e) (hk : k.ready)
    (hq : ¬owing c) :
    Tracks unused (k.stacked true)
      (c, exec [.addTop (-1), .storeTop, .tagClear] m)
      (exec [.addTop (-1), .storeTop, .tagClear] e).sync := by
  have hs := h.settled hq (h.owed.top hk.top) hk.sw hk.tw
  obtain ⟨_, _, hpush⟩ := not_owing_iff.mp hq
  have hnone : c.tagPushPending = true → ∀ {P : Prop}, P :=
    fun hc => absurd (hpush.symm.trans hc) (by decide)
  rw [eager_push]
  refine ⟨h.same.stacked hk rfl rfl rfl rfl rfl rfl rfl rfl,
    h.owed.stacked hk ⟨rfl, rfl, rfl, id⟩ (topOf_withTop _ _).symm ?_ ?_ ?_ ?_
      h.owed.count ?_ ?_ ?_⟩
  · exact congrArg (· + -1) hs.wTop
  · rw [denote_of_not_owing hq]
    show withTop m.guest.sw (m.wTop + -1) = _
    rw [hs.sw, hs.wTop]
  · rw [denote_of_not_owing hq]
    show tagClear m.tw (m.wTop + -1) = _
    rw [hs.tw, hs.wTop]
  · exact fun hc => hnone hc
  · exact fun hc => hnone hc
  · exact fun hc => hnone hc
  · exact fun _ hc => absurd hc hq

/-- `x87_push`. -/
theorem Tracks.push (h : Tracks unused k (c, m) e) (hk : k.ready)
    (hfit : tagOf e.tw (e.wTop - 1) = 3) :
    Tracks unused (k.stacked true) (x87_push.run Insn.exec (c, m))
      (Act.eager c .push e) := by
  unfold x87_push
  rw [Emit.run_seq, Emit.run_ite, Emit.run_modify]
  unfold Act.eager Act.eagerCode
  dsimp only
  by_cases ha : c.active = true
  · rw [if_pos ha, if_pos ha]
    have hclean := ((h.flush .push).flush .pops).flush .top
    have hperm := hclean.permFlush fun _ => hclean.owed.top hk.top
    rw [permCode_flush, permCode_flush, permCode_flush] at hperm
    have hq := not_owing_iff.mpr ⟨hperm.owed.topClean rfl,
      (hperm.owed.popsClean rfl).le, hperm.owed.pushClean rfl⟩
    obtain ⟨slot, hold, hcode⟩ := exec_permCode c e
    have hempty : tagOf (exec c.permCode e).tw
        ((exec c.permCode e).wTop + -1) = 3 := by
      rw [hcode]
      show tagOf e.tw (e.wTop + -1) = 3
      rw [show e.wTop + -1 = e.wTop - 1 by bv_omega]
      exact hfit
    rw [exec, runCode_append]
    simp only [Emit.run_all_cons]
    exact (hperm.pushed hk.settled hq ((active_settled (c, m)).trans ha)
      hempty).alike (alike_notePush _)
  · rw [if_neg ha, if_neg ha]
    have hq : ¬owing c := fun hc => ha (h.owed.calm hk.calm hc)
    exact (h.pushedAlone hk hq).alike (alike_notePush c)

/-- A tag cleared and set again. -/
theorem tagSetEmpty_tagClear {tw : BitVec 16} {s : BitVec 3}
    (h : tagOf tw s = 3) : tagSetEmpty (tagClear tw s) s = tw := by
  apply tagOf_ext
  intro t
  rw [tagOf_tagSetEmpty, tagOf_tagClear]
  by_cases ht : t = s
  · rw [if_pos ht, ht, h]
  · rw [if_neg ht, if_neg ht]

/-- One more pop put off. -/
theorem tagSetEmptyBatch_succ (tw : BitVec 16) (t : BitVec 3) (n : Nat) :
    tagSetEmptyBatch tw (t + 1) (n + 1)
      = tagSetEmpty (tagSetEmptyBatch tw t n) t := by
  unfold tagSetEmptyBatch
  rw [poppedSlots_succ, List.foldl_append]
  rfl

/-- The status word, the tag word and TOP after a pop at once. -/
theorem eager_pop (e : Machine) :
    (exec [.tagSetEmpty 0, .addTop 1, .storeTop] e).sync
      = { e with
          wTop := e.wTop + 1,
          guest := { e.guest with
            sw := withTop e.guest.sw (e.wTop + 1) },
          tw := tagSetEmpty e.tw e.wTop } := by
  have hphys : e.phys 0#3 = e.wTop := by
    show e.wTop + 0#3 = e.wTop
    simp
  unfold Machine.sync
  simp [exec, Insn.exec, Machine.setSw, hphys]

/-- The status word an update is owed to, whether or not it is. -/
theorem withTop_denote (h : (c.denote m).guest.sw = e.guest.sw)
    (t : BitVec 3) : withTop e.guest.sw t = withTop m.guest.sw t := by
  rw [← h]
  show withTop (if c.topDirty then _ else _) t = _
  split
  · rw [withTop_withTop]
  · rfl

/-- After a step that leaves no push pending. -/
theorem Owed.unpushed (h : Owed unused k c m e) (hk : k.ready)
    (hc : Beside c c') (hp : c'.tagPushPending = false)
    (sync : e'.wTop = topOf e'.guest.sw) (wTop : m'.wTop = e'.wTop)
    (sw : (if c'.topDirty then withTop m'.guest.sw m'.wTop
      else m'.guest.sw) = e'.guest.sw)
    (tw : tagSetEmptyBatch m'.tw m'.wTop c'.deferredPopCount.toNat
      = e'.tw)
    (count : 0 ≤ c'.deferredPopCount ∧ c'.deferredPopCount ≤ 8)
    (calm : b = true → owing c' → c'.active = true) :
    Owed unused (k.stacked b) c' m' e' := by
  have hnone : c'.tagPushPending = true → ∀ {P : Prop}, P :=
    fun hc => absurd (hp.symm.trans hc) (by decide)
  refine h.stacked hk hc sync wTop sw ?_ (fun hc => hnone hc) count
    (fun hc => hnone hc) (fun hc => hnone hc) calm
  show (if c'.tagPushPending then _ else _) = _
  rw [hp]
  exact tw

/-- A pop that finds a push still pending: the tag is not written at
all. -/
theorem tw_cancelled (h : Owed unused k c m e) (hk : k.tw = true)
    (hw : m.wTop = e.wTop) (hp : c.tagPushPending = true) :
    m.tw = tagSetEmpty e.tw e.wTop := by
  have hden : tagClear m.tw m.wTop = e.tw := by
    rw [← h.tw hk]
    show _ = if c.tagPushPending then
      tagClear (tagSetEmptyBatch m.tw m.wTop c.deferredPopCount.toNat)
        m.wTop
      else _
    rw [if_pos hp, h.apart hp]
    rfl
  rw [← hden, ← hw, tagSetEmpty_tagClear (h.pushTag hp)]

/-- Up to 127 the count of pops goes up by 1. -/
theorem int8_succ {n : Int} (h : 0 ≤ n) (hn : n < 127) :
    X87Cache.int8 (n + 1) = n + 1 := by
  unfold X87Cache.int8
  omega

/-- The slot at TOP is full: not every slot is owed a pop's tag. -/
theorem Owed.pops_lt (h : Owed unused k c m e) (hk : k.tw = true)
    (hw : m.wTop = e.wTop) (hfull : tagOf e.tw e.wTop ≠ 3)
    (hpush : c.tagPushPending = false) : c.deferredPopCount < 8 := by
  refine lt_of_le_of_ne h.count.2 fun height => hfull ?_
  rw [← h.tw hk]
  show tagOf (if c.tagPushPending then _ else tagSetEmptyBatch m.tw m.wTop
    c.deferredPopCount.toNat) _ = 3
  rw [hpush, height]
  show tagOf ((poppedSlots m.wTop 8).foldl tagSetEmpty m.tw) _ = 3
  rw [tagOf_foldl_tagSetEmpty, ← hw, if_pos]
  rw [top_mem_poppedSlots]

/-- The pop of an active run. -/
theorem Tracks.popped (h : Tracks unused k st e) (hk : k.ready)
    (ha : st.1.active = true) (hfull : tagOf e.tw e.wTop ≠ 3) :
    Tracks unused (k.stacked true) (popActive.run Insn.exec st)
      (exec [.tagSetEmpty 0, .addTop 1, .storeTop] e).sync := by
  obtain ⟨c, m⟩ := st
  have ho := h.owed
  have hw : m.wTop = e.wTop := ho.top hk.top
  have hw' : m.wTop + 1 = e.wTop + 1 := congrArg (· + 1) hw
  have hsw := withTop_denote (ho.sw hk.sw) (e.wTop + 1)
  rw [eager_pop]
  unfold popActive Emit.run
  dsimp only
  by_cases hp : c.tagPushPending = true
  · have htw := tw_cancelled ho hk.tw hw hp
    have hpops : c.deferredPopCount = 0 := ho.apart hp
    by_cases hd : c.topDirty = true
    · -- memory still has the TOP from before the push
      rw [if_pos (by rw [hp, hd]; rfl)]
      refine ⟨h.same.stacked hk rfl rfl rfl rfl rfl rfl rfl rfl,
        ho.unpushed hk ⟨rfl, rfl, rfl, id⟩ rfl (topOf_withTop _ _).symm hw'
          ?_ ?_ ho.count fun _ _ => ha⟩
      · show m.guest.sw = withTop e.guest.sw (e.wTop + 1)
        rw [hsw, ← hw, ← ho.pushTop hp hd, withTop_topOf]
      · show tagSetEmptyBatch m.tw _ c.deferredPopCount.toNat = _
        rw [hpops]
        exact htw
    · rw [if_neg (by simp [hd]), if_pos hp]
      refine ⟨h.same.stacked hk rfl rfl rfl rfl rfl rfl rfl rfl,
        ho.unpushed hk ⟨rfl, rfl, rfl, id⟩ rfl (topOf_withTop _ _).symm hw'
          ?_ ?_ ho.count fun _ _ => ha⟩
      · show withTop m.guest.sw (m.wTop + 1) = _
        rw [hsw, hw]
      · show tagSetEmptyBatch m.tw _ c.deferredPopCount.toNat = _
        rw [hpops]
        exact htw
  · rw [if_neg (by simp [hp]), if_neg hp]
    have hpush : c.tagPushPending = false := by simpa using hp
    have hpos : 0 ≤ c.deferredPopCount := ho.count.1
    have hlt : c.deferredPopCount < 8 := ho.pops_lt hk.tw hw hfull hpush
    have hcount : X87Cache.int8 (c.deferredPopCount + 1)
        = c.deferredPopCount + 1 := int8_succ hpos (by omega)
    refine ⟨h.same.stacked hk rfl rfl rfl rfl rfl rfl rfl rfl,
      ho.unpushed hk ⟨rfl, rfl, rfl, id⟩ hpush (topOf_withTop _ _).symm hw'
        ?_ ?_ ?_ fun _ _ => ha⟩
    · show withTop m.guest.sw (m.wTop + 1) = _
      rw [hsw, hw]
    · show tagSetEmptyBatch m.tw (m.wTop + 1)
        (X87Cache.int8 (c.deferredPopCount + 1)).toNat = _
      rw [hcount, show (c.deferredPopCount + 1).toNat
          = c.deferredPopCount.toNat + 1 by omega,
        tagSetEmptyBatch_succ, ← ho.tw hk.tw, ← hw]
      show _ = tagSetEmpty (if c.tagPushPending then _ else _) _
      rw [if_neg hp]
    · show 0 ≤ X87Cache.int8 (c.deferredPopCount + 1)
        ∧ X87Cache.int8 (c.deferredPopCount + 1) ≤ 8
      rw [hcount]
      exact ⟨by omega, hlt⟩

/-- `x87_pop`. -/
theorem Tracks.pop (h : Tracks unused k (c, m) e) (hk : k.ready)
    (hfit : tagOf e.tw e.wTop ≠ 3) :
    Tracks unused (k.stacked true) (x87_pop.run Insn.exec (c, m))
      (Act.eager c .pop e) := by
  unfold x87_pop
  rw [Emit.run_seq, Emit.run_ite, Emit.run_modify, Emit.run_seq]
  unfold Act.eager Act.eagerCode
  dsimp only
  by_cases ha : c.active = true
  · rw [if_pos ha, if_pos ha, exec, runCode_append]
    have hperm := h.permFlush fun _ => h.owed.top hk.top
    have hfull : tagOf (exec c.permCode e).tw (exec c.permCode e).wTop
        ≠ 3 := by
      obtain ⟨slot, hold, hcode⟩ := exec_permCode c e
      rw [hcode]
      exact hfit
    exact (hperm.popped hk ((active_permFlush (c, m)).trans ha)
      hfull).alike (alike_notePop _)
  · rw [if_neg ha, if_neg ha]
    have hq : ¬owing c := fun hc => ha (h.owed.calm hk.calm hc)
    have hs := h.settled hq (h.owed.top hk.top) hk.sw hk.tw
    obtain ⟨hd, -, hp⟩ := not_owing_iff.mp hq
    have hpops : c.deferredPopCount = 0 := h.owed.idle hq
    rw [List.nil_append, eager_pop]
    refine Tracks.alike (c := { c with topDirty := false }) ⟨?_, ?_⟩
      (alike_notePop _)
    · exact h.same.stacked hk rfl rfl rfl rfl rfl rfl rfl rfl
    · refine h.owed.unpushed hk ⟨rfl, rfl, rfl, id⟩ hp (topOf_withTop _ _).symm
        (congrArg (· + 1) hs.wTop) ?_ ?_ h.owed.count ?_
      · show withTop m.guest.sw (m.wTop + 1) = _
        rw [hs.sw, hs.wTop]
      · show tagSetEmptyBatch (tagSetEmpty m.tw (m.wTop + 0)) _
          c.deferredPopCount.toNat = _
        rw [hpops, Int.toNat_zero, tagSetEmptyBatch_zero, hs.tw, hs.wTop]
        simp
      · intro _ hc
        exact absurd hc (not_owing_iff.mpr ⟨rfl, hpops.le, hp⟩)

/-- The status word, the tag word and TOP after several pops at once. -/
theorem eager_popN (e : Machine) (n : Nat) :
    (exec [.tagSetEmptyNext n, .addTop (BitVec.ofNat 3 n), .storeTop]
        e).sync
      = { e with
          wTop := e.wTop + BitVec.ofNat 3 n,
          guest := { e.guest with
            sw := withTop e.guest.sw (e.wTop + BitVec.ofNat 3 n) },
          tw := (nextSlots e.wTop n).foldl tagSetEmpty e.tw } := by
  unfold Machine.sync
  simp [exec, Insn.exec, Machine.setSw]

/-- Pops whose tags are written at once, with TOP owed or not. -/
theorem Tracks.poppedN (h : Tracks unused k st e) (hk : k.ready)
    (n : Nat) (hpops : st.1.deferredPopCount = 0)
    (hpush : st.1.tagPushPending = false) (dirty : Bool)
    (ha : dirty = true → st.1.active = true) :
    Tracks unused (k.stacked true)
      ({ st.1 with topDirty := dirty },
        exec ([.tagSetEmptyNext n, .addTop (BitVec.ofNat 3 n)]
          ++ if dirty then [] else [.storeTop]) st.2)
      (exec [.tagSetEmptyNext n, .addTop (BitVec.ofNat 3 n), .storeTop]
        e).sync := by
  obtain ⟨c, m⟩ := st
  have ho := h.owed
  have hw : m.wTop = e.wTop := ho.top hk.top
  have hsw := withTop_denote (ho.sw hk.sw) (e.wTop + BitVec.ofNat 3 n)
  have htw : m.tw = e.tw := by
    rw [← ho.tw hk.tw]
    show _ = if c.tagPushPending then _
      else tagSetEmptyBatch m.tw m.wTop c.deferredPopCount.toNat
    rw [hpush, hpops]
    rfl
  have hcode : exec ([.tagSetEmptyNext n, .addTop (BitVec.ofNat 3 n)]
        ++ if dirty then [] else [.storeTop]) m
      = { m with
          wTop := m.wTop + BitVec.ofNat 3 n,
          guest := { m.guest with
            sw := if dirty then m.guest.sw
              else withTop m.guest.sw (m.wTop + BitVec.ofNat 3 n) },
          tw := (nextSlots m.wTop n).foldl tagSetEmpty m.tw } := by
    cases dirty <;> rfl
  rw [eager_popN]
  show Tracks _ _ (_, exec _ m) _
  rw [hcode]
  refine ⟨h.same.stacked hk rfl rfl rfl rfl rfl rfl rfl rfl,
    ho.unpushed hk ⟨rfl, rfl, rfl, id⟩ hpush (topOf_withTop _ _).symm
      (congrArg (· + BitVec.ofNat 3 n) hw) ?_ ?_ ho.count ?_⟩
  · show (if dirty then withTop (if dirty then _ else _) _
        else if dirty then _ else _) = _
    rw [hsw, ← hw]
    cases dirty <;> rfl
  · show tagSetEmptyBatch ((nextSlots m.wTop n).foldl tagSetEmpty m.tw) _
      c.deferredPopCount.toNat = _
    rw [hpops, Int.toNat_zero, tagSetEmptyBatch_zero, htw, hw]
  · intro _ hc
    cases hd : dirty with
    | true => exact ha hd
    | false =>
        rw [hd] at hc
        exact absurd hc
          (not_owing_iff.mpr ⟨rfl, (le_of_eq hpops :), hpush⟩)

/-- `x87_pop_n`. -/
theorem Tracks.popN (h : Tracks unused k (c, m) e) (hk : k.ready)
    (n : Nat) :
    Tracks unused (k.stacked true) ((x87_pop_n n).run Insn.exec (c, m))
      (Act.eager c (.popN n) e) := by
  have hflush := (h.flush .pops).flush .push
  have hready : ((k.clean .pops).clean .push).ready :=
    ⟨hk.begun, hk.calm, hk.sw, hk.tw, hk.top⟩
  have hactive := active_popFlush (c, m)
  unfold x87_pop_n
  simp only [Emit.run_all_cons, Emit.run_all_nil, Emit.run_modify]
  rw [Emit.run_ite, Emit.run_seq]
  unfold Act.eager Act.eagerCode
  dsimp only
  by_cases ha : c.active = true
  · rw [if_pos (hactive.trans ha), if_pos ha, exec, runCode_append]
    have hperm := hflush.permFlush fun _ => hflush.owed.top hk.top
    rw [permCode_flush, permCode_flush] at hperm
    exact (hperm.poppedN hready n (hperm.owed.popsClean rfl)
      (hperm.owed.pushClean rfl) true
      fun _ => (active_permFlush _).trans (hactive.trans ha)).alike
        (alike_notePopN _ n)
  · rw [if_neg (by rw [hactive]; exact ha), if_neg ha]
    exact (hflush.poppedN hready n (hflush.owed.popsClean rfl)
      (hflush.owed.pushClean rfl) false
      fun hd => Bool.noConfusion hd).alike (alike_notePopN _ n)

/-- TOP moved with the tags settled. -/
theorem Tracks.rotate (h : Tracks unused k (c, m) e) (hk : k.ready)
    (hpops : c.deferredPopCount = 0) (hpush : c.tagPushPending = false)
    (d : Depth) :
    Tracks unused (k.stacked false) ((rotateTop d).run Insn.exec (c, m))
      (Act.eager c (.rotate d) e) := by
  have ho := h.owed
  have hw : m.wTop + d = e.wTop + d := congrArg (· + d) (ho.top hk.top)
  have hmove : Act.eager c (.rotate d) e
      = { e with
          wTop := e.wTop + d,
          guest := { e.guest with
            sw := withTop e.guest.sw (e.wTop + d) } } := by
    unfold Act.eager Act.eagerCode Machine.sync
    simp [exec, Insn.exec, Machine.setSw]
  have halike := alike_noteRotate c d
  have hpops' : (c.noteRotate d).deferredPopCount = 0 :=
    halike.pops.trans hpops
  have hcount : 0 ≤ (c.noteRotate d).deferredPopCount
      ∧ (c.noteRotate d).deferredPopCount ≤ 8 := by
    rw [hpops']
    decide
  rw [hmove]
  show Tracks _ _ ({ (c.noteRotate d) with topDirty := true },
    { m with wTop := m.wTop + d }) _
  refine ⟨h.same.stacked hk rfl rfl rfl rfl rfl rfl rfl rfl,
    ho.unpushed hk ⟨halike.run, halike.gprs, halike.unused, halike.perm⟩
      (halike.push.trans hpush) (topOf_withTop _ _).symm hw ?_ ?_
      hcount ?_⟩
  · show withTop m.guest.sw (m.wTop + d) = _
    rw [withTop_denote (ho.sw hk.sw), hw]
  · show tagSetEmptyBatch m.tw _
      (c.noteRotate d).deferredPopCount.toNat = _
    rw [hpops', Int.toNat_zero, tagSetEmptyBatch_zero]
    have htw := ho.tw hk.tw
    rw [← htw]
    show _ = if c.tagPushPending then _
      else tagSetEmptyBatch m.tw m.wTop c.deferredPopCount.toNat
    rw [hpush, hpops]
    rfl
  · exact fun hc => Bool.noConfusion hc

-- ================================================ slots and registers

/-- Slots and registers changed alike. -/
theorem Tracks.data (h : Tracks unused k (c, m) e) (ht : k.top = .live)
    (hc : Alike c c') (slot : BitVec 3 → BitVec 80) (scratch : Scratch) :
    Tracks unused k (c', { m with slot, scratch })
      ({ e with slot, scratch } : Machine).sync := by
  rw [sync_eq (m := { e with slot, scratch }) h.owed.sync]
  exact ⟨⟨h.same.guest, rfl, rfl, h.same.hold,
      fun x hx => absurd (ht.symm.trans hx) TopKnow.noConfusion⟩,
    h.owed.steady hc ⟨rfl, rfl, rfl⟩ ⟨rfl, rfl, rfl⟩⟩

/-- What the slot accesses depend on and change. -/
theorem exec_slots {i : Insn}
    (h : (∃ d k r, i = .ldSt d k r) ∨ (∃ d r, i = .stSt d r)
      ∨ (∃ k r, i = .stKey k r) ∨ (∃ d q, i = .ldImage d q)
      ∨ ∃ d q, i = .stImage d q) :
    ∃ (f : BitVec 3 → (BitVec 3 → BitVec 80) → Scratch →
        BitVec 3 → BitVec 80)
      (g : BitVec 3 → (BitVec 3 → BitVec 80) → Scratch → Scratch),
      ∀ m, Insn.exec m i = { m with
        slot := f m.wTop m.slot m.scratch,
        scratch := g m.wTop m.slot m.scratch } := by
  rcases h with ⟨d, k, r, rfl⟩ | ⟨d, r, rfl⟩ | ⟨k, r, rfl⟩
    | ⟨d, q, rfl⟩ | ⟨d, q, rfl⟩
  · exact ⟨fun _ s _ => s,
      fun t s x => (x.setKey k (t + d)).setD r (slotF64 (s (t + d))),
      fun _ => rfl⟩
  · exact ⟨fun t s x => Function.update s (t + d)
        (slotWithF64 (s (t + d)) (x.d r)), fun _ _ x => x, fun _ => rfl⟩
  · exact ⟨fun _ s x => Function.update s (x.key k)
        (slotWithF64 (s (x.key k)) (x.d r)), fun _ _ x => x,
      fun _ => rfl⟩
  · exact ⟨fun _ s _ => s, fun t s x => x.setQ q (s (t + d)),
      fun _ => rfl⟩
  · exact ⟨fun t s x => Function.update s (t + d) (x.q q),
      fun _ _ x => x, fun _ => rfl⟩

/-- A slot access, with or without a note in the tracker. -/
theorem Tracks.slots (h : Tracks unused k (c, m) e) (ht : k.top = .live)
    (hc : Alike c c') {i : Insn}
    (hi : (∃ d k r, i = .ldSt d k r) ∨ (∃ d r, i = .stSt d r)
      ∨ (∃ k r, i = .stKey k r) ∨ (∃ d q, i = .ldImage d q)
      ∨ ∃ d q, i = .stImage d q) :
    Tracks unused k (c', exec [i] m) (exec [i] e).sync := by
  obtain ⟨f, g, hexec⟩ := exec_slots hi
  show Tracks unused k (c', Insn.exec m i) (Insn.exec e i).sync
  have hf : f e.wTop e.slot e.scratch = f m.wTop m.slot m.scratch := by
    rw [h.owed.top ht, h.same.slot, h.same.scratch]
  have hg : g e.wTop e.slot e.scratch = g m.wTop m.slot m.scratch := by
    rw [h.owed.top ht, h.same.slot, h.same.scratch]
  rw [hexec m, hexec e, hf, hg]
  exact h.data ht hc _ _

/-- Integer registers loaded or computed alike. -/
theorem Tracks.loadX (h : Tracks unused k (c, m) e) (x : Nat)
    (v : BitVec 64) :
    Tracks unused k.forgetX
      (c, { m with scratch := m.scratch.setX x v })
      ({ e with scratch := e.scratch.setX x v } : Machine).sync := by
  rw [sync_eq (m := { e with scratch := e.scratch.setX x v })
    h.owed.sync]
  exact ⟨Same.forgetX h.same.guest h.same.slot
      (congrArg (·.setX x v) h.same.scratch) h.same.hold,
    h.owed.forgetX.steady (.refl _) ⟨rfl, rfl, rfl⟩ ⟨rfl, rfl, rfl⟩⟩

/-- A computation. -/
theorem Tracks.compute (h : Tracks unused k (c, m) e)
    (f : Guest → Scratch → Guest × Scratch) :
    Tracks unused k.forgetX (c, m.compute f) (e.compute f).sync := by
  have hsync : (e.compute f).wTop = topOf (e.compute f).guest.sw :=
    h.owed.sync
  rw [sync_eq hsync]
  have hres : f m.guest.hideSw m.scratch = f e.guest.hideSw e.scratch := by
    rw [h.same.guest, h.same.scratch]
  refine ⟨Same.forgetX ?_ h.same.slot ?_ h.same.hold,
    h.owed.forgetX.steady (.refl _) ⟨rfl, rfl, rfl⟩ ⟨rfl, rfl, rfl⟩⟩
  · show ({ (f m.guest.hideSw m.scratch).1 with
        sw := m.guest.sw } : Guest).hideSw
      = ({ (f e.guest.hideSw e.scratch).1 with
          sw := e.guest.sw } : Guest).hideSw
    rw [hres]
    rfl
  · show (f m.guest.hideSw m.scratch).2 = (f e.guest.hideSw e.scratch).2
    rw [hres]

-- ========================================= status word and tag word

/-- The tag word, with neither push nor pops owed. -/
theorem Owed.tw_eq (h : Owed unused k c m e) (hk : k.tw = true)
    (hpops : c.deferredPopCount = 0) (hpush : c.tagPushPending = false) :
    m.tw = e.tw := by
  rw [← h.tw hk]
  show _ = if c.tagPushPending then _
    else tagSetEmptyBatch m.tw m.wTop c.deferredPopCount.toNat
  rw [hpush, hpops]
  rfl

/-- The status word, with TOP not owed. -/
theorem Owed.sw_eq (h : Owed unused k c m e) (hk : k.sw = true)
    (ht : c.topDirty = false) : m.guest.sw = e.guest.sw := by
  rw [← h.sw hk]
  show _ = if c.topDirty then _ else m.guest.sw
  rw [ht]
  rfl

/-- The tag of the slot at TOP, with fewer than eight pops owed. -/
theorem Owed.tag_eq (h : Owed unused k c m e) (hk : k.tw = true)
    (hfew : c.deferredPopCount < 8) (hpush : c.tagPushPending = false) :
    tagOf m.tw m.wTop = tagOf e.tw m.wTop := by
  rw [← h.tw hk]
  show _ = tagOf (if c.tagPushPending then _
    else tagSetEmptyBatch m.tw m.wTop c.deferredPopCount.toNat) _
  rw [hpush]
  show _ = tagOf ((poppedSlots m.wTop c.deferredPopCount.toNat).foldl
    tagSetEmpty m.tw) _
  rw [tagOf_foldl_tagSetEmpty, if_neg]
  rw [top_mem_poppedSlots]
  omega

/-- A tag word written or changed with neither push nor pops owed. -/
theorem Tracks.setTw (h : Tracks unused k (c, m) e) (hc : Alike c c')
    (hpops : c.deferredPopCount = 0) (hpush : c.tagPushPending = false)
    (v : BitVec 16) :
    Tracks unused { k with tw := true } (c', { m with tw := v })
      ({ e with tw := v } : Machine).sync := by
  rw [sync_eq (m := { e with tw := v }) h.owed.sync]
  refine ⟨⟨h.same.guest, h.same.slot, h.same.scratch, h.same.hold,
    h.same.inX⟩, ?_⟩
  have hs := h.owed.steady hc ⟨rfl, rfl, rfl⟩ ⟨rfl, rfl, rfl⟩
  have hpush' : c'.tagPushPending = false := hc.push.trans hpush
  exact { hs with
    tw := by
      intro _
      show (if c'.tagPushPending then _
        else tagSetEmptyBatch v m.wTop c'.deferredPopCount.toNat) = v
      rw [hpush', hc.pops.trans hpops]
      rfl
    pushTag := fun hp => absurd (hpush'.symm.trans hp) (by decide) }

/-- The condition codes written. -/
theorem Tracks.ccWrite (h : Tracks unused k (c, m) e)
    (hk : k.sw = true) (x : Nat) :
    Tracks unused k.forgetX (c, Insn.exec m (.ccWrite x))
      (Insn.exec e (.ccWrite x)).sync := by
  have ho := h.owed.forgetX
  have hx : m.scratch.x x = e.scratch.x x := by rw [h.same.scratch]
  have hsync : (Insn.exec e (.ccWrite x)).wTop
      = topOf (Insn.exec e (.ccWrite x)).guest.sw :=
    ho.sync.trans (topOf_withCC _ _).symm
  rw [sync_eq hsync]
  refine ⟨Same.forgetX h.same.guest h.same.slot h.same.scratch
    h.same.hold, { ho with sync := hsync, sw := ?_, pushTop := ?_ }⟩
  · intro _
    have hsw := h.owed.sw hk
    show (if c.topDirty then withTop (withCC m.guest.sw _) m.wTop
      else withCC m.guest.sw _) = withCC e.guest.sw _
    rw [← hsw, hx, withTop_withCC]
    show _ = withCC (if c.topDirty then _ else _) _
    split
    · rfl
    · rfl
  · intro hp hd
    exact (topOf_withCC _ _).trans (ho.pushTop hp hd)

/-- The status word replaced, with nothing owed. -/
theorem Tracks.stSw (h : Tracks unused k (c, m) e) (hq : ¬owing c)
    (hb : k.begun = true ∨ k.alone = true) (t : TopKnow)
    (ht : t ≠ .live) (x : Nat) (hx : ∀ y, t = .inX y → y = x)
    (hz : t = .zero → topOf ((m.scratch.x x).setWidth 16) = 0) :
    Tracks unused { k with top := t, sw := true }
      (c, Insn.exec m (.stSw x)) (Insn.exec e (.stSw x)).sync := by
  have ho := h.owed
  have hscr : m.scratch.x x = e.scratch.x x := by rw [h.same.scratch]
  obtain ⟨hd, hpops, hpush⟩ := not_owing_iff.mp hq
  refine ⟨⟨h.same.guest, h.same.slot, h.same.scratch, h.same.hold, ?_⟩,
    { ho with
      sync := rfl, sw := ?_, tw := ho.tw, pushTop := ?_,
      top := fun hl => absurd hl ht, zero := ?_,
      owesTop := fun hc => absurd hc hq, cached := ?_ }⟩
  · intro y hy
    show (m.scratch.x y).setWidth 16 = (e.scratch.x x).setWidth 16
    rw [hx y hy, hscr]
  · intro _
    show (if c.topDirty then _ else (m.scratch.x x).setWidth 16)
      = (e.scratch.x x).setWidth 16
    rw [hd, hscr]
    rfl
  · exact fun hp => absurd (hpush.symm.trans hp) (by decide)
  · intro h0
    rw [← hz h0, hscr]
    rfl
  · intro hf _ hact
    rcases hb with hb | hb
    · exact absurd (hb.symm.trans hf) (by decide)
    · exact absurd ((ho.alone hb).symm.trans hact) (by decide)

/-- TOP's register set to the TOP just written, with nothing owed. -/
theorem Tracks.setTop (h : Tracks unused k (c, m) e) (hc : Alike c c')
    (hq : ¬owing c) {w : BitVec 3} (hw : w = e.wTop) :
    Tracks unused { k with top := .live } (c', { m with wTop := w })
      e := by
  have ho := h.owed.steady hc ⟨rfl, rfl, rfl⟩ ⟨rfl, rfl, rfl⟩
  have hq' : ¬owing c' := by rwa [hc.owing]
  obtain ⟨hd, hpops, hpush⟩ := not_owing_iff.mp hq'
  refine ⟨⟨h.same.guest, h.same.slot, h.same.scratch, h.same.hold,
    fun x hx => TopKnow.noConfusion hx⟩, { ho with
      sw := ?_, tw := ?_, pushTag := ?_, pushTop := ?_,
      owesTop := fun _ => hw, top := fun _ => hw,
      zero := fun hz => TopKnow.noConfusion hz,
      cached := fun _ _ _ _ => hw }⟩
  · intro hk
    have hsw := ho.sw hk
    rw [denote_of_not_owing hq'] at hsw ⊢
    exact hsw
  · intro hk
    have htw := ho.tw hk
    rw [denote_of_not_owing hq'] at htw ⊢
    exact htw
  · exact fun hp => absurd (hpush.symm.trans hp) (by decide)
  · exact fun hp => absurd (hpush.symm.trans hp) (by decide)

/-- What is owed forgotten: both words are about to be replaced. -/
theorem Tracks.discard (h : Tracks unused k (c, m) e) :
    Tracks unused
      { k with
        topClean := true, popsClean := true, pushClean := true,
        few := true, sw := false, tw := false }
      (c.discard, m) e := by
  have ho := h.owed
  have hnone : ¬owing c.discard :=
    not_owing_iff.mpr ⟨rfl, le_refl 0, rfl⟩
  refine ⟨h.same, { ho with
    sw := fun hf => Bool.noConfusion hf
    tw := fun hf => Bool.noConfusion hf
    apart := fun _ => rfl
    count := ⟨le_refl 0, (by decide : (0 : Int) ≤ 8)⟩
    pushTag := fun hf => Bool.noConfusion hf
    pushTop := fun hf => Bool.noConfusion hf
    owesTop := fun hc => absurd hc hnone
    quiet := fun _ => rfl
    rest := fun _ hc => absurd hc hnone
    calm := fun _ hc => absurd hc hnone
    topClean := fun _ => rfl
    popsClean := fun _ => rfl
    pushClean := fun _ => rfl
    few := fun _ => (by decide : (0 : Int) < 8)
    done := fun _ hc => absurd hc hnone }⟩

/-- A flush that is not called has nothing to write, where the emitter
counts on it. -/
theorem Tracks.unheld {p : Pending} {g : Guard}
    (h : Tracks unused k (c, m) e) (hk : k.settles g = true)
    (hg : g.holds c = false) : c.owes p = false := by
  have ho := h.owed
  cases howe : c.owes p with
  | false => rfl
  | true =>
      have hc : owing c := ⟨p, howe⟩
      cases g with
      | always => exact Bool.noConfusion hg
      | gprsValid =>
          have hkk : k.begun = true ∧ k.calm = true := by
            simpa [Know.settles] using hk
          have hv := ho.begun hkk.1 (ho.calm hkk.2 hc)
          exact absurd (hg.symm.trans hv) (by decide)
      | baseCached =>
          have hb : k.begun = false := by simpa [Know.settles] using hk
          obtain ⟨ha, hv⟩ := ho.rest hb hc
          have hheld : (c.active && c.gprsValid) = true := by
            rw [ha, hv]
            rfl
          exact absurd (hg.symm.trans hheld) (by decide)
      | unlessPush => exact Bool.noConfusion hk

/-- A flush under a condition. -/
theorem Tracks.flushUnder (h : Tracks unused k (c, m) e) (p : Pending)
    (g : Guard) :
    Tracks unused (if k.settles g then k.clean p else k)
      ((Act.flush p g).run (c, m)) (Act.eager c (.flush p g) e) := by
  have heager : Act.eager c (.flush p g) e = e := sync_eq h.owed.sync
  rw [heager]
  unfold Act.run Act.emit
  dsimp only
  rw [Emit.run_when]
  cases hg : g.holds c with
  | true =>
      have hflush := h.flush p
      cases k.settles g with
      | true => exact hflush
      | false => exact hflush.forget
  | false =>
      cases hk : k.settles g with
      | true => exact h.clean (h.unheld hk hg)
      | false => exact h

theorem not_owing_of_settled (h : Owed unused k c m e)
    (hk : k.settled = true) : ¬owing c := by
  simp only [Know.settled, Bool.and_eq_true] at hk
  exact not_owing_iff.mpr
    ⟨h.topClean hk.1.1, (h.popsClean hk.1.2).le, h.pushClean hk.2⟩

-- ============================================================= one step

/-- One step of an emitter keeps the two machines together, as far as
`learn` says. -/
theorem Tracks.step (h : Tracks unused k (c, m) e) (a : Act)
    (hl : learn unused k a = some k') (hfit : a.fits e = true) :
    Tracks unused k' (a.run (c, m)) (a.eager c e) := by
  have ho := h.owed
  have hsync : e.sync = e := sync_eq ho.sync
  cases a with
  | begin =>
      simp only [learn, Option.ite_none_right_eq_some, Bool.and_eq_true,
        Bool.not_eq_true', Option.some.injEq] at hl
      obtain ⟨⟨hb, hsw⟩, rfl⟩ := hl
      have hbegin := h.begin hb hsw
      show Tracks _ _ _ e.sync
      rw [hsync]
      exact hbegin
  | finish n =>
      simp only [learn, Option.ite_none_right_eq_some, Bool.and_eq_true,
        decide_eq_true_eq, Bool.or_eq_true, Option.some.injEq] at hl
      obtain ⟨⟨⟨⟨⟨hb, hsw⟩, htw⟩, hn⟩, ht⟩, rfl⟩ := hl
      refine h.finish hb hsw htw ?_ hn
      intro hu
      rcases ht with ht | ht
      · exact absurd (hu.symm.trans ht) (by decide)
      · exact ht
  | flush p g =>
      simp only [learn, Option.some.injEq] at hl
      subst hl
      exact h.flushUnder p g
  | flushPerm =>
      simp only [learn, Option.ite_none_right_eq_some,
        Option.some.injEq] at hl
      obtain ⟨ht, rfl⟩ := hl
      have hperm := h.permFlush fun _ => ho.top ht
      show Tracks _ _ _ (exec c.permCode e).sync
      rw [sync_eq hperm.owed.sync]
      exact hperm
  | push =>
      simp only [learn, Option.ite_none_right_eq_some, Bool.and_eq_true,
        decide_eq_true_eq, Option.some.injEq] at hl
      obtain ⟨⟨⟨⟨⟨hb, hc⟩, hsw⟩, htw⟩, ht⟩, rfl⟩ := hl
      exact h.push ⟨hb, hc, hsw, htw, ht⟩ (of_decide_eq_true hfit)
  | pop =>
      simp only [learn, Option.ite_none_right_eq_some, Bool.and_eq_true,
        decide_eq_true_eq, Option.some.injEq] at hl
      obtain ⟨⟨⟨⟨⟨hb, hc⟩, hsw⟩, htw⟩, ht⟩, rfl⟩ := hl
      exact h.pop ⟨hb, hc, hsw, htw, ht⟩ (of_decide_eq_true hfit)
  | popN n =>
      simp only [learn, Option.ite_none_right_eq_some, Bool.and_eq_true,
        decide_eq_true_eq, Option.some.injEq] at hl
      obtain ⟨⟨⟨⟨⟨hb, hc⟩, hsw⟩, htw⟩, ht⟩, rfl⟩ := hl
      exact h.popN ⟨hb, hc, hsw, htw, ht⟩ n
  | rotate d =>
      simp only [learn, Option.ite_none_right_eq_some, Bool.and_eq_true,
        decide_eq_true_eq, Option.some.injEq] at hl
      obtain ⟨⟨⟨⟨⟨⟨⟨hb, hc⟩, hsw⟩, htw⟩, hpops⟩, hpush⟩, ht⟩, rfl⟩ := hl
      exact h.rotate ⟨hb, hc, hsw, htw, ht⟩ (ho.popsClean hpops)
        (ho.pushClean hpush) d
  | exchange d =>
      simp only [learn, Option.ite_none_left_eq_some, Bool.not_eq_true,
        Option.some.injEq] at hl
      obtain ⟨hu, rfl⟩ := hl
      show Tracks _ _ (c.swapPerm d, m) e.sync
      rw [hsync]
      exact ⟨h.same, { ho with
        quiet := fun hu' => absurd (hu.symm.trans hu') (by decide) }⟩
  | free d =>
      simp only [learn, Option.ite_none_right_eq_some, Bool.and_eq_true,
        decide_eq_true_eq, Option.some.injEq] at hl
      obtain ⟨⟨⟨⟨htw, hpops⟩, hpush⟩, ht⟩, rfl⟩ := hl
      have hmark : tagSetEmpty m.tw (m.phys (c.resolveDepth d))
          = tagSetEmpty e.tw (e.phys (c.resolveDepth d)) := by
        rw [ho.tw_eq htw (ho.popsClean hpops) (ho.pushClean hpush)]
        exact congrArg (fun t => tagSetEmpty e.tw (t + c.resolveDepth d))
          (ho.top ht)
      have halike : Alike c (c.noteFree (c.resolveDepth d)) :=
        alike_noteFmt c _ _
      have hset := h.setTw halike (ho.popsClean hpops)
        (ho.pushClean hpush) (tagSetEmpty m.tw (m.phys (c.resolveDepth d)))
      show Tracks _ _ (c.noteFree _, Insn.exec m (.tagSetEmpty _))
        (Insn.exec e (.tagSetEmpty _)).sync
      unfold Insn.exec
      dsimp only
      rwa [← hmark]
  | load d key r =>
      simp only [learn, Option.ite_none_right_eq_some,
        Option.some.injEq] at hl
      obtain ⟨ht, rfl⟩ := hl
      exact h.slots ht (.refl _) (.inl ⟨_, _, _, rfl⟩)
  | store d r =>
      simp only [learn, Option.ite_none_right_eq_some,
        Option.some.injEq] at hl
      obtain ⟨ht, rfl⟩ := hl
      exact h.slots ht (alike_noteFmt c _ _) (.inr (.inl ⟨_, _, rfl⟩))
  | storeKey key r =>
      simp only [learn, Option.ite_none_right_eq_some,
        Option.some.injEq] at hl
      obtain ⟨ht, rfl⟩ := hl
      exact h.slots ht (.refl _) (.inr (.inr (.inl ⟨_, _, rfl⟩)))
  | loadImage d q =>
      simp only [learn, Option.ite_none_right_eq_some,
        Option.some.injEq] at hl
      obtain ⟨ht, rfl⟩ := hl
      exact h.slots ht (.refl _) (.inr (.inr (.inr (.inl ⟨_, _, rfl⟩))))
  | storeImage d q =>
      simp only [learn, Option.ite_none_right_eq_some,
        Option.some.injEq] at hl
      obtain ⟨ht, rfl⟩ := hl
      exact h.slots ht (.refl _) (.inr (.inr (.inr (.inr ⟨_, _, rfl⟩))))
  | noteNative d =>
      cases hl
      show Tracks _ _ (c.noteNative _, m) e.sync
      rw [hsync]
      exact h.alike (alike_noteFmt c _ _)
  | noteSwap d d' =>
      cases hl
      show Tracks _ _ (c.noteSwap d d', m) e.sync
      rw [hsync]
      exact h.alike (alike_noteSwap c d d')
  | ldSw x =>
      simp only [learn, Option.ite_none_right_eq_some, Bool.and_eq_true,
        Option.some.injEq] at hl
      obtain ⟨⟨hsw, htop⟩, rfl⟩ := hl
      have hload := h.loadX x (m.guest.sw.setWidth 64)
      show Tracks _ _ (c, Insn.exec m (.ldSw x))
        (Insn.exec e (.ldSw x)).sync
      unfold Insn.exec
      dsimp only
      rwa [← ho.sw_eq hsw (ho.topClean htop)]
  | stSw x =>
      simp only [learn, Option.ite_none_right_eq_some, Bool.and_eq_true,
        Bool.or_eq_true, Option.some.injEq] at hl
      obtain ⟨⟨hset, hb⟩, rfl⟩ := hl
      exact h.stSw (not_owing_of_settled ho hset) hb (.inX x)
        TopKnow.noConfusion x (fun y hy => (TopKnow.inX.inj hy).symm)
        TopKnow.noConfusion
  | ldTw x =>
      simp only [learn, Option.ite_none_right_eq_some, Bool.and_eq_true,
        Option.some.injEq] at hl
      obtain ⟨⟨⟨htw, hpops⟩, hpush⟩, rfl⟩ := hl
      have hload : Insn.exec m (.ldTw x)
          = { m with scratch := m.scratch.setX x (e.tw.setWidth 64) } := by
        unfold Insn.exec
        rw [ho.tw_eq htw (ho.popsClean hpops) (ho.pushClean hpush)]
      show Tracks _ _ (c, Insn.exec m (.ldTw x)) _
      rw [hload]
      exact h.loadX x (e.tw.setWidth 64)
  | stTw x =>
      simp only [learn, Option.ite_none_right_eq_some, Bool.and_eq_true,
        Option.some.injEq] at hl
      obtain ⟨⟨hpops, hpush⟩, rfl⟩ := hl
      have hset : Insn.exec m (.stTw x)
          = { m with tw := (e.scratch.x x).setWidth 16 } := by
        unfold Insn.exec
        rw [h.same.scratch]
      show Tracks _ _ (c, Insn.exec m (.stTw x)) _
      rw [hset]
      exact h.setTw (.refl _) (ho.popsClean hpops) (ho.pushClean hpush)
        ((e.scratch.x x).setWidth 16)
  | ldTag x =>
      simp only [learn, Option.ite_none_right_eq_some, Bool.and_eq_true,
        decide_eq_true_eq, Option.some.injEq] at hl
      obtain ⟨⟨⟨⟨htw, hfew⟩, hpush⟩, ht⟩, rfl⟩ := hl
      have hload := h.loadX x ((tagOf m.tw m.wTop).setWidth 64)
      have htag := ho.tag_eq htw (ho.few hfew) (ho.pushClean hpush)
      show Tracks _ _ (c, Insn.exec m (.ldTag x))
        (Insn.exec e (.ldTag x)).sync
      unfold Insn.exec
      dsimp only
      rwa [← ho.top ht, ← htag]
  | ldTop x =>
      simp only [learn, Option.ite_none_right_eq_some,
        Option.some.injEq] at hl
      obtain ⟨ht, rfl⟩ := hl
      have hload := h.loadX x (m.wTop.setWidth 64)
      show Tracks _ _ (c, Insn.exec m (.ldTop x))
        (Insn.exec e (.ldTop x)).sync
      unfold Insn.exec
      dsimp only
      rwa [← ho.top ht]
  | ccWrite x =>
      simp only [learn, Option.ite_none_right_eq_some,
        Option.some.injEq] at hl
      obtain ⟨hsw, rfl⟩ := hl
      exact h.ccWrite hsw x
  | compute f =>
      cases hl
      exact h.compute f
  | discard =>
      cases hl
      show Tracks _ _ (c.discard, m) e.sync
      rw [hsync]
      exact h.discard
  | anchor x =>
      simp only [learn, Option.ite_none_right_eq_some, Bool.and_eq_true,
        decide_eq_true_eq, Option.some.injEq] at hl
      obtain ⟨⟨hset, ht⟩, rfl⟩ := hl
      show Tracks _ _ (c.noteReanchor .native, _) e.sync
      rw [hsync]
      refine h.setTop (alike_noteReanchor c _)
        (not_owing_of_settled ho hset) ?_
      rw [ho.sync]
      exact congrArg topOf (h.same.inX x ht)
  | zeroTop =>
      simp only [learn, Option.ite_none_right_eq_some, Bool.and_eq_true,
        decide_eq_true_eq, Option.some.injEq] at hl
      obtain ⟨⟨hset, ht⟩, rfl⟩ := hl
      have hq := not_owing_of_settled ho hset
      have halike : Alike c
          { (c.noteReanchor .dead) with topDirty := false } :=
        { alike_noteReanchor c .dead with
          top := (not_owing_iff.mp hq).1.symm }
      show Tracks _ _ _ e.sync
      rw [hsync]
      exact h.setTop halike hq (ho.zero ht).symm
  | shorten => cases hl

end X87Sidecar.Deferred
