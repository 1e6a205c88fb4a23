/-
The counter of a run and what is owed when it runs out.

`tick` forgets what is still owed when it brings the counter to 0, so the
emitter that covers the last instruction has to have written it. Every
emitter ends in an `x87_end` that compares the counter with how many
instructions it covers (`Script.Plain`). Three fusions absorb an exchange
and take it off the counter themselves, and the caller takes it off once
more: right only where the fusion ends the run.
-/
import X87Sidecar.Lib.Visits
import X87Sidecar.Proofs.Translate.CompileRun
import X87Sidecar.Proofs.Translate.Deferred
import X87Sidecar.Proofs.Translate.Shape
import X87Sidecar.Translate.Turn

namespace X87Sidecar.Counter

open Lib Deferred

variable {c c' : X87Cache} {n : Nat} {s : Script}

-- ===================================================== what an emitter keeps

/-- The counter and the layout are as they were, and registers once loaded
stay so. -/
structure Counted (c c' : X87Cache) : Prop where
  run : c'.runRemaining = c.runRemaining
  gprs : c.gprsValid = true → c'.gprsValid = true
  slots : c'.nativeSlots = c.nativeSlots
  transport : c'.nativeTransport = c.nativeTransport

/-- Nothing done. -/
theorem Counted.refl (c : X87Cache) : Counted c c := ⟨rfl, id, rfl, rfl⟩

/-- One thing after the other. -/
theorem Counted.trans {c'' : X87Cache} (h : Counted c c')
    (h' : Counted c' c'') : Counted c c'' where
  run := h'.run.trans h.run
  gprs := h'.gprs ∘ h.gprs
  slots := h'.slots.trans h.slots
  transport := h'.transport.trans h.transport

/-- Where TOP was found and what the slots hold does not matter. -/
theorem counted_tracking (c : X87Cache) (k : Depth)
    (f : Depth → X87SlotFmt) :
    Counted c { c with topRel := k, slotFmt := f } :=
  ⟨rfl, id, rfl, rfl⟩

/-- The notes on slot formats are no business of the counter. -/
theorem counted_noteFmt (c : X87Cache) (d : Depth) (f : X87SlotFmt) :
    Counted c (c.noteFmt d f) := by
  unfold X87Cache.noteFmt
  split
  · exact counted_tracking c _ _
  · exact .refl c

theorem counted_noteRotate (c : X87Cache) (k : Depth) :
    Counted c (c.noteRotate k) := by
  unfold X87Cache.noteRotate
  split
  · exact counted_tracking c _ _
  · exact .refl c

theorem counted_noteSwap (c : X87Cache) (a b : Depth) :
    Counted c (c.noteSwap a b) := by
  unfold X87Cache.noteSwap
  split
  · exact counted_tracking c _ _
  · exact .refl c

theorem counted_noteReanchor (c : X87Cache) (f : X87SlotFmt) :
    Counted c (c.noteReanchor f) := by
  unfold X87Cache.noteReanchor
  split
  · exact counted_tracking c _ _
  · exact .refl c

theorem counted_notePop (c : X87Cache) : Counted c c.notePop :=
  (counted_noteFmt c _ _).trans (counted_noteRotate _ _)

theorem counted_notePopN (c : X87Cache) (n : Nat) :
    Counted c (c.notePopN n) := by
  induction n generalizing c with
  | zero => exact .refl c
  | succ n ih => exact (counted_notePop c).trans (ih c.notePop)

/-- Several pieces of code. -/
theorem counted_all {l : List Emitter}
    (hl : ∀ e ∈ l, e.Keeps Counted) : (Emit.all l).Keeps Counted :=
  Emit.Keeps.all .refl .trans hl

/-- A write that was put off. -/
theorem counted_flush (p : Pending) : (flush p).Keeps Counted := by
  refine Emit.Keeps.when .refl ?_
  intro c
  cases p with
  | top => exact ⟨rfl, id, rfl, rfl⟩
  | pops => exact ⟨rfl, id, rfl, rfl⟩
  | push => exact ⟨rfl, id, rfl, rfl⟩

/-- The renaming written back. -/
theorem counted_flushPerm :
    perm_flush_before_stack_change.Keeps Counted :=
  Emit.Keeps.when .refl fun _ => ⟨rfl, id, rfl, rfl⟩

/-- `x87_end`. -/
theorem counted_end (n : Nat) : (x87_end n).Keeps Counted := by
  refine Emit.Keeps.when .refl (counted_all ?_)
  intro e he
  simp only [List.mem_cons, List.not_mem_nil, or_false] at he
  rcases he with rfl | rfl | rfl | rfl
  · exact counted_flushPerm
  · exact counted_flush _
  · exact counted_flush _
  · exact counted_flush _

/-- `x87_begin`, which loads the registers. -/
theorem counted_begin : x87_begin.Keeps Counted := by
  intro c
  unfold x87_begin
  split
  · exact ⟨rfl, id, rfl, rfl⟩
  · split
    · exact ⟨rfl, fun _ => rfl, rfl, rfl⟩
    · exact ⟨rfl, id, rfl, rfl⟩

/-- `x87_push`. -/
theorem counted_push : x87_push.Keeps Counted := by
  refine Emit.Keeps.seq .trans
    (Emit.Keeps.ite (counted_all ?_) fun _ => ⟨rfl, id, rfl, rfl⟩)
    fun c => ?_
  · intro e he
    simp only [List.mem_cons, List.not_mem_nil, or_false] at he
    rcases he with rfl | rfl | rfl | rfl | rfl
    · exact counted_flush _
    · exact counted_flush _
    · exact counted_flush _
    · exact counted_flushPerm
    · exact fun _ => ⟨rfl, id, rfl, rfl⟩
  · exact (counted_noteRotate c _).trans (counted_noteFmt _ _ _)

/-- A pop within a run. -/
theorem counted_popActive : popActive.Keeps Counted := by
  intro c
  unfold popActive
  split
  · exact ⟨rfl, id, rfl, rfl⟩
  · split
    · exact ⟨rfl, id, rfl, rfl⟩
    · exact ⟨rfl, id, rfl, rfl⟩

theorem counted_pop : x87_pop.Keeps Counted := by
  refine Emit.Keeps.seq .trans ?_ counted_notePop
  exact Emit.Keeps.ite
    (counted_flushPerm.seq .trans counted_popActive)
    fun _ => ⟨rfl, id, rfl, rfl⟩

theorem counted_popN (n : Nat) : (x87_pop_n n).Keeps Counted := by
  refine counted_all ?_
  intro e he
  simp only [List.mem_cons, List.not_mem_nil, or_false] at he
  rcases he with rfl | rfl | rfl | rfl
  · exact counted_flush _
  · exact counted_flush _
  · exact Emit.Keeps.ite
      (counted_flushPerm.seq .trans fun _ => ⟨rfl, id, rfl, rfl⟩)
      fun _ => ⟨rfl, id, rfl, rfl⟩
  · exact fun c => counted_notePopN c n

/-- Any step but the one that takes an instruction off. -/
theorem counted_act (a : Act) (h : a.shortens = false) :
    a.emit.Keeps Counted := by
  cases a with
  | begin => exact counted_begin
  | finish n => exact counted_end n
  | flush p g => exact Emit.Keeps.when .refl (counted_flush p)
  | flushPerm => exact counted_flushPerm
  | push => exact counted_push
  | pop => exact counted_pop
  | popN n => exact counted_popN n
  | rotate k =>
      intro c
      have hnote := counted_noteRotate c k
      exact ⟨hnote.run, hnote.gprs, hnote.slots, hnote.transport⟩
  | free d => exact fun c => counted_noteFmt c _ _
  | store d r => exact fun c => counted_noteFmt c _ _
  | noteNative d => exact fun c => counted_noteFmt c _ _
  | noteSwap a b => exact fun c => counted_noteSwap c a b
  | anchor x => exact fun c => counted_noteReanchor c _
  | zeroTop =>
      intro c
      have hnote := counted_noteReanchor c .dead
      exact ⟨hnote.run, hnote.gprs, hnote.slots, hnote.transport⟩
  | shorten => cases h
  | _ => exact fun _ => ⟨rfl, id, rfl, rfl⟩

/-- An emitter without such a step. -/
theorem counted_script (h : s.counts = true) :
    s.emit.Keeps Counted := by
  refine counted_all ?_
  intro e he
  obtain ⟨a, ha, rfl⟩ := List.mem_map.mp he
  refine counted_act a ?_
  simpa using List.all_eq_true.mp h a ha

-- ================================================== the pops put off

/-- No pop is put off: the count of those that are is as it was, or 0. -/
def PopsKept (c c' : X87Cache) : Prop :=
  c'.deferredPopCount = c.deferredPopCount ∨ c'.deferredPopCount = 0

/-- Nothing done. -/
theorem PopsKept.refl (c : X87Cache) : PopsKept c c := .inl rfl

/-- One thing after the other. -/
theorem PopsKept.trans {c'' : X87Cache} (h : PopsKept c c')
    (h' : PopsKept c' c'') : PopsKept c c'' := by
  rcases h' with h' | h'
  · exact h.imp h'.trans h'.trans
  · exact .inr h'

/-- What leaves the pending writes alone. -/
theorem popsKept_of_alike (h : Alike c c') : PopsKept c c' := .inl h.pops

/-- Several pieces of code. -/
theorem popsKept_all {l : List Emitter}
    (hl : ∀ e ∈ l, e.Keeps PopsKept) : (Emit.all l).Keeps PopsKept :=
  Emit.Keeps.all .refl .trans hl

/-- A pending write that is settled. -/
theorem popsKept_settle (p : Pending) : (settle p).Keeps PopsKept := by
  intro c
  cases p with
  | pops => exact .inr rfl
  | top => exact .inl rfl
  | push => exact .inl rfl

/-- A write that was put off. -/
theorem popsKept_flush (p : Pending) : (flush p).Keeps PopsKept :=
  Emit.Keeps.when .refl (popsKept_settle p)

/-- The renaming written back. -/
theorem popsKept_flushPerm :
    perm_flush_before_stack_change.Keeps PopsKept :=
  Emit.Keeps.when .refl fun _ => .inl rfl

/-- `x87_end`. -/
theorem popsKept_end (n : Nat) : (x87_end n).Keeps PopsKept := by
  refine Emit.Keeps.when .refl (popsKept_all ?_)
  intro e he
  simp only [List.mem_cons, List.not_mem_nil, or_false] at he
  rcases he with rfl | rfl | rfl | rfl
  · exact popsKept_flushPerm
  · exact popsKept_flush _
  · exact popsKept_flush _
  · exact popsKept_flush _

/-- `x87_begin`. -/
theorem popsKept_begin : x87_begin.Keeps PopsKept := by
  intro c
  unfold x87_begin
  split
  · exact .refl c
  · split
    · exact .inl rfl
    · exact .refl c

/-- `x87_push` writes the pops that are owed. -/
theorem popsKept_push : x87_push.Keeps PopsKept := by
  refine Emit.Keeps.seq .trans
    (Emit.Keeps.ite (popsKept_all ?_) fun _ => .inl rfl)
    fun c => popsKept_of_alike (alike_notePush c)
  intro e he
  simp only [List.mem_cons, List.not_mem_nil, or_false] at he
  rcases he with rfl | rfl | rfl | rfl | rfl
  · exact popsKept_flush _
  · exact popsKept_flush _
  · exact popsKept_flush _
  · exact popsKept_flushPerm
  · exact fun _ => .inl rfl

/-- A pop of several at once does too. -/
theorem popsKept_popN (n : Nat) : (x87_pop_n n).Keeps PopsKept := by
  refine popsKept_all ?_
  intro e he
  simp only [List.mem_cons, List.not_mem_nil, or_false] at he
  rcases he with rfl | rfl | rfl | rfl
  · exact popsKept_flush _
  · exact popsKept_flush _
  · exact Emit.Keeps.ite
      (popsKept_flushPerm.seq .trans fun _ => .inl rfl) fun _ => .inl rfl
  · exact fun c => popsKept_of_alike (alike_notePopN c n)

/-- Any step that does not pop with a tag put off. -/
theorem popsKept_act (a : Act) (h : a.pops = false) :
    a.emit.Keeps PopsKept := by
  cases a with
  | begin => exact popsKept_begin
  | finish n => exact popsKept_end n
  | flush p g => exact Emit.Keeps.when .refl (popsKept_flush p)
  | flushPerm => exact popsKept_flushPerm
  | push => exact popsKept_push
  | pop => cases h
  | popN n => exact popsKept_popN n
  | rotate k => exact fun c => .inl (alike_noteRotate c k).pops
  | free d => exact fun c => popsKept_of_alike (alike_noteFmt c _ _)
  | store d r => exact fun c => popsKept_of_alike (alike_noteFmt c _ _)
  | noteNative d => exact fun c => popsKept_of_alike (alike_noteFmt c _ _)
  | noteSwap a b => exact fun c => popsKept_of_alike (alike_noteSwap c a b)
  | anchor x => exact fun c => popsKept_of_alike (alike_noteReanchor c _)
  | zeroTop => exact fun c => .inl (alike_noteReanchor c .dead).pops
  | discard => exact fun _ => .inr rfl
  | _ => exact fun _ => .inl rfl

/-- The count of deferred pops, after room for `n` more, has not
wrapped. -/
def RoomFor (n : Nat) (c : X87Cache) : Prop :=
  0 ≤ c.deferredPopCount ∧ c.deferredPopCount + n ≤ 127

/-- Where no pop is added there is room for as many more. -/
theorem PopsKept.roomFor (h : PopsKept c c') (hc : RoomFor n c) :
    RoomFor n c' := by
  obtain ⟨hpos, hle⟩ := hc
  unfold RoomFor
  rcases h with h | h
  · rw [h]
    exact ⟨hpos, hle⟩
  · rw [h]
    exact ⟨le_refl 0, by omega⟩

/-- A pop puts off one tag at most. -/
theorem roomFor_pop (h : RoomFor (n + 1) c) : RoomFor n (x87_pop c).1 := by
  have hnote : ∀ c', RoomFor n c' → RoomFor n c'.notePop := fun c' hc' =>
    (popsKept_of_alike (alike_notePop c')).roomFor hc'
  have hless : ∀ {c'}, RoomFor (n + 1) c' → RoomFor n c' := fun hc' =>
    ⟨hc'.1, by have hle := hc'.2; push_cast at hle; omega⟩
  refine hnote _ ?_
  unfold Emit.ite
  split
  · have hflush := (popsKept_flushPerm c).roomFor h
    show RoomFor n (popActive (perm_flush_before_stack_change c).1).1
    generalize (perm_flush_before_stack_change c).1 = c' at hflush
    unfold popActive
    split
    · exact hless hflush
    · split
      · exact hless hflush
      · obtain ⟨hpos, hle⟩ := hflush
        push_cast at hle
        show 0 ≤ X87Cache.int8 _ ∧ X87Cache.int8 _ + _ ≤ _
        rw [int8_succ hpos (by omega)]
        omega
  · exact hless h

/-- An emitter puts off a tag for each of its pops at most. -/
theorem roomFor_script (h : RoomFor (s.pops + n) c) :
    RoomFor n (s.emit c).1 := by
  induction s generalizing c with
  | nil =>
      rw [show Script.pops [] = 0 from rfl, Nat.zero_add] at h
      exact h
  | cons a s ih =>
      refine ih ?_
      unfold Script.pops at h ⊢
      rw [List.countP_cons] at h
      cases ha : a.pops with
      | false =>
          rw [ha] at h
          exact (popsKept_act a ha c).roomFor h
      | true =>
          obtain rfl : a = .pop := by cases a <;> first | rfl | cases ha
          refine roomFor_pop ?_
          rw [ha] at h
          simpa [Nat.add_right_comm] using h

-- ============================================================= the end

/-- Nothing is owed and no permutation is pending. -/
structure Clean (c : X87Cache) : Prop where
  owed : ¬owing c
  /-- nor has the count of pops come out below 0 -/
  pops : c.deferredPopCount = 0
  perm : c.permDirty = false

/-- The IR lowering leaves nothing owed. -/
theorem clean_lowered (c : X87Cache) : Clean c.lowered :=
  ⟨not_owing_iff.mpr ⟨rfl, le_refl 0, rfl⟩, rfl, rfl⟩

/-- What is not owed is 0, as long as the count has not wrapped. -/
theorem RoomFor.idle (h : RoomFor n c) (hq : ¬owing c) :
    c.deferredPopCount = 0 :=
  le_antisymm (not_owing_iff.mp hq).2.1 h.1

/-- With nothing put off there is room for 127 pops. -/
theorem Clean.roomFor (h : Clean c) (hn : n ≤ 127) : RoomFor n c := by
  unfold RoomFor
  rw [h.pops]
  omega

/-- A flush settles its update and leaves the others. -/
theorem flush_owes (p q : Pending) (c : X87Cache) :
    (flush p c).1.owes q = true ↔ c.owes q = true ∧ q ≠ p := by
  unfold flush Emit.when
  by_cases hp : c.owes p = true
  · rw [if_pos hp]
    cases p <;> cases q <;> simp [settle, X87Cache.owes] <;>
      exact decide_eq_true_iff
  · rw [if_neg hp]
    constructor
    · intro hq
      refine ⟨hq, fun he => hp ?_⟩
      rwa [he] at hq
    · exact And.left

/-- A write that was put off leaves the renaming. -/
theorem flush_perm (p : Pending) (c : X87Cache) :
    (flush p c).1.permDirty = c.permDirty := by
  unfold flush Emit.when
  split
  · cases p <;> rfl
  · rfl

/-- Written back, no renaming is pending. -/
theorem flushPerm_perm (c : X87Cache) :
    (perm_flush_before_stack_change c).1.permDirty = false := by
  unfold perm_flush_before_stack_change Emit.when
  by_cases hd : c.permDirty = true
  · rw [if_pos hd]
    rfl
  · rw [if_neg hd]
    simpa using hd

/-- `x87_end` at the end of a run leaves nothing. -/
theorem clean_end (hr : c.runRemaining ≤ n) (hroom : RoomFor 0 c) :
    Clean (x87_end n c).1 := by
  have hkept := (popsKept_end n c).roomFor hroom
  have hend : (x87_end n c).1
      = (flush .top (flush .push (flush .pops
          (perm_flush_before_stack_change c).1).1).1).1 := by
    unfold x87_end Emit.when
    rw [if_pos (decide_eq_true hr)]
    rfl
  have howed : ¬owing (x87_end n c).1 := by
    rw [hend]
    intro howes
    obtain ⟨p, hp⟩ := howes
    simp only [flush_owes] at hp
    cases p with
    | top => exact hp.2 rfl
    | push => exact hp.1.2 rfl
    | pops => exact hp.1.1.2 rfl
  refine ⟨howed, hkept.idle howed, ?_⟩
  rw [hend]
  simp only [flush_perm, flushPerm_perm]

-- ================================================== emitters by their ends

/-- The last step of an emitter comes last. -/
theorem emit_concat (s : Script) (a : Act) (c : X87Cache) :
    (Script.emit (s ++ [a]) c).1 = (a.emit (s.emit c).1).1 := by
  induction s generalizing c with
  | nil => rfl
  | cons b s ih => exact ih (b.emit c).1

/-- A plain emitter leaves the counter. -/
theorem plain_counted (h : Plain n s) (c : X87Cache) : Counted c (s.emit c).1 :=
  counted_script h.counts c

/-- It leaves nothing behind when the run ends in it. -/
theorem plain_clean (h : Plain n s) (hr : c.runRemaining ≤ n)
    (hroom : RoomFor s.pops c) : Clean (s.emit c).1 := by
  obtain ⟨body, rfl⟩ := List.getLast?_eq_some_iff.mp h.ends
  rw [emit_concat]
  have hpops : Script.pops (body ++ [.finish n])
      = Script.pops body + 0 := by
    unfold Script.pops
    rw [List.countP_append]
    rfl
  rw [hpops] at hroom
  refine clean_end ?_ (roomFor_script hroom)
  have hbody : Script.counts body = true := by
    have hall := h.counts
    rw [Script.counts_append, Bool.and_eq_true] at hall
    exact hall.1
  rw [(counted_script hbody c).run]
  exact hr

/-- In a run the registers are loaded when it is over. -/
theorem plain_loaded (h : Plain n s) (ha : c.active = true) :
    (s.emit c).1.gprsValid = true := by
  obtain ⟨body, rfl⟩ := List.head?_eq_some_iff.mp h.begins
  have hbody : Script.counts body = true := by
    have hall := h.counts
    rw [Script.counts_cons, Bool.and_eq_true] at hall
    exact hall.2
  have hbegin : (x87_begin c).1.gprsValid = true := by
    have hpos : 0 < c.runRemaining := of_decide_eq_true ha
    unfold x87_begin
    by_cases hv : 0 < c.runRemaining ∧ c.gprsValid
    · rw [if_pos hv]
      exact hv.2
    · rw [if_neg hv, if_pos hpos]
  exact (counted_script hbody (x87_begin c).1).gprs hbegin

-- ============================================================ counted off

/-- So many instructions are off the counter. -/
@[simp] theorem ticks_run (c : X87Cache) (n : Nat) :
    (c.ticks n).runRemaining = c.runRemaining - n := by
  induction n generalizing c with
  | zero => rfl
  | succ n ih =>
      have htick : c.tick.runRemaining = c.runRemaining - 1 := by
        unfold X87Cache.tick
        split
        · split
          · show 0 = _
            omega
          · rfl
        · omega
      show (c.tick.ticks n).runRemaining = _
      rw [ih, htick]
      omega

/-- Before the count runs out nothing but the count changes. -/
theorem ticks_of_lt (h : n < c.runRemaining) :
    c.ticks n = { c with runRemaining := c.runRemaining - n } := by
  induction n generalizing c with
  | zero => rfl
  | succ n ih =>
      have htick : c.tick = { c with runRemaining := c.runRemaining - 1 } := by
        unfold X87Cache.tick
        rw [if_pos (by omega), if_neg (by omega)]
      show c.tick.ticks n = _
      rw [htick, ih (by show n < c.runRemaining - 1; omega)]
      show { c with runRemaining := c.runRemaining - 1 - n } = _
      congr 1
      omega

/-- Nothing owed, nothing forgotten. -/
theorem Clean.tick (h : Clean c) : Clean c.tick := by
  unfold X87Cache.tick
  split
  · split
    · exact ⟨not_owing_iff.mpr ⟨rfl, le_refl 0, rfl⟩, rfl, h.perm⟩
    · exact ⟨h.owed, h.pops, h.perm⟩
  · exact h

/-- Nor over several instructions. -/
theorem Clean.ticks (h : Clean c) (n : Nat) : Clean (c.ticks n) := by
  induction n generalizing c with
  | zero => exact h
  | succ n ih => exact ih h.tick

/-- Between two turns, with `left` instructions of the run to come: the
counter is right, what is owed has its registers loaded, nothing is owed
between two runs, and the count of pops has not wrapped. -/
structure Standing (c : X87Cache) (left : Nat) : Prop where
  counter : c.active = true → c.runRemaining = left
  idle : c.active = false → Clean c
  loaded : owing c → c.gprsValid = true
  pops : RoomFor 0 c

/-- At the end of a turn, with `n` instructions to count off and `left`
instructions to come after them. -/
structure Ended (c : X87Cache) (n left : Nat) : Prop where
  counter : n < c.runRemaining → c.runRemaining - n = left
  clean : c.runRemaining ≤ n → Clean c
  loaded : owing c → c.gprsValid = true
  pops : RoomFor 0 c

/-- Behind an emitter and its instructions the cache stands as before the
next turn. -/
theorem Ended.standing {left : Nat} (h : Ended c n left) :
    Standing (c.ticks n) left := by
  by_cases hn : n < c.runRemaining
  · rw [ticks_of_lt hn]
    refine ⟨fun _ => h.counter hn, fun hidle => ?_, h.loaded, h.pops⟩
    have hzero : ¬0 < c.runRemaining - n := of_decide_eq_false hidle
    omega
  · have hclean : Clean (c.ticks n) := (h.clean (by omega)).ticks n
    refine ⟨fun ha => ?_, fun _ => hclean,
      fun ho => absurd ho hclean.owed, hclean.roomFor (Nat.zero_le _)⟩
    have hpos : 0 < (c.ticks n).runRemaining := of_decide_eq_true ha
    rw [ticks_run] at hpos
    omega

/-- Nothing is owed: then only the counter matters. -/
theorem Ended.of_clean {left : Nat} (h : Clean c)
    (hleft : n < c.runRemaining → c.runRemaining - n = left) :
    Ended c n left :=
  ⟨hleft, fun _ => h, fun ho => absurd ho h.owed,
    h.roomFor (Nat.zero_le _)⟩

/-- With nothing owed only the counter has to be right. -/
theorem Standing.of_clean {left : Nat} (h : Clean c)
    (hleft : 0 < c.runRemaining → c.runRemaining = left) :
    Standing c left :=
  ⟨fun ha => hleft (of_decide_eq_true ha), fun _ => h,
    fun ho => absurd ho h.owed, h.roomFor (Nat.zero_le _)⟩

/-- The counter and the registers are as they were, and nothing more is
owed. -/
structure Eased (c c' : X87Cache) : Prop where
  run : c'.runRemaining = c.runRemaining
  gprs : c'.gprsValid = c.gprsValid
  owed : owing c' → owing c
  pops : PopsKept c c'
  perm : c'.permDirty = true → c.permDirty = true

/-- Code that only notes things. -/
theorem eased_of_alike (h : Alike c c') : Eased c c' :=
  ⟨h.run, h.gprs, h.owing.mp, popsKept_of_alike h, h.perm⟩

/-- Nothing is owed that was not. -/
theorem Clean.eased (h : Clean c) (he : Eased c c') : Clean c' where
  owed := fun ho => h.owed (he.owed ho)
  pops := he.pops.elim (·.trans h.pops) id
  perm := by
    cases hp : c'.permDirty with
    | false => rfl
    | true => exact absurd (he.perm hp) (by simp [h.perm])

/-- The cache stands as it did. -/
theorem Standing.eased {left : Nat} (h : Standing c left)
    (he : Eased c c') : Standing c' left := by
  have hactive : c'.active = c.active := by
    unfold X87Cache.active
    rw [he.run]
  refine ⟨fun ha => ?_, fun hi => ?_, fun ho => ?_,
    he.pops.roomFor h.pops⟩
  · rw [he.run]
    exact h.counter (hactive ▸ ha)
  · exact (h.idle (hactive ▸ hi)).eased he
  · rw [he.gprs]
    exact h.loaded (he.owed ho)

-- =========================================================== the emitter

/-- What a turn may cover: an emitter and its count. -/
inductive Covered (env : Env) (c : X87Cache) : Fused → Prop
  | plain {n : Nat} {s : Script} (h : Plain n s) : Covered env c ⟨n, s⟩
  | absorbed {l : List IRInstr} {f : Fused} (h : Absorbed l f)
      (hr : c.runRemaining ≤ f.count) : Covered env c f
  | fstsw (i : IRInstr) (hr : c.runRemaining = 1 → c.permDirty = false) :
      Covered env c ⟨1, translate_fstsw env i⟩
  | frstor (i : IRInstr) (ha : c.active = false) :
      Covered env c ⟨1, translate_frstor env c i⟩

/-- Steps that move data only. -/
def still : Act → Bool
  | .compute _ | .stSw _ | .stTw _ | .store _ _ | .storeImage _ _
  | .anchor _ => true
  | _ => false

/-- A step that neither pops, pushes nor flushes. -/
theorem alike_still {a : Act} (h : still a = true) :
    a.emit.Keeps Alike := by
  intro c
  cases a with
  | store d r => exact alike_noteFmt c _ _
  | anchor x => exact alike_noteReanchor c _
  | compute f => exact .refl c
  | stSw x => exact .refl c
  | stTw x => exact .refl c
  | storeImage d q => exact .refl c
  | _ => cases h

/-- An isolated `frstor` has only such steps. -/
theorem still_frstor (env : Env) (i : IRInstr) (ha : c.active = false) :
    (translate_frstor env c i).all still = true := by
  have hslots : ∀ f : Depth → Script, (∀ d, (f d).all still = true) →
      (eachDepth f).all still = true := by
    intro f hf
    unfold eachDepth
    rw [List.all_flatMap]
    exact List.all_eq_true.mpr fun d _ => hf d
  unfold translate_frstor
  rw [ha]
  simp only [onlyIf, Bool.false_eq_true, if_false, List.nil_append,
    List.append_nil, List.all_append, Bool.and_eq_true]
  refine ⟨rfl, hslots _ fun d => ?_⟩
  rw [List.all_cons, Bool.and_eq_true]
  refine ⟨rfl, ?_⟩
  split
  · rfl
  · rfl

/-- So it leaves counter and pending writes alone. -/
theorem alike_frstor (env : Env) (i : IRInstr) (ha : c.active = false) :
    Alike c ((translate_frstor env c i).emit c).1 := by
  refine Emit.Keeps.all (R := Alike) Alike.refl Alike.trans ?_ c
  intro e he
  obtain ⟨a, hmem, rfl⟩ := List.mem_map.mp he
  exact alike_still (List.all_eq_true.mp (still_frstor env i ha) a hmem)

/-- A flush of `fnstsw`. -/
def statusFlush (p : Pending) : Emitter := (Act.flush p .baseCached).emit

/-- The flushes of `fnstsw` leave the renaming. -/
theorem statusFlush_perm (p : Pending) (c : X87Cache) :
    (statusFlush p c).1.permDirty = c.permDirty := by
  show (Emit.when _ (flush p) c).1.permDirty = _
  unfold Emit.when
  split
  · exact flush_perm p c
  · rfl

/-- Each flushes within a run whose registers are loaded. -/
theorem statusFlush_of_cached (p : Pending)
    (h : Guard.baseCached.holds c = true) :
    (statusFlush p c).1 = (flush p c).1
      ∧ Guard.baseCached.holds (flush p c).1 = true := by
  have hkept := counted_flush p c
  unfold Guard.holds X87Cache.active at h ⊢
  rw [Bool.and_eq_true] at h
  constructor
  · show (Emit.when _ (flush p) c).1 = _
    unfold Emit.when Guard.holds X87Cache.active
    rw [if_pos (by rw [Bool.and_eq_true]; exact h)]
  · rw [hkept.run, hkept.gprs h.2, h.1]
    rfl

/-- And does nothing elsewhere. -/
theorem statusFlush_of_not (p : Pending)
    (h : Guard.baseCached.holds c = false) : (statusFlush p c).1 = c := by
  show (Emit.when _ (flush p) c).1 = _
  unfold Emit.when
  rw [if_neg (by simp [h])]

/-- `fnstsw` is three flushes, as far as the cache goes. -/
theorem fstsw_emit (env : Env) (i : IRInstr) (c : X87Cache) :
    ((translate_fstsw env i).emit c).1
      = (statusFlush .push
          (statusFlush .pops (statusFlush .top c).1).1).1 := by
  simp only [Script.emit, translate_fstsw, List.map_cons, Emit.all,
    Emit.seq]
  rfl

/-- `fnstsw` leaves the permutation alone. -/
theorem fstsw_perm (env : Env) (i : IRInstr) :
    ((translate_fstsw env i).emit c).1.permDirty = c.permDirty := by
  rw [fstsw_emit]
  simp only [statusFlush_perm]

/-- Nothing else is owed after it. -/
theorem fstsw_owed (env : Env) (i : IRInstr)
    (h : owing c → c.active = true ∧ c.gprsValid = true) :
    ¬owing ((translate_fstsw env i).emit c).1 := by
  rw [fstsw_emit]
  cases hb : Guard.baseCached.holds c with
  | true =>
      obtain ⟨htop, hb1⟩ := statusFlush_of_cached .top hb
      obtain ⟨hpops, hb2⟩ := statusFlush_of_cached .pops hb1
      obtain ⟨hpush, -⟩ := statusFlush_of_cached .push hb2
      rw [htop, hpops, hpush]
      intro howes
      obtain ⟨p, hp⟩ := howes
      simp only [flush_owes] at hp
      cases p with
      | top => exact hp.1.1.2 rfl
      | push => exact hp.2 rfl
      | pops => exact hp.1.2 rfl
  | false =>
      rw [statusFlush_of_not .top hb, statusFlush_of_not .pops hb,
        statusFlush_of_not .push hb]
      intro ho
      obtain ⟨ha, hg⟩ := h ho
      have htrue : Guard.baseCached.holds c = true := by
        show (c.active && c.gprsValid) = true
        rw [ha, hg]
        rfl
      rw [hb] at htrue
      cases htrue

-- ============================================================ one turn

/-- The end of an emitter's turn. -/
theorem Standing.ended {env : Env} {f : Fused} {left : Nat}
    (h : Standing c left) (hf : Covered env c f)
    (hroom : RoomFor f.script.pops c) :
    Ended (f.script.emit c).1 f.count (left - f.count) := by
  have hpops : RoomFor 0 (f.script.emit c).1 := roomFor_script hroom
  have hzero : c.active = false → c.runRemaining = 0 := by
    intro hi
    have hn : ¬0 < c.runRemaining := of_decide_eq_false hi
    omega
  have hpos : 0 < c.runRemaining → c.active = true := decide_eq_true
  cases hf with
  | @plain n s hs =>
      have hrun := (plain_counted hs c).run
      refine ⟨fun hn => ?_, fun hn => ?_, fun ho => ?_, hpops⟩
      · rw [hrun] at hn ⊢
        rw [h.counter (hpos (by omega))]
      · rw [hrun] at hn
        exact plain_clean hs hn hroom
      · cases ha : c.active with
        | true => exact plain_loaded hs ha
        | false =>
            have hend := plain_clean hs (by rw [hzero ha]; omega) hroom
            exact absurd ho hend.owed
  | @absorbed l f hf hr =>
      have hend : Clean (f.script.emit c).1
          ∧ (f.script.emit c).1.runRemaining ≤ f.count := by
        cases hf with
        | @arithp k s hk hn hh hs =>
            let c1 := { c with runRemaining := c.runRemaining - 1 }
            have hr1 : c1.runRemaining ≤ k := by
              have hr' : c.runRemaining ≤ k + 1 := hr
              show c.runRemaining - 1 ≤ k
              omega
            refine ⟨plain_clean (c := c1) hs hr1 hroom, ?_⟩
            show (s.emit c1).1.runRemaining ≤ k + 1
            rw [(plain_counted hs c1).run]
            omega
        | @compare k s d hk hn hh hs =>
            let c1 := { (c.swapPerm d) with
              runRemaining := c.runRemaining - 1 }
            have hr1 : c1.runRemaining ≤ k := by
              have hr' : c.runRemaining ≤ k + 1 := hr
              show c.runRemaining - 1 ≤ k
              omega
            refine ⟨plain_clean (c := c1) hs hr1 hroom, ?_⟩
            show (s.emit c1).1.runRemaining ≤ k + 1
            rw [(plain_counted hs c1).run]
            omega
      exact .of_clean hend.1 fun hn => by omega
  | fstsw i hr =>
      have hrun : ((translate_fstsw env i).emit c).1.runRemaining
          = c.runRemaining :=
        (counted_script rfl c).run
      have howed : ¬owing ((translate_fstsw env i).emit c).1 := by
        refine fstsw_owed env i fun ho => ?_
        cases ha : c.active with
        | true => exact ⟨rfl, h.loaded ho⟩
        | false => exact absurd ho (h.idle ha).owed
      refine ⟨fun hn => ?_, fun hn => ⟨howed, hpops.idle howed, ?_⟩,
        fun ho => absurd ho howed, hpops⟩
      · rw [hrun] at hn ⊢
        rw [h.counter (hpos (by omega))]
      · rw [hrun] at hn
        rw [fstsw_perm]
        by_cases h1 : c.runRemaining = 1
        · exact hr h1
        · have ha : c.active = false := by
            refine decide_eq_false ?_
            have hn' : c.runRemaining ≤ 1 := hn
            omega
          exact (h.idle ha).perm
  | frstor i ha =>
      have halike := alike_frstor env i ha
      refine .of_clean ((h.idle ha).eased (eased_of_alike halike)) ?_
      intro hn
      rw [halike.run, hzero ha] at hn
      omega

section
variable {cfg : TranslatorConfig} {instrs : List IRInstr} {x : Choice}
  {left : Nat}

/-- A length that its counter holds, or takes for no run at all. -/
def Counts (n : Nat) : Prop := n < 2 ^ 15 ∨ X87Cache.int16Count n = 0

/-- A run shorter than 2^15 is counted as it is. -/
theorem int16Count_of_lt (h : n < 2 ^ 15) : X87Cache.int16Count n = n := by
  unfold X87Cache.int16Count
  rw [BitVec.toInt_eq_toNat_of_lt]
  · rw [BitVec.toNat_ofNat, Nat.mod_eq_of_lt (by omega)]
    rfl
  · rw [BitVec.toNat_ofNat]
    omega

/-- The counter has 16 bits and a sign. -/
theorem int16Count_lt (n : Nat) : X87Cache.int16Count n < 2 ^ 15 := by
  unfold X87Cache.int16Count
  have h := BitVec.toInt_lt (x := BitVec.ofNat 16 n)
  omega

/-- A run is never counted longer than it is. -/
theorem int16Count_le (n : Nat) : X87Cache.int16Count n ≤ n := by
  unfold X87Cache.int16Count
  rw [BitVec.toInt_eq_toNat_cond, BitVec.toNat_ofNat]
  split
  · omega
  · omega

/-- Where it counts at all, the counter is right. -/
theorem Counts.eq (h : Counts n) (hpos : 0 < X87Cache.int16Count n) :
    X87Cache.int16Count n = n := by
  rcases h with h | h
  · exact int16Count_of_lt h
  · omega

/-- A run starts with nothing owed. -/
theorem clean_of_starts (h : Standing c left)
    (hs : starts cfg c = true) : Clean c := by
  unfold starts at hs
  simp only [Bool.and_eq_true, Bool.not_eq_true'] at hs
  exact h.idle hs.1

/-- A run set up: the cache but for `top_unused` and the counter. -/
theorem setUpRun_of_starts (instrs : List IRInstr)
    (hs : starts cfg c = true) :
    ∃ u, setUpRun cfg c instrs
      = { c with topUnused := u }.setRun (runLength cfg c instrs) := by
  unfold setUpRun
  rw [if_pos hs]
  exact ⟨_, rfl⟩

/-- The layout is decided before. -/
theorem setUpRun_layout (cfg : TranslatorConfig) (c : X87Cache)
    (instrs : List IRInstr) :
    (setUpRun cfg c instrs).nativeSlots = c.nativeSlots
      ∧ (setUpRun cfg c instrs).nativeTransport = c.nativeTransport := by
  by_cases hs : starts cfg c = true
  · obtain ⟨u, hset⟩ := setUpRun_of_starts instrs hs
    rw [hset]
    unfold X87Cache.setRun
    split
    · exact ⟨rfl, rfl⟩
    · exact ⟨rfl, rfl⟩
  · unfold setUpRun
    rw [if_neg hs]
    exact ⟨rfl, rfl⟩

/-- The length of a run is known from the cache's layout. -/
theorem runLength_setUpRun :
    runLength cfg (setUpRun cfg c instrs) instrs
      = runLength cfg c instrs := by
  obtain ⟨hslots, htransport⟩ := setUpRun_layout cfg c instrs
  unfold runLength split
  rw [hslots, htransport]

/-- The counter of a run of two or more. -/
theorem setRun_run (c : X87Cache) (n : Nat) :
    (c.setRun n).runRemaining
      = if 2 ≤ n then X87Cache.int16Count n else c.runRemaining := by
  unfold X87Cache.setRun
  split <;> rfl

/-- Setting the counter owes nothing. -/
theorem Clean.setRun (h : Clean c) (n : Nat) : Clean (c.setRun n) := by
  unfold X87Cache.setRun
  split
  · exact ⟨h.owed, h.pops, h.perm⟩
  · exact h

/-- A cache with nothing owed stays so when its run is set up. -/
theorem clean_setUpRun (instrs : List IRInstr) (h : Clean c)
    (hs : starts cfg c = true) :
    Clean (setUpRun cfg c instrs) := by
  obtain ⟨u, hset⟩ := setUpRun_of_starts instrs hs
  rw [hset]
  have hclean : Clean { c with topUnused := u } :=
    ⟨h.owed, h.pops, h.perm⟩
  exact hclean.setRun _

/-- A run starts where no other is active. -/
theorem idle_of_starts (hs : starts cfg c = true) : c.runRemaining = 0 := by
  unfold starts at hs
  simp only [Bool.and_eq_true, Bool.not_eq_true'] at hs
  have hzero : ¬0 < c.runRemaining := of_decide_eq_false hs.1
  omega

/-- How many instructions the run of a turn has. -/
def runOf (cfg : TranslatorConfig) (c : X87Cache) (instrs : List IRInstr)
    (left : Nat) : Nat :=
  if starts cfg c then runLength cfg c instrs else left

/-- A run set up stands with all its instructions to come. -/
theorem Standing.setUpRun (h : Standing c left)
    (hlen : starts cfg c = true → Counts (runLength cfg c instrs)) :
    Standing (setUpRun cfg c instrs) (runOf cfg c instrs left) := by
  by_cases hs : starts cfg c = true
  · refine .of_clean (clean_setUpRun instrs (clean_of_starts h hs) hs) ?_
    obtain ⟨u, hset⟩ := setUpRun_of_starts instrs hs
    intro hpos
    unfold runOf
    rw [hset, setRun_run] at hpos ⊢
    rw [if_pos hs]
    have hzero := idle_of_starts hs
    by_cases h2 : 2 ≤ runLength cfg c instrs
    · rw [if_pos h2] at hpos ⊢
      exact (hlen hs).eq hpos
    · rw [if_neg h2] at hpos
      have hpos' : 0 < c.runRemaining := hpos
      omega
  · unfold X87Sidecar.setUpRun runOf
    rw [if_neg hs, if_neg hs]
    exact h

/-- There is a bridged region only where a run starts. -/
theorem starts_of_bridgePending (h : 0 < bridgePending cfg c instrs x) :
    starts cfg c = true := by
  unfold bridgePending at h
  split at h
  · rename_i hs
    simp only [Bool.and_eq_true] at hs
    exact hs.1.1.1.1
  · omega

/-- So does one behind the attempt to bridge. -/
theorem Standing.afterBridge (h : Standing c left)
    (hlen : starts cfg c = true → Counts (runLength cfg c instrs)) :
    Standing (afterBridge cfg c instrs x) (runOf cfg c instrs left) := by
  have hset := h.setUpRun hlen
  unfold X87Sidecar.afterBridge bridgedAttempt
  split
  · rename_i htry
    simp only [Bool.and_eq_true, decide_eq_true_iff] at htry
    have hs : starts cfg c = true :=
      starts_of_bridgePending htry.1.1.1.1.2
    have hclean := clean_setUpRun instrs (clean_of_starts h hs) hs
    split
    · exact hset
    · refine .of_clean ⟨hclean.owed, hclean.pops, hclean.perm⟩ ?_
      unfold runOf
      rw [if_pos hs]
      dsimp only
      rw [runLength_setUpRun]
      split
      · exact (hlen hs).eq
      · intro hpos
        omega
  · exact hset

/-- A pending write settled. -/
theorem eased_settle (p : Pending) : (settle p).Keeps Eased := by
  intro c
  have howes : owing (settle p c).1 → owing c := by
    intro ho
    obtain ⟨q, hq⟩ := ho
    refine ⟨q, ?_⟩
    cases p <;> cases q <;>
      first
        | exact hq
        | (unfold X87Cache.owes settle at hq; simp at hq)
  cases p with
  | top => exact ⟨rfl, rfl, howes, .inl rfl, id⟩
  | pops => exact ⟨rfl, rfl, howes, .inr rfl, id⟩
  | push => exact ⟨rfl, rfl, howes, .inl rfl, id⟩

/-- The same, the layout kept. -/
structure Flushed (c c' : X87Cache) : Prop extends Eased c c' where
  slots : c'.nativeSlots = c.nativeSlots
  transport : c'.nativeTransport = c.nativeTransport

/-- What the gate of the IR flushes. -/
theorem flushed_gateFlush (f : GateFlush) (c : X87Cache) :
    Flushed c (f.emit c).1 := by
  cases f with
  | topDirty => exact ⟨eased_settle .top c, rfl, rfl⟩
  | deferredPop => exact ⟨eased_settle .pops c, rfl, rfl⟩
  | permDirty =>
      exact ⟨⟨rfl, rfl, id, .inl rfl, fun h => by cases h⟩, rfl, rfl⟩

/-- The attempt of the IR on the run: it takes some and leaves the cache
that `lower` leaves, or takes none. -/
theorem irAttempt_cases (cfg : TranslatorConfig)
    (instrs : List IRInstr) (x : Choice) (c : X87Cache) :
    (∃ c', Flushed c c' ∧ irAttempt cfg instrs x c = (c', none))
      ∨ ∃ c' n, Flushed c c' ∧ 2 ≤ n ∧ n ≤ c.runRemaining
          ∧ (irAttempt cfg instrs x c).2 = some ⟨n, c'.lowered⟩ := by
  have hrefl : Flushed c c := ⟨⟨rfl, rfl, id, .inl rfl, id⟩, rfl, rfl⟩
  unfold irAttempt
  by_cases htry : (!cfg.irDisabled && !c.nativeTransport && c.active) = true
  swap
  · rw [if_neg htry]
    exact .inl ⟨c, hrefl, rfl⟩
  rw [if_pos htry]
  rcases irGate cfg c with _ | f
  · exact .inl ⟨c, hrefl, rfl⟩
  dsimp only
  rcases f with _ | f
  · dsimp only
    split
    · rename_i ctx hctx
      exact .inr ⟨c, _, hrefl, two_le_compileAttempts hctx,
        compileAttempts_le hctx, rfl⟩
    · exact .inl ⟨c, hrefl, rfl⟩
  · dsimp only
    have hf := flushed_gateFlush f c
    split
    · rename_i ctx hctx
      exact .inr ⟨_, _, hf, two_le_compileAttempts hctx,
        compileAttempts_le hctx, rfl⟩
    · split
      · exact .inl ⟨c, hrefl, rfl⟩
      · exact .inl ⟨_, hf, rfl⟩

/-- When the IR takes nothing. -/
theorem Standing.irAttempt (h : Standing c left)
    (hnone : (irAttempt cfg instrs x c).2 = none) :
    Standing (irAttempt cfg instrs x c).1 left := by
  rcases irAttempt_cases cfg instrs x c with ⟨c', he, hc⟩
    | ⟨c', n, -, -, -, hc⟩
  · rw [hc]
    exact h.eased he.toEased
  · rw [hc] at hnone
    cases hnone

/-- When it takes some. -/
theorem Standing.ended_irAttempt {t : Turn} (h : Standing c left)
    (ht : (X87Sidecar.irAttempt cfg instrs x c).2 = some t) :
    Ended t.cache t.count (left - t.count) := by
  rcases irAttempt_cases cfg instrs x c with ⟨c', -, hc⟩
    | ⟨c', n, he, -, -, hc⟩
  · rw [hc] at ht
    cases ht
  · rw [hc] at ht
    cases ht
    refine .of_clean (clean_lowered c') ?_
    intro hn
    have hrun : c'.lowered.runRemaining = c.runRemaining := he.run
    rw [hrun] at hn ⊢
    have ha : c.active = true := decide_eq_true (by omega)
    rw [h.counter ha]

/-- Converting the slots between layouts. -/
theorem eased_convertSlots : Eased c (convertSlots x c) := by
  unfold convertSlots
  split
  · exact ⟨rfl, rfl, id, .inl rfl, id⟩
  · exact ⟨rfl, rfl, id, .inl rfl, id⟩

/-- The cache where the emitter of a turn begins. -/
theorem Standing.atEmitter (h : Standing c left)
    (hlen : starts cfg c = true → Counts (runLength cfg c instrs))
    (hnone : irTurn cfg c instrs x = none) :
    Standing (atEmitter cfg c instrs x) (runOf cfg c instrs left) := by
  refine Standing.eased ?_ eased_convertSlots
  refine (h.afterBridge hlen).irAttempt ?_
  unfold irTurn at hnone
  exact (Option.or_eq_none_iff.mp (by simpa using hnone)).2

/-- A bridged region taken. -/
theorem Standing.ended_bridged {t : Turn} (h : Standing c left)
    (hlen : starts cfg c = true → Counts (runLength cfg c instrs))
    (ht : (bridgedAttempt cfg instrs x (bridgePending cfg c instrs x)
      (X87Sidecar.setUpRun cfg c instrs)).2 = some t) :
    Ended t.cache t.count (runOf cfg c instrs left - t.count) := by
  have hset := h.setUpRun hlen
  generalize htotal : bridgePending cfg c instrs x = total at ht
  have hsmall : total < 2 ^ 15 := by
    rw [← htotal]
    unfold bridgePending
    split
    · exact int16Count_lt _
    · omega
  unfold bridgedAttempt at ht
  split at ht
  · split at ht
    · rename_i ctx hctx
      cases ht
      refine .of_clean (clean_lowered _) ?_
      show ctx.consumed < _ → _ - ctx.consumed = _ - ctx.consumed
      intro hn
      rw [compile_bridged hctx] at hn ⊢
      have hrun := setRun_run (X87Sidecar.setUpRun cfg c instrs) total
      have hlow : ((X87Sidecar.setUpRun cfg c instrs).setRun
          total).lowered.runRemaining = _ := hrun
      rw [hlow] at hn ⊢
      by_cases h2 : 2 ≤ total
      · rw [if_pos h2, int16Count_of_lt hsmall] at hn
        omega
      · rw [if_neg h2] at hn ⊢
        have ha : (X87Sidecar.setUpRun cfg c instrs).active = true :=
          decide_eq_true (by omega)
        rw [hset.counter ha]
    · cases ht
  · cases ht

/-- The emitter chosen is one of those covered. -/
theorem covered_chosen {f : Fused}
    (habs : ∀ f, try_peephole cfg.env (fusionConfig cfg x c) c
        (fusionWindow cfg instrs c) = some f →
      absorbsExchange (fusionWindow cfg instrs c) = true →
      c.runRemaining ≤ f.count)
    (hsw : ∀ i, instrs.head? = some i → i.opcode = .fstsw →
      c.runRemaining = 1 → c.permDirty = false)
    (hf : chosen cfg instrs x c = some f) : Covered cfg.env c f := by
  unfold chosen at hf
  rcases hpeep : try_peephole cfg.env (fusionConfig cfg x c) c
    (fusionWindow cfg instrs c) with _ | f'
  · rw [hpeep, Option.none_or] at hf
    obtain ⟨i, hi, hf⟩ := Option.bind_eq_some_iff.mp hf
    obtain ⟨s, hs, rfl⟩ := Option.map_eq_some_iff.mp hf
    have hshape : Emitted cfg.env c i s := by
      unfold singleEmitter at hs
      rcases Option.or_eq_some_iff.mp hs with hs | ⟨-, hs⟩
      · split at hs
        · exact singleNative_shape hs
        · cases hs
      · exact single_shape hs
    rcases plain_single hshape with h | ⟨hop, rfl⟩ | ⟨ha, rfl⟩
    · exact .plain h
    · exact .fstsw i (hsw i hi hop)
    · exact .frstor i ha
  · rw [hpeep, Option.some_or] at hf
    cases hf
    have hcov := covered_peephole cfg.env (fusionConfig cfg x c) c
      (fusionWindow cfg instrs c) f hpeep
    split at hcov
    · rename_i ha
      exact .absorbed hcov (habs f hpeep ha)
    · exact .plain hcov.plain

/-- Every opcode a run is made of has an emitter. -/
theorem single_isSome {env : Env} {i : IRInstr}
    (h : isHandledX87 i.opcode = true) : (single env c i).isSome := by
  unfold single
  generalize i.opcode = o at h ⊢
  cases o
  all_goals first
    | rfl
    | cases h

/-- There is an emitter for every x87 instruction. -/
theorem chosen_isSome (cfg : TranslatorConfig) (x : Choice)
    (c : X87Cache) {i : IRInstr} (rest : List IRInstr)
    (h : isHandledX87 i.opcode = true) :
    (chosen cfg (i :: rest) x c).isSome := by
  have hsingle : (singleEmitter cfg x c i).isSome := by
    unfold singleEmitter
    rw [Option.isSome_or, single_isSome h, Bool.or_true]
  obtain ⟨s, hs⟩ := Option.isSome_iff_exists.mp hsingle
  unfold chosen
  rw [Option.isSome_or]
  simp [hs]

/-- An instruction declined outside a run starts none. -/
theorem runLength_le_of_declined (cfg : TranslatorConfig)
    (c : X87Cache) (h : lookahead instrs = 0) :
    runLength cfg c instrs ≤ 1 := by
  unfold runLength precise_window
  rw [h]
  split
  · split
    · simp
    · simp
  · split
    · simp
    · simp

/-- Nothing is bridged at an instruction that is not x87. -/
theorem bridgePending_of_declined (h : lookahead instrs = 0) :
    bridgePending cfg c instrs x = 0 := by
  unfold bridgePending
  rw [if_neg]
  intro hp
  simp only [Bool.and_eq_true, Bool.not_eq_true', decide_eq_true_iff] at hp
  obtain ⟨⟨⟨⟨-, htransport⟩, hsplit⟩, hone⟩, -⟩ := hp
  unfold runLength at hone
  rw [htransport, hsplit, h] at hone
  simp at hone

/-- What is left when the instruction was declined outside a run. -/
theorem declined_idle (hi : c.runRemaining = 0) (hc : Clean c)
    (hturn : X87Sidecar.turn cfg c instrs x = none) :
    Clean (atEmitter cfg c instrs x)
      ∧ (atEmitter cfg c instrs x).runRemaining = 0 := by
  have hlook : lookahead instrs = 0 := by
    cases instrs with
    | nil => rfl
    | cons i rest =>
        unfold lookahead
        by_cases hh : isHandledX87 i.opcode = true
        · have hsome := chosen_isSome cfg x
            (atEmitter cfg c (i :: rest) x) rest hh
          unfold X87Sidecar.turn at hturn
          rw [Option.isSome_iff_exists] at hsome
          obtain ⟨f, hf⟩ := hsome
          rw [hf] at hturn
          simp at hturn
        · rw [if_neg hh]
  have hset : Clean (setUpRun cfg c instrs)
      ∧ (setUpRun cfg c instrs).runRemaining = 0 := by
    by_cases hs : starts cfg c = true
    · refine ⟨clean_setUpRun instrs hc hs, ?_⟩
      obtain ⟨u, hset⟩ := setUpRun_of_starts instrs hs
      have hle := runLength_le_of_declined cfg c hlook
      rw [hset, setRun_run, if_neg (by omega)]
      exact hi
    · unfold setUpRun
      rw [if_neg hs]
      exact ⟨hc, hi⟩
  have hbridge : afterBridge cfg c instrs x = setUpRun cfg c instrs := by
    unfold afterBridge bridgedAttempt
    rw [bridgePending_of_declined hlook]
    simp
  have hir : (irAttempt cfg instrs x (setUpRun cfg c instrs)).1
      = setUpRun cfg c instrs := by
    unfold irAttempt
    have hidle : (setUpRun cfg c instrs).active = false := by
      unfold X87Cache.active
      rw [hset.2]
      rfl
    simp [hidle]
  unfold atEmitter
  rw [hbridge, hir]
  exact ⟨hset.1.eased eased_convertSlots,
    eased_convertSlots.run.trans hset.2⟩

end

-- ============================================================ the walk

variable (cfg : TranslatorConfig)

/-- After a turn the counter of the run is how many of its instructions
are still to come, and when it runs out everything owed and every exchange
has been written. -/
def CounterKept (w : Walk) (x : Choice) : Prop :=
  ((w.step cfg x).cache.active = true →
      (w.step cfg x).cache.runRemaining = (w.step cfg x).left)
    ∧ ((w.step cfg x).cache.active = false →
        Clean (w.uncounted cfg x).1)

/-- What a turn must not come to. -/
structure CounterSafe (w : Walk) (x : Choice) : Prop where
  /-- a run fits the counter, or the counter takes it for none -/
  length : starts cfg (w.found cfg) = true →
    Counts (runLength cfg (w.found cfg) w.rest)
  /-- a fusion that absorbs an exchange ends the run -/
  absorbed : irTurn cfg (w.found cfg) w.rest x = none →
    let c := atEmitter cfg (w.found cfg) w.rest x
    ∀ f, try_peephole cfg.env (fusionConfig cfg x c) c
        (fusionWindow cfg w.rest c) = some f →
      absorbsExchange (fusionWindow cfg w.rest c) = true →
      c.runRemaining ≤ f.count
  /-- an `fnstsw` that ends the run finds no exchange pending -/
  status : irTurn cfg (w.found cfg) w.rest x = none →
    let c := atEmitter cfg (w.found cfg) w.rest x
    ∀ i, w.rest.head? = some i → i.opcode = .fstsw →
      c.runRemaining = 1 → c.permDirty = false
  /-- an emitter finds room for its pops among those deferred -/
  pops : irTurn cfg (w.found cfg) w.rest x = none →
    let c := atEmitter cfg (w.found cfg) w.rest x
    ∀ f, chosen cfg w.rest x c = some f →
      c.deferredPopCount + f.script.pops < 128

variable {cfg} {w : Walk} {x : Choice}

/-- Entering a block. -/
theorem eased_entered (c : X87Cache) (instrs : List IRInstr) :
    Eased c (c.entered cfg instrs) := by
  unfold X87Cache.entered
  dsimp only
  split
  · exact ⟨rfl, rfl, id, .inl rfl, id⟩
  · split
    · exact ⟨rfl, rfl, id, .inl rfl, id⟩
    · exact ⟨rfl, rfl, id, .inl rfl, id⟩

/-- The end of a turn that is safe. -/
theorem ended_turn (h : Standing w.cache w.left)
    (hsafe : CounterSafe cfg w x) :
    Ended (w.uncounted cfg x).1 (w.uncounted cfg x).2
      (w.step cfg x).left := by
  have hfound : Standing (w.found cfg) w.left :=
    h.eased (eased_entered w.cache w.rest)
  unfold Walk.uncounted Walk.step
  dsimp only
  cases hturn : w.turn cfg x with
  | some t =>
      show Ended t.cache t.count (runOf cfg (w.found cfg) w.rest w.left
        - t.count)
      unfold Walk.turn X87Sidecar.turn at hturn
      cases hir : irTurn cfg (w.found cfg) w.rest x with
      | some t' =>
          rw [hir] at hturn
          cases hturn
          unfold irTurn at hir
          cases hb : (bridgedAttempt cfg w.rest x
              (bridgePending cfg (w.found cfg) w.rest x)
              (setUpRun cfg (w.found cfg) w.rest)).2 with
          | some t' =>
              rw [hb] at hir
              cases hir
              exact hfound.ended_bridged hsafe.length hb
          | none =>
              rw [hb] at hir
              exact (hfound.afterBridge hsafe.length).ended_irAttempt hir
      | none =>
          rw [hir] at hturn
          obtain ⟨f, hf, rfl⟩ := Option.map_eq_some_iff.mp hturn
          have hcov := covered_chosen (hsafe.absorbed hir)
            (hsafe.status hir) hf
          have hat := hfound.atEmitter hsafe.length hir
          have hlt := hsafe.pops hir f hf
          exact hat.ended hcov ⟨hat.pops.1, by omega⟩
  | none =>
      dsimp only
      by_cases ha : w.cache.active = true
      · rw [if_pos ha]
        have hplain : Plain 1 [.begin, .finish 1] := ⟨rfl, rfl, rfl⟩
        have hnone : irTurn cfg (w.found cfg) w.rest x = none := by
          unfold Walk.turn X87Sidecar.turn at hturn
          rw [Option.orElse_eq_orElse, Option.orElse_eq_or,
            Option.or_eq_none_iff] at hturn
          exact hturn.1
        have hat := hfound.atEmitter hsafe.length hnone
        refine .of_clean (plain_clean hplain (Nat.le_refl 1) hat.pops) ?_
        intro hn
        have hrun := (plain_counted hplain
          { (atEmitter cfg (w.found cfg) w.rest x) with
            runRemaining := 1 }).run
        unfold flush_run at hn
        rw [hrun] at hn
        exact absurd hn (Nat.lt_irrefl 1)
      · rw [if_neg ha]
        have hidle : (w.found cfg).runRemaining = 0 := by
          have hz : ¬0 < w.cache.runRemaining :=
            fun hp => ha (decide_eq_true hp)
          rw [show (w.found cfg).runRemaining = w.cache.runRemaining from
            (eased_entered w.cache w.rest).run]
          omega
        have hclean : Clean (w.found cfg) :=
          (h.idle (by simpa using ha)).eased (eased_entered _ _)
        obtain ⟨hc, hr⟩ := declined_idle hidle hclean hturn
        exact .of_clean hc fun hn => by omega

/-- Along every run of turns that are safe, after each turn the counter is
how many instructions of the run are still to come, and it runs out over
nothing. -/
theorem counter_kept (cfg : TranslatorConfig) (block : List IRInstr)
    (xs : List Choice)
    (h : ∀ v ∈ visits (Walk.step cfg) (Walk.start block) xs,
      CounterSafe cfg v.1 v.2) :
    ∀ v ∈ visits (Walk.step cfg) (Walk.start block) xs,
      CounterKept cfg v.1 v.2 := by
  refine visits_of_condition (fun w => Standing w.cache w.left) _ _ ?_ ?_
    xs h
  · intro w x hw hsafe
    have hend := ended_turn hw hsafe
    refine ⟨⟨hend.standing.counter, fun hidle => hend.clean ?_⟩,
      hend.standing⟩
    have hz : ¬0 < (w.step cfg x).cache.runRemaining :=
      of_decide_eq_false hidle
    have hrun : (w.step cfg x).cache.runRemaining
        = (w.uncounted cfg x).1.runRemaining - (w.uncounted cfg x).2 :=
      ticks_run _ _
    omega
  · exact .of_clean ⟨not_owing_iff.mpr ⟨rfl, le_refl 0, rfl⟩, rfl, rfl⟩
      fun hn => absurd hn (Nat.lt_irrefl 0)

/-- Every fusion is on and the IR off. -/
def fusing : TranslatorConfig where
  env := .blank
  fusion :=
    { disabled := fun _ => false, fmaContract := false,
      preciseFaults := false, preciseSplit := false,
      roomFor := fun _ _ => true }
  opt := {}
  nativeSlots := false
  nativeTransport := false
  cacheDisabled := false
  irDisabled := true
  forceGate := false
  gateThreshold := fun _ => 0
  rollbackAllowed := fun _ => false
  bridges := {}

/-- A turn without bridges and conversions. -/
def plainTurn : Choice where
  pressure :=
    { available := 0, gprAvailable := 0, peakFprs := fun _ => (0, none),
      remat := fun _ => none, peakGprs := fun _ _ => (0, none),
      split := false, enableRemat := false }
  bridgedTotal := 0
  converted := fun _ => .native
  copiesOnly := false
  native := false

/-- `fxch st(1)`, then `faddp st(1), st`. -/
def exchangeAdd : List IRInstr :=
  [{ opcode := .fxch, numOperands := 2, op0 := .st 0, op1 := .st 1 },
    { opcode := .faddp, numOperands := 2, op0 := .st 1, op1 := .st 0 }]

/-- The two of them make a whole run. -/
theorem counter_kept_exchangeAdd :
    CounterKept fusing (Walk.start exchangeAdd) plainTurn := by
  refine counter_kept fusing exchangeAdd [plainTurn] ?_
    (Walk.start exchangeAdd, plainTurn) List.mem_cons_self
  intro v hv
  obtain rfl : v = (Walk.start exchangeAdd, plainTurn) := by simpa using hv
  refine ⟨fun _ => .inl (by decide), fun _ f hf _ => ?_,
    fun _ i hi ho => ?_, fun _ f hf => ?_⟩
  · cases hf
    decide
  · cases hi
    cases ho
  · cases hf
    decide

/-- With an instruction after them the counter has run out one too early:
`faddp`'s pop and TOP are still to be written. -/
theorem not_counter_kept_exchangeAdd_fnop :
    ¬CounterKept fusing
      (Walk.start (exchangeAdd ++ [{ opcode := .fnop, numOperands := 0 }]))
      plainTurn := by
  intro hkept
  exact (hkept.2 rfl).owed ⟨.top, rfl⟩

end X87Sidecar.Counter
