/-
The permutation flush realises the permutation.

What a depth holds is a binary64 value or a ten-byte image, as the slot
tracker says. The flush moves the contents where the deferred exchanges
want them: as images if a slot among those it moves holds one, otherwise
as binary64 halves. Either way a content arrives as it left.
-/
import Mathlib.Data.FinEnum
import X87Sidecar.Proofs.Translate.Deferred
import X87Sidecar.Translate.Single

namespace X87Sidecar.Permute

open Lib

-- ====================================================== what a depth holds

/-- The content of a slot. -/
inductive SlotContent
  /-- a binary64 working value -/
  | f64 (v : BitVec 64)
  /-- a ten-byte image -/
  | image (w : BitVec 80)
  deriving DecidableEq

/-- What the slot at a depth holds: the low half of the slot or all of
it, as the tracker says. -/
def content (c : X87Cache) (m : Machine) (d : Depth) : SlotContent :=
  if c.holdsF80At d then .image (m.slot (m.phys d))
  else .f64 (slotF64 (m.slot (m.phys d)))

theorem slotF64_slotWithF64 (w : BitVec 80) (v : BitVec 64) :
    slotF64 (slotWithF64 w v) = v := by
  apply BitVec.eq_of_getLsbD_eq
  intro i hi
  simp [slotF64, slotWithF64, hi]

/-- The part of a slot that a flush moves. -/
def moved (image : Bool) (w : BitVec 80) : BitVec 80 :=
  if image then w else (slotF64 w).setWidth 80

theorem moved_true (w : BitVec 80) : moved true w = w := rfl

/-- With binary64 halves moved, equal parts are equal values. -/
theorem slotF64_of_moved {w w' : BitVec 80}
    (h : moved false w = moved false w') : slotF64 w = slotF64 w' := by
  have hcut := congrArg (fun v => v.setWidth 64) h
  simpa [moved] using hcut

-- ==================================================== a row of moves

section
variable (image : Bool)

/-- A write to a slot as the part that is moved. -/
theorem moved_put (m : Machine) (p q : BitVec 3) (w : BitVec 80) :
    moved image ((m.put image p w).slot q)
      = if q = p then moved image w else moved image (m.slot q) := by
  cases image with
  | true =>
      show moved true (Function.update m.slot p w q) = _
      by_cases h : q = p
      · rw [if_pos h, h, Function.update_self]
      · rw [if_neg h, Function.update_of_ne h]
  | false =>
      show moved false (Function.update m.slot p _ q) = _
      by_cases h : q = p
      · rw [if_pos h, h, Function.update_self]
        unfold moved
        rw [if_neg Bool.false_ne_true, if_neg Bool.false_ne_true,
          slotF64_slotWithF64]
      · rw [if_neg h, Function.update_of_ne h]

/-- The moved parts of the slots by depth, and of the saved one. -/
def parts (m : Machine) : (Depth → BitVec 80) × BitVec 80 :=
  (fun d => moved image (m.slot (m.phys d)), moved image m.hold)

theorem phys_inj (m : Machine) {d e : Depth} :
    m.phys d = m.phys e ↔ d = e := by
  unfold Machine.phys
  constructor
  · intro h
    exact (BitVec.add_right_inj m.wTop).mp h
  · intro h
    rw [h]

/-- One move of the code is one move of the parts. -/
theorem parts_exec (mv : Move Depth) (m : Machine) :
    parts image (Insn.exec m (.ofMove image mv))
      = Move.run (parts image m) mv := by
  have hput : ∀ (m : Machine) (dst : Depth) (w : BitVec 80),
      parts image (m.put image (m.phys dst) w)
        = (Function.update (parts image m).1 dst (moved image w),
          moved image m.hold) := by
    intro m dst w
    have htop : (m.put image (m.phys dst) w).wTop = m.wTop := by
      cases image <;> rfl
    have hhold : (m.put image (m.phys dst) w).hold = m.hold := by
      cases image <;> rfl
    have hphys : ∀ d, (m.put image (m.phys dst) w).phys d = m.phys d := by
      intro d
      show (m.put image (m.phys dst) w).wTop + d = _
      rw [htop]
      rfl
    unfold parts
    rw [hhold]
    congr 1
    funext d
    rw [hphys, moved_put]
    by_cases h : d = dst
    · rw [h, if_pos rfl, Function.update_self]
    · rw [if_neg (fun he => h ((phys_inj m).mp he)),
        Function.update_of_ne h]
  cases mv with
  | save d => rfl
  | copy dst src => exact hput m dst (m.slot (m.phys src))
  | restore dst => exact hput m dst m.hold

/-- A row of moves. -/
theorem parts_exec_moves (moves : List (Move Depth)) (m : Machine) :
    parts image (exec (moves.map (Insn.ofMove image)) m)
      = runCode Move.run moves (parts image m) := by
  induction moves generalizing m with
  | nil => rfl
  | cons mv rest ih =>
      rw [List.map_cons, exec, runCode_cons, runCode_cons, ← parts_exec]
      exact ih _

/-- A row of moves leaves alone what none of them writes. -/
theorem slot_exec_moves {moves : List (Move Depth)} (m : Machine)
    {d : Depth} (hd : ∀ mv ∈ moves, mv.target ≠ some d) :
    (exec (moves.map (Insn.ofMove image)) m).slot (m.phys d)
      = m.slot (m.phys d) := by
  induction moves generalizing m with
  | nil => rfl
  | cons mv rest ih =>
      obtain ⟨slot, hold, hm⟩ := Deferred.exec_ofMove image mv m
      have hphys : (Insn.exec m (.ofMove image mv)).phys d = m.phys d := by
        rw [hm]
        rfl
      have hrest := ih (Insn.exec m (.ofMove image mv))
        fun mv' h' => hd mv' (List.mem_cons_of_mem _ h')
      rw [hphys] at hrest
      rw [List.map_cons, exec, runCode_cons]
      refine hrest.trans ?_
      have hne := hd mv List.mem_cons_self
      have hput : ∀ (dst : Depth) (w : BitVec 80), dst ≠ d →
          (m.put image (m.phys dst) w).slot (m.phys d)
            = m.slot (m.phys d) := by
        intro dst w hdst
        have hp : m.phys d ≠ m.phys dst := fun he =>
          hdst ((phys_inj m).mp he).symm
        cases image with
        | true => exact Function.update_of_ne hp _ _
        | false => exact Function.update_of_ne hp _ _
      cases mv with
      | save d' => rfl
      | copy dst src =>
          exact hput dst _ fun he => hne (congrArg some he)
      | restore dst =>
          exact hput dst _ fun he => hne (congrArg some he)

end

-- ======================================================== the flush

/-- The cache and the machine after a flush. -/
def flushed (s : X87Cache × Machine) : X87Cache × Machine :=
  x87_emit_perm_flush.run Insn.exec s

section
variable (c : X87Cache) (m : Machine)

theorem mem_depths (d : Depth) : d ∈ X87Cache.depths := by
  revert d
  decide

/-- A flush changes nothing of the machine but slots that the permutation
moves. -/
theorem flushed_machine (hinj : Function.Injective c.perm) :
    ∃ slot hold, (flushed (c, m)).2 = { m with slot, hold }
      ∧ ∀ d, c.perm d = d → slot (m.phys d) = m.slot (m.phys d) := by
  obtain ⟨slot, hold, hm, -⟩ := Deferred.exec_moves c.permMovesF80
    (cycleMoves c.perm 8 X87Cache.depths []) (m := m) (e := m) rfl rfl rfl
  refine ⟨slot, hold, hm, ?_⟩
  intro d hfix
  have hstay := @slot_exec_moves c.permMovesF80
    (cycleMoves c.perm 8 X87Cache.depths []) m d
    fun mv hmv he => target_cycleMoves hinj hmv he hfix
  rw [hm] at hstay
  exact hstay

/-- The part that is moved arrives at each depth from where the
permutation says. -/
theorem flushed_moved (hinj : Function.Injective c.perm) (d : Depth) :
    moved c.permMovesF80 ((flushed (c, m)).2.slot (m.phys d))
      = moved c.permMovesF80 (m.slot (m.phys (c.perm d))) := by
  have hrun := parts_exec_moves c.permMovesF80
    (cycleMoves c.perm 8 X87Cache.depths []) m
  have hcycle := cycleMoves_run hinj (show Fintype.card Depth ≤ 8 + 1 by decide)
    mem_depths
    (parts c.permMovesF80 m) d
  rw [← hrun] at hcycle
  obtain ⟨slot, hold, hm, -⟩ := flushed_machine c m hinj
  have hphys : (flushed (c, m)).2.phys d = m.phys d := by
    rw [hm]
    rfl
  rw [← hphys]
  exact hcycle

/-- The formats a flush leaves. -/
theorem flushed_fmtAt (hn : c.nativeSlots = true) (d : Depth) :
    (flushed (c, m)).1.fmtAt d
      = if c.permMovesF80 ∨ c.perm d = d then c.fmtAt (c.perm d)
        else .f64 := by
  have hback : c.trackedSlot d - c.topRel = d := by
    unfold X87Cache.trackedSlot
    bv_omega
  show c.permutedFmt (c.trackedSlot d) = _
  unfold X87Cache.permutedFmt
  rw [if_pos hn]
  by_cases hf : c.permMovesF80
  · rw [if_pos hf, if_pos (.inl hf), hback]
    rfl
  · rw [if_neg hf, hback]
    by_cases hfix : c.perm d = d
    · rw [if_pos hfix, if_pos (.inr hfix), hfix]
      rfl
    · rw [if_neg hfix, if_neg]
      intro h
      exact h.elim hf hfix

/-- With binary64 halves moved, no depth that the permutation moves holds
an image. -/
theorem holdsF80At_of_moved (hinj : Function.Injective c.perm)
    (hf : ¬c.permMovesF80) {d : Depth} (hd : c.perm d ≠ d) :
    c.holdsF80At d = false ∧ c.holdsF80At (c.perm d) = false := by
  have hnone : ∀ e, c.perm e ≠ e → c.holdsF80At e = false := by
    intro e he
    by_contra hh
    apply hf
    unfold X87Cache.permMovesF80
    rw [List.any_eq_true]
    exact ⟨e, mem_depths e, by simp [he, hh]⟩
  exact ⟨hnone d hd, hnone _ fun he => hd (hinj he)⟩

/-- After a flush each depth holds what the permutation says. -/
theorem content_flushed (hinj : Function.Injective c.perm) (d : Depth) :
    content (flushed (c, m)).1 (flushed (c, m)).2 d
      = content c m (c.perm d) := by
  obtain ⟨slot, hold, hm, hstay⟩ := flushed_machine c m hinj
  have hmoved := flushed_moved c m hinj d
  have hphys : (flushed (c, m)).2.phys d = m.phys d := by
    rw [hm]
    rfl
  have hholds : (flushed (c, m)).1.holdsF80At d
      = c.holdsF80At (c.perm d) := by
    show (c.nativeSlots && ((flushed (c, m)).1.fmtAt d).holdsF80) = _
    cases hn : c.nativeSlots with
    | false => simp [X87Cache.holdsF80At, hn]
    | true =>
        rw [flushed_fmtAt c m hn]
        by_cases h : c.permMovesF80 ∨ c.perm d = d
        · rw [if_pos h]
          simp [X87Cache.holdsF80At, hn]
        · rw [not_or] at h
          rw [if_neg (not_or.mpr h),
            (holdsF80At_of_moved c hinj h.1 h.2).2]
          rfl
  unfold content
  rw [hholds, hphys]
  by_cases hf : c.permMovesF80
  · rw [hf, moved_true, moved_true] at hmoved
    rw [hmoved]
  · have hf' : c.permMovesF80 = false := by simpa using hf
    rw [hf'] at hmoved
    by_cases hfix : c.perm d = d
    · have hslot : (flushed (c, m)).2.slot (m.phys d)
          = m.slot (m.phys d) := by
        rw [hm]
        exact hstay d hfix
      rw [hslot, hfix]
    · rw [(holdsF80At_of_moved c hinj hf hfix).2, if_neg Bool.false_ne_true,
        if_neg Bool.false_ne_true, slotF64_of_moved hmoved]

end

-- ================================================ the planner's flush

/-- The planner's formats move as the permutation says. -/
theorem fmt_simFlush (s : SlotSim) (d : Depth) :
    s.flush.fmt (s.top + d) = s.fmt (s.top + s.perm d) := by
  have hback : s.top + d - s.top = d := by bv_omega
  show s.fmt (s.top + s.perm (s.top + d - s.top)) = _
  rw [hback]

/-- And so does the slot it follows. -/
theorem pushed_simFlush {s : SlotSim} (hinj : Function.Injective s.perm)
    {d : Depth} (hd : s.pushed = some (s.top + s.perm d)) :
    s.flush.pushed = some (s.top + d) := by
  have hfind : X87Cache.depths.find?
      (fun i => s.top + s.perm i = s.top + s.perm d) = some d := by
    have hsome : (X87Cache.depths.find?
        fun i => s.top + s.perm i = s.top + s.perm d).isSome := by
      rw [List.find?_isSome]
      exact ⟨d, mem_depths d, by simp⟩
    obtain ⟨i, hi⟩ := Option.isSome_iff_exists.mp hsome
    have hsame : s.top + s.perm i = s.top + s.perm d := by
      simpa using List.find?_some hi
    have hid : i = d := hinj ((BitVec.add_right_inj s.top).mp hsame)
    rw [hi, hid]
  unfold SlotSim.flush
  rw [hd]
  show some ((X87Cache.depths.find? fun i =>
    s.top + s.perm i = s.top + s.perm d).elim (s.top + s.perm d)
      fun i => s.top + i) = _
  rw [hfind]
  rfl

-- ============================================ exchanges, put off and not

/-- `translate_fxch` where it renames: nothing for `ST(0)`. -/
def deferExchange (c : X87Cache) (d : Depth) : X87Cache :=
  if d = 0 then c else c.swapPerm d

/-- `translate_fxch` where it swaps in memory, between `x87_begin` and
`x87_end`. -/
def exchangeInMemory (c : X87Cache) (d : Depth) : Script :=
  if d = 0 then []
  else if c.holdsF80At 0 || c.holdsF80At d then
    [.loadImage (.raw 0) 0, .loadImage (.raw d) 1, .storeImage (.raw d) 0,
      .storeImage (.raw 0) 1, .noteSwap 0 d]
  else
    [.load (.raw 0) 0 0, .load (.raw d) 1 1, .storeKey 1 0, .storeKey 0 1]

/-- The script of `translate_fxch` is the one or the other. -/
theorem translate_fxch_eq (env : Env) (c : X87Cache) (a2 : IRInstr) :
    translate_fxch env c a2
      = if c.active ∧ !env.disableDeferredFxch ∧ a2.op1.depth ≠ 0 then
          [.begin, .exchange a2.op1.depth, .finish 1]
        else .begin :: exchangeInMemory c a2.op1.depth ++ [.finish 1] := by
  unfold translate_fxch exchangeInMemory
  by_cases hd : a2.op1.depth = 0
  · have hnot : ¬(c.active ∧ !env.disableDeferredFxch
        ∧ a2.op1.depth ≠ 0) := fun h => h.2.2 hd
    rw [if_pos hd, if_neg hnot, if_pos hd]
    rfl
  · rw [if_neg hd, if_neg hd]
    by_cases ha : c.active ∧ !env.disableDeferredFxch
    · rw [if_pos ha, if_pos ⟨ha.1, ha.2, hd⟩]
    · have hnot : ¬(c.active ∧ !env.disableDeferredFxch
          ∧ a2.op1.depth ≠ 0) := fun h => ha ⟨h.1, h.2.1⟩
      rw [if_neg ha, if_neg hnot]
      by_cases hh : c.holdsF80At 0 || c.holdsF80At a2.op1.depth
      · rw [if_pos hh, if_pos hh]
        rfl
      · rw [if_neg hh, if_neg hh]
        rfl

/-- One exchange in memory. -/
def exchange (s : X87Cache × Machine) (d : Depth) : X87Cache × Machine :=
  (exchangeInMemory s.1 d).emit.run Insn.exec s

/-- Swapping at two depths is swapping in the slots they are at. -/
theorem phys_swap (m : Machine) (d x : Depth) :
    Equiv.swap (m.phys 0) (m.phys d) (m.phys x)
      = m.phys (Equiv.swap 0 d x) :=
  Function.Injective.swap_apply (fun _ _ h => (phys_inj m).mp h) 0 d x

/-- The tracker follows a swap. -/
theorem fmtAt_noteSwap {c : X87Cache} (hn : c.nativeSlots = true)
    (d x : Depth) :
    (c.noteSwap 0 d).fmtAt x = c.fmtAt (Equiv.swap 0 d x) := by
  have hinj : Function.Injective c.trackedSlot := fun _ _ h =>
    (BitVec.add_right_inj c.topRel).mp h
  unfold X87Cache.noteSwap
  rw [if_pos hn]
  show c.slotFmt (Equiv.swap (c.trackedSlot 0) (c.trackedSlot d)
    (c.trackedSlot x)) = _
  rw [Function.Injective.swap_apply hinj]
  rfl

/-- Two images swapped, formats and all. -/
theorem content_swap_images {c : X87Cache} {m m' : Machine} {d : Depth}
    (hn : c.nativeSlots = true) (htop : m'.wTop = m.wTop)
    (hslot : m'.slot = m.slot ∘ Equiv.swap (m.phys 0) (m.phys d))
    (x : Depth) :
    content (c.noteSwap 0 d) m' x = content c m (Equiv.swap 0 d x) := by
  have hnative : (c.noteSwap 0 d).nativeSlots = true := by
    unfold X87Cache.noteSwap
    rw [if_pos hn]
    exact hn
  have hword : m'.slot (m'.phys x) = m.slot (m.phys (Equiv.swap 0 d x)) := by
    rw [hslot, ← phys_swap]
    show m.slot (Equiv.swap (m.phys 0) (m.phys d) (m'.wTop + x)) = _
    rw [htop]
    rfl
  unfold content X87Cache.holdsF80At
  rw [hword, fmtAt_noteSwap hn, hnative, hn]

/-- Two binary64 halves swapped. -/
theorem content_swap_halves {c : X87Cache} {m m' : Machine} {d : Depth}
    (h0 : c.holdsF80At 0 = false) (hd : c.holdsF80At d = false)
    (htop : m'.wTop = m.wTop)
    (hslot : ∀ x, x ≠ 0 → x ≠ d →
      m'.slot (m.phys x) = m.slot (m.phys x))
    (hslot0 : slotF64 (m'.slot (m.phys 0)) = slotF64 (m.slot (m.phys d)))
    (hslotd : slotF64 (m'.slot (m.phys d)) = slotF64 (m.slot (m.phys 0)))
    (x : Depth) :
    content c m' x = content c m (Equiv.swap 0 d x) := by
  have hphys : m'.phys x = m.phys x := by
    unfold Machine.phys
    rw [htop]
  unfold content
  rw [hphys]
  by_cases hx0 : x = 0
  · rw [hx0, Equiv.swap_apply_left, h0, hd, hslot0]
    rfl
  · by_cases hxd : x = d
    · rw [hxd, Equiv.swap_apply_right, h0, hd, hslotd]
      rfl
    · rw [Equiv.swap_apply_of_ne_of_ne hx0 hxd, hslot x hx0 hxd]

/-- An exchange in memory swaps the contents of `ST(0)` and `ST(d)`. -/
theorem content_exchange (c : X87Cache) (m : Machine) (d x : Depth) :
    content (exchange (c, m) d).1 (exchange (c, m) d).2 x
      = content c m (Equiv.swap 0 d x) := by
  unfold exchange exchangeInMemory
  by_cases hd : d = 0
  · rw [if_pos hd, hd, Equiv.swap_self]
    rfl
  · have hne : m.phys d ≠ m.phys 0 := fun he => hd ((phys_inj m).mp he)
    rw [if_neg hd]
    by_cases hh : c.holdsF80At 0 || c.holdsF80At d
    · have hn : c.nativeSlots = true := by
        cases hn : c.nativeSlots with
        | true => rfl
        | false => simp [X87Cache.holdsF80At, hn] at hh
      rw [if_pos hh]
      show content (c.noteSwap 0 d) (exec [.ldImage 0 0, .ldImage d 1,
        .stImage d 0, .stImage 0 1] m) x = _
      apply content_swap_images hn
      · rfl
      · rw [Equiv.comp_swap_eq_update]
        rfl
    · rw [if_neg hh]
      have hboth : c.holdsF80At 0 = false ∧ c.holdsF80At d = false := by
        simpa using hh
      show content c (exec [.ldSt 0 0 0, .ldSt d 1 1, .stKey 1 0,
        .stKey 0 1] m) x = _
      -- the two stores: into `ST(d)` what `ST(0)` held, and back
      have hslot : (exec [.ldSt 0 0 0, .ldSt d 1 1, .stKey 1 0,
            .stKey 0 1] m).slot
          = Function.update (Function.update m.slot (m.phys d)
              (slotWithF64 (m.slot (m.phys d)) (slotF64 (m.slot (m.phys 0)))))
              (m.phys 0)
              (slotWithF64 (Function.update m.slot (m.phys d)
                (slotWithF64 (m.slot (m.phys d))
                  (slotF64 (m.slot (m.phys 0)))) (m.phys 0))
                (slotF64 (m.slot (m.phys d)))) := rfl
      apply content_swap_halves hboth.1 hboth.2
      · rfl
      · intro y hy0 hyd
        rw [hslot, Function.update_of_ne fun he => hy0 ((phys_inj m).mp he),
          Function.update_of_ne fun he => hyd ((phys_inj m).mp he)]
      · rw [hslot, Function.update_self, slotF64_slotWithF64]
      · rw [hslot, Function.update_of_ne hne, Function.update_self,
          slotF64_slotWithF64]

/-- It leaves the renaming alone. -/
theorem resolveDepth_exchange (c : X87Cache) (m : Machine) (d x : Depth) :
    (exchange (c, m) d).1.resolveDepth x = c.resolveDepth x := by
  unfold exchange exchangeInMemory
  split
  · rfl
  · split
    · show (c.noteSwap 0 d).resolveDepth x = _
      unfold X87Cache.noteSwap
      split
      · rfl
      · rfl
    · rfl

/-- An `fxch`, between `x87_begin` and `x87_end`: what `ST(0)` and `ST(d)`
stand for changes places, put off or in memory. -/
theorem content_fxch (env : Env) (c : X87Cache) (m : Machine)
    (a2 : IRInstr) (hid : c.permDirty = false → c.perm = id)
    (hmem : c.active = false ∨ env.disableDeferredFxch = true →
      c.permDirty = false) (x : Depth) :
    ∃ body : Script, translate_fxch env c a2 = .begin :: body ++ [.finish 1]
      ∧ let st := body.emit.run Insn.exec (c, m)
        content st.1 st.2 (st.1.resolveDepth x)
          = content c m (c.resolveDepth (Equiv.swap 0 a2.op1.depth x)) := by
  by_cases hdefer : c.active ∧ !env.disableDeferredFxch
    ∧ a2.op1.depth ≠ 0
  · refine ⟨[.exchange a2.op1.depth], ?_, ?_⟩
    · rw [translate_fxch_eq, if_pos hdefer]
      rfl
    · have hperm : c.resolveDepth = c.perm := by
        funext y
        unfold X87Cache.resolveDepth
        cases hp : c.permDirty with
        | true => rfl
        | false =>
            rw [hid hp]
            rfl
      rw [hperm]
      rfl
  · refine ⟨exchangeInMemory c a2.op1.depth, ?_, ?_⟩
    · rw [translate_fxch_eq, if_neg hdefer]
    · show content (exchange (c, m) a2.op1.depth).1
        (exchange (c, m) a2.op1.depth).2
          ((exchange (c, m) a2.op1.depth).1.resolveDepth x) = _
      rw [content_exchange, resolveDepth_exchange]
      by_cases hd : a2.op1.depth = 0
      · rw [hd, Equiv.swap_self]
        rfl
      · have hidle : c.active = false ∨ env.disableDeferredFxch = true := by
          by_contra hn
          exact hdefer ⟨by simpa using fun h => hn (.inl h),
            by simpa using fun h => hn (.inr h), hd⟩
        unfold X87Cache.resolveDepth
        rw [hmem hidle]
        rfl

/-- What a row of exchanges makes of a depth: the depth whose content it
ends up with. -/
def source (ds : List Depth) (x : Depth) : Depth :=
  ds.foldr (fun d y => Equiv.swap 0 d y) x

/-- A row of exchanges in memory. -/
theorem content_exchanges (ds : List Depth) (s : X87Cache × Machine)
    (x : Depth) :
    content (ds.foldl exchange s).1 (ds.foldl exchange s).2 x
      = content s.1 s.2 (source ds x) := by
  induction ds generalizing s with
  | nil => rfl
  | cons d ds ih =>
      rw [List.foldl_cons, ih]
      exact content_exchange s.1 s.2 d (source ds x)

/-- A row of exchanges put off. -/
theorem perm_deferExchange (ds : List Depth) (c : X87Cache) (x : Depth) :
    (ds.foldl deferExchange c).perm x = c.perm (source ds x) := by
  induction ds generalizing c with
  | nil => rfl
  | cons d ds ih =>
      rw [List.foldl_cons, ih]
      unfold deferExchange
      by_cases hd : d = 0
      · rw [if_pos hd, hd]
        show _ = c.perm (Equiv.swap 0 0 (source ds x))
        rw [Equiv.swap_self]
        rfl
      · rw [if_neg hd]
        rfl

/-- Putting exchanges off changes the renaming only. -/
theorem content_deferExchange (ds : List Depth) (c : X87Cache)
    (m : Machine) (x : Depth) :
    content (ds.foldl deferExchange c) m x = content c m x := by
  induction ds generalizing c with
  | nil => rfl
  | cons d ds ih =>
      rw [List.foldl_cons, ih]
      unfold deferExchange
      by_cases hd : d = 0
      · rw [if_pos hd]
      · rw [if_neg hd]
        rfl

theorem source_injective (ds : List Depth) :
    Function.Injective (source ds) := by
  induction ds with
  | nil => exact Function.injective_id
  | cons d ds ih => exact (Equiv.swap 0 d).injective.comp ih

/-- Exchanges put off and flushed once are exchanges done one by one. -/
theorem content_deferred (ds : List Depth) (c : X87Cache) (m : Machine)
    (hinj : Function.Injective c.perm) (x : Depth) :
    content (flushed (ds.foldl deferExchange c, m)).1
        (flushed (ds.foldl deferExchange c, m)).2 x
      = content (ds.foldl exchange (flushed (c, m))).1
          (ds.foldl exchange (flushed (c, m))).2 x := by
  have hinj' : Function.Injective (ds.foldl deferExchange c).perm := by
    intro a b he
    rw [perm_deferExchange, perm_deferExchange] at he
    exact source_injective ds (hinj he)
  rw [content_flushed _ m hinj', content_deferExchange,
    perm_deferExchange, content_exchanges, content_flushed c m hinj]

-- ========================================================== the result

/-- A flush realises any permutation of the depths, at any TOP and under
any formats. No more fuel is needed than there are depths, each depth
then holds the content that the permutation assigns to it, unconverted,
and a slot that the permutation fixes is not written. The planner's
formats move likewise; the tracker's do with images, and where binary64
halves are moved, a store marks its slot.
Exchanges put off and flushed once leave what exchanges done one by one
do. -/
theorem permFlush_realises (p : Equiv.Perm Depth) (c : X87Cache)
    (m : Machine) (pushed : Option Depth) :
    let s : X87Cache × Machine := ({ c with perm := p }, m)
    (∀ more, cycleMoves p (8 + more) X87Cache.depths []
        = cycleMoves p 8 X87Cache.depths [])
      ∧ (∀ d, content (flushed s).1 (flushed s).2 d = content s.1 m (p d))
      ∧ (c.nativeSlots = true → ∀ d, (flushed s).1.fmtAt d
          = if s.1.permMovesF80 ∨ p d = d then s.1.fmtAt (p d) else .f64)
      ∧ (∀ d, (SlotSim.flush ⟨c.topRel, p, c.slotFmt, pushed⟩).fmt
          (c.topRel + d) = s.1.fmtAt (p d))
      ∧ (∀ d, pushed = some (c.topRel + p d) →
          (SlotSim.flush ⟨c.topRel, p, c.slotFmt, pushed⟩).pushed
            = some (c.topRel + d))
      ∧ (∃ slot hold, (flushed s).2 = { m with slot, hold }
          ∧ ∀ d, p d = d → slot (m.phys d) = m.slot (m.phys d))
      ∧ ∀ (ds : List Depth) (x : Depth),
          content (flushed (ds.foldl deferExchange s.1, m)).1
              (flushed (ds.foldl deferExchange s.1, m)).2 x
            = content (ds.foldl exchange (flushed s)).1
                (ds.foldl exchange (flushed s)).2 x := by
  intro s
  have hinj : Function.Injective s.1.perm := p.injective
  refine ⟨?_, content_flushed s.1 m hinj, ?_, ?_, ?_,
    flushed_machine s.1 m hinj, ?_⟩
  · intro more
    exact cycleMoves_fuel hinj (by decide) more _ _
  · intro hn d
    exact flushed_fmtAt s.1 m hn d
  · intro d
    exact fmt_simFlush ⟨c.topRel, p, c.slotFmt, pushed⟩ d
  · intro d hd
    exact pushed_simFlush (s := ⟨c.topRel, p, c.slotFmt, pushed⟩) hinj hd
  · intro ds x
    exact content_deferred ds s.1 m hinj x

/-- An exchange of a popped slot: its binary64 bits move, its format does
not, although nothing of it is an image. -/
theorem permFlush_dead :
    let c : X87Cache :=
      { nativeSlots := true
        slotFmt := fun r => if r = 0 then .dead else .f64
        perm := Equiv.swap 0 1
        permDirty := true }
    (flushed (c, .blank 0)).1.fmtAt 1 ≠ c.fmtAt (c.perm 1) := by
  decide

end X87Sidecar.Permute
