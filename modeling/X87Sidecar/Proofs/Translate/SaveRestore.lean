/-
FSAVE and FRSTOR over memory.

The save area is a header of three words and eight images at ten bytes
each. A restore from the area a save wrote gives back the three words and
at each depth what the slot held, widened to an image and, in the compact
layout, narrowed again. Nothing owed is lost on the way: a save writes
everything first, a restore forgets what the image replaces.
-/
import X87Sidecar.Proofs.Translate.DeferredRun
import X87Sidecar.Proofs.Translate.Permute
import X87Sidecar.Proofs.Translate.LoweredRun
import X87Sidecar.Proofs.Translate.Widen

namespace X87Sidecar.SaveRestore

open Lib

-- ============================================================== the area

/-- The bytes of a save area. -/
def areaSize : Nat := 108

/-- Where the image of `ST(i)` lies. -/
def imageAt (i : Depth) : Nat := 28 + 10 * i.toNat

theorem saveOffset_eq (i : Depth) :
    saveOffset i = BitVec.ofNat 64 (imageAt i) := by
  revert i
  decide

section
variable {mem : Mem 64} {a : BitVec 64}

/-- A store at one offset and a load at another. -/
theorem load_store {i j n k : Nat} {v : BitVec (8 * n)}
    (h : i + n ≤ j ∨ j + k ≤ i) (hi : i + n ≤ areaSize)
    (hj : j + k ≤ areaSize) :
    (mem.store (a + BitVec.ofNat 64 i) n v).load (a + BitVec.ofNat 64 j) k
      = mem.load (a + BitVec.ofNat 64 j) k := by
  have : areaSize ≤ 2 ^ 64 := by decide
  exact Mem.load_store_of_disjoint
    (Mem.disjoint_offsets h (by omega) (by omega))

/-- A store within the area. -/
theorem store_outside {i n : Nat} {v : BitVec (8 * n)}
    (hi : i + n ≤ areaSize) {x : BitVec 64}
    (hx : areaSize ≤ Mem.offset a x) :
    mem.store (a + BitVec.ofNat 64 i) n v x = mem x := by
  apply Mem.store_of_le
  unfold Mem.offset at hx ⊢
  rw [show x - (a + BitVec.ofNat 64 i) = (x - a) - BitVec.ofNat 64 i
    from sub_add_eq_sub_sub _ _ _, BitVec.toNat_sub, BitVec.toNat_ofNat]
  have := (x - a).isLt
  have : areaSize = 108 := rfl
  omega

/-- The low bytes of what was stored. -/
theorem load_store_low {n k : Nat} {v : BitVec (8 * n)} (hk : k ≤ n)
    (hn : n ≤ areaSize) :
    (mem.store a n v).load a k = v.setWidth (8 * k) := by
  have : areaSize ≤ 2 ^ 64 := by decide
  apply BitVec.eq_of_getLsbD_eq
  intro i hi
  rw [Mem.getLsbD_load, decide_eq_true hi, Bool.true_and,
    Mem.store_apply (by omega) (by omega), BitVec.getLsbD_setWidth,
    BitVec.getLsbD_setWidth, BitVec.getLsbD_ushiftRight,
    decide_eq_true hi, decide_eq_true (show i % 8 < 8 by omega),
    Bool.true_and, Bool.true_and, show 8 * (i / 8) + i % 8 = i by omega]

/-- Ten bytes are eight and two. -/
theorem load_ten {w : BitVec 80} (hlow : mem.load a 8 = w.setWidth 64)
    (hhigh : mem.load (a + BitVec.ofNat 64 8) 2
      = (w >>> 64).setWidth 16) : mem.load a 10 = w := by
  apply BitVec.eq_of_getLsbD_eq
  intro i hi
  have hbyte := Mem.getLsbD_load mem a 10 i
  rw [hbyte, decide_eq_true hi, Bool.true_and]
  by_cases h : i < 64
  · have hl := congrArg (fun v => v.getLsbD i) hlow
    simp only [Mem.getLsbD_load, BitVec.getLsbD_setWidth] at hl
    rw [decide_eq_true (show i < 8 * 8 by omega), Bool.true_and,
      Bool.true_and] at hl
    exact hl
  · have hl := congrArg (fun v => v.getLsbD (i - 64)) hhigh
    simp only [Mem.getLsbD_load, BitVec.getLsbD_setWidth,
      BitVec.getLsbD_ushiftRight] at hl
    rw [decide_eq_true (show i - 64 < 8 * 2 by omega), Bool.true_and,
      Bool.true_and, add_assoc, ← BitVec.ofNat_add,
      show 8 + (i - 64) / 8 = i / 8 by omega,
      show (i - 64) % 8 = i % 8 by omega,
      show 64 + (i - 64) = i by omega] at hl
    exact hl

/-- The header of an area: three words in four bytes each, and no
pointers. -/
def storeHeader (mem : Mem 64) (a : BitVec 64) (cw sw tw : BitVec 16) :
    Mem 64 :=
  (((((mem.store (a + BitVec.ofNat 64 0) 4 (cw.setWidth 32)).store
    (a + BitVec.ofNat 64 4) 4 (sw.setWidth 32)).store
    (a + BitVec.ofNat 64 8) 4 (tw.setWidth 32)).store
    (a + BitVec.ofNat 64 12) 4 0).store
    (a + BitVec.ofNat 64 16) 8 0).store (a + BitVec.ofNat 64 24) 4 0

theorem load_storeHeader (cw sw tw : BitVec 16) :
    (storeHeader mem a cw sw tw).load (a + BitVec.ofNat 64 0) 2 = cw
      ∧ (storeHeader mem a cw sw tw).load (a + BitVec.ofNat 64 4) 2 = sw
      ∧ (storeHeader mem a cw sw tw).load (a + BitVec.ofNat 64 8) 2
        = tw := by
  have hsize : areaSize = 108 := rfl
  have hback : ∀ v : BitVec 16, (v.setWidth 32).setWidth 16 = v := by
    intro v
    rw [BitVec.setWidth_setWidth_of_le _ (by decide), BitVec.setWidth_eq]
  unfold storeHeader
  refine ⟨?_, ?_, ?_⟩
  · rw [load_store (by omega) (by omega) (by omega),
      load_store (by omega) (by omega) (by omega),
      load_store (by omega) (by omega) (by omega),
      load_store (by omega) (by omega) (by omega),
      load_store (by omega) (by omega) (by omega),
      load_store_low (by decide) (by decide)]
    exact hback cw
  · rw [load_store (by omega) (by omega) (by omega),
      load_store (by omega) (by omega) (by omega),
      load_store (by omega) (by omega) (by omega),
      load_store (by omega) (by omega) (by omega),
      load_store_low (by decide) (by decide)]
    exact hback sw
  · rw [load_store (by omega) (by omega) (by omega),
      load_store (by omega) (by omega) (by omega),
      load_store (by omega) (by omega) (by omega),
      load_store_low (by decide) (by decide)]
    exact hback tw

theorem storeHeader_outside {cw sw tw : BitVec 16} {x : BitVec 64}
    (hx : areaSize ≤ Mem.offset a x) :
    storeHeader mem a cw sw tw x = mem x := by
  have hsize : areaSize = 108 := rfl
  unfold storeHeader
  rw [store_outside (by omega) hx, store_outside (by omega) hx,
    store_outside (by omega) hx, store_outside (by omega) hx,
    store_outside (by omega) hx, store_outside (by omega) hx]

/-- A load within the area from memory that agrees there. -/
theorem load_agree {mem' : Mem 64}
    (h : ∀ x, Mem.offset a x < areaSize → mem' x = mem x) {j k : Nat}
    (hj : j + k ≤ areaSize) :
    mem'.load (a + BitVec.ofNat 64 j) k
      = mem.load (a + BitVec.ofNat 64 j) k := by
  refine Mem.load_congr fun i hi => h _ ?_
  unfold Mem.offset
  have hsum : a + BitVec.ofNat 64 j + BitVec.ofNat 64 i - a
      = BitVec.ofNat 64 (j + i) := by
    rw [BitVec.ofNat_add, add_assoc, add_sub_cancel_left]
  rw [hsum, BitVec.toNat_ofNat]
  have : areaSize = 108 := rfl
  omega

/-- An image stored as eight bytes and two. -/
def storeImage (mem : Mem 64) (a : BitVec 64) (i : Depth) (w : BitVec 80) :
    Mem 64 :=
  (mem.store (a + BitVec.ofNat 64 (imageAt i)) 8 (w.setWidth 64)).store
    (a + BitVec.ofNat 64 (imageAt i + 8)) 2 ((w >>> 64).setWidth 16)

theorem imageAt_le (i : Depth) : imageAt i + 10 ≤ areaSize := by
  have := i.isLt
  show 28 + 10 * i.toNat + 10 ≤ 108
  omega

theorem load_storeImage_of_ne {i : Depth} {w : BitVec 80} {j k : Nat}
    (h : imageAt i + 10 ≤ j ∨ j + k ≤ imageAt i)
    (hj : j + k ≤ areaSize) :
    (storeImage mem a i w).load (a + BitVec.ofNat 64 j) k
      = mem.load (a + BitVec.ofNat 64 j) k := by
  have := imageAt_le i
  unfold storeImage
  rw [load_store (by omega) (by omega) hj,
    load_store (by omega) (by omega) hj]

theorem load_storeImage (i : Depth) (w : BitVec 80) :
    (storeImage mem a i w).load (a + BitVec.ofNat 64 (imageAt i)) 10
      = w := by
  have := imageAt_le i
  apply load_ten
  · unfold storeImage
    rw [load_store (by omega) (by omega) (by omega)]
    exact Mem.load_store_self (by decide)
  · rw [add_assoc, ← BitVec.ofNat_add]
    exact Mem.load_store_self (by decide)

theorem storeImage_outside {i : Depth} {w : BitVec 80} {x : BitVec 64}
    (hx : areaSize ≤ Mem.offset a x) : storeImage mem a i w x = mem x := by
  have := imageAt_le i
  unfold storeImage
  rw [store_outside (by omega) hx, store_outside (by omega) hx]

/-- The images stored one after the other. -/
def storeImages (mem : Mem 64) (a : BitVec 64) (img : Depth → BitVec 80)
    (l : List Depth) : Mem 64 :=
  l.foldl (fun mem i => storeImage mem a i (img i)) mem

theorem storeImages_cons (i : Depth) (l : List Depth)
    (img : Depth → BitVec 80) :
    storeImages mem a img (i :: l)
      = storeImages (storeImage mem a i (img i)) a img l := rfl

theorem imageAt_apart {i j : Depth} (h : i ≠ j) :
    imageAt i + 10 ≤ imageAt j ∨ imageAt j + 10 ≤ imageAt i := by
  have hne : i.toNat ≠ j.toNat := fun e => h (BitVec.eq_of_toNat_eq e)
  unfold imageAt
  omega

variable {img : Depth → BitVec 80} {l : List Depth}

theorem load_storeImages_of_notMem {j k : Nat}
    (h : ∀ i ∈ l, imageAt i + 10 ≤ j ∨ j + k ≤ imageAt i)
    (hj : j + k ≤ areaSize) :
    (storeImages mem a img l).load (a + BitVec.ofNat 64 j) k
      = mem.load (a + BitVec.ofNat 64 j) k := by
  induction l generalizing mem with
  | nil => rfl
  | cons i l ih =>
      have hrest : ∀ i ∈ l, imageAt i + 10 ≤ j ∨ j + k ≤ imageAt i :=
        fun i hi => h i (List.mem_cons_of_mem _ hi)
      rw [storeImages_cons, ih hrest]
      exact load_storeImage_of_ne (h i List.mem_cons_self) hj

theorem load_storeImages (hl : l.Nodup) {i : Depth} (hi : i ∈ l) :
    (storeImages mem a img l).load (a + BitVec.ofNat 64 (imageAt i)) 10
      = img i := by
  induction l generalizing mem with
  | nil => cases hi
  | cons j l ih =>
      obtain ⟨hj, hnd⟩ := List.nodup_cons.mp hl
      rw [storeImages_cons]
      rcases List.mem_cons.mp hi with rfl | hi
      · have hapart : ∀ k ∈ l, imageAt k + 10 ≤ imageAt i
            ∨ imageAt i + 10 ≤ imageAt k := by
          intro k hk
          refine imageAt_apart ?_
          rintro rfl
          exact hj hk
        rw [load_storeImages_of_notMem hapart (imageAt_le i)]
        exact load_storeImage i _
      · exact ih hnd hi

theorem storeImages_outside {x : BitVec 64}
    (hx : areaSize ≤ Mem.offset a x) :
    storeImages mem a img l x = mem x := by
  induction l generalizing mem with
  | nil => rfl
  | cons i l ih =>
      rw [storeImages_cons, ih]
      exact storeImage_outside hx

end

-- ============================================== the renaming is injective

/-- The renaming is as it was, or reset. -/
def Renamed (c c' : X87Cache) : Prop := c'.perm = c.perm ∨ c'.perm = id

theorem Renamed.refl (c : X87Cache) : Renamed c c := .inl rfl

theorem Renamed.trans {c c' c'' : X87Cache} (h : Renamed c c')
    (h' : Renamed c' c'') : Renamed c c'' := by
  rcases h' with h' | h'
  · rcases h with h | h
    · exact .inl (h'.trans h)
    · exact .inr (h'.trans h)
  · exact .inr h'

theorem renamed_noteFmt (c : X87Cache) (d : Depth) (f : X87SlotFmt) :
    Renamed c (c.noteFmt d f) := by
  unfold X87Cache.noteFmt
  split
  · exact .inl rfl
  · exact .refl c

theorem renamed_noteRotate (c : X87Cache) (k : Depth) :
    Renamed c (c.noteRotate k) := by
  unfold X87Cache.noteRotate
  split
  · exact .inl rfl
  · exact .refl c

theorem renamed_noteReanchor (c : X87Cache) (f : X87SlotFmt) :
    Renamed c (c.noteReanchor f) := by
  unfold X87Cache.noteReanchor
  split
  · exact .inl rfl
  · exact .refl c

theorem renamed_notePopN (c : X87Cache) (n : Nat) :
    Renamed c (c.notePopN n) := by
  induction n generalizing c with
  | zero => exact .refl c
  | succ n ih =>
      exact ((renamed_noteFmt c _ _).trans (renamed_noteRotate _ _)).trans
        (ih c.notePop)

theorem renamed_flush (p : Pending) : (flush p).Keeps Renamed := by
  refine Emit.Keeps.when .refl fun c => ?_
  cases p <;> exact .inl rfl

theorem renamed_flushPerm : perm_flush_before_stack_change.Keeps Renamed :=
  Emit.Keeps.when .refl fun _ => .inr rfl

theorem renamed_all {l : List Emitter} (hl : ∀ e ∈ l, e.Keeps Renamed) :
    (Emit.all l).Keeps Renamed :=
  Emit.Keeps.all .refl .trans hl

theorem renamed_end (n : Nat) : (x87_end n).Keeps Renamed := by
  refine Emit.Keeps.when .refl (renamed_all ?_)
  intro e he
  simp only [List.mem_cons, List.not_mem_nil, or_false] at he
  rcases he with rfl | rfl | rfl | rfl
  · exact renamed_flushPerm
  · exact renamed_flush _
  · exact renamed_flush _
  · exact renamed_flush _

theorem renamed_push : x87_push.Keeps Renamed := by
  refine Emit.Keeps.seq .trans
    (Emit.Keeps.ite (renamed_all ?_) fun _ => .inl rfl) fun c => ?_
  · intro e he
    simp only [List.mem_cons, List.not_mem_nil, or_false] at he
    rcases he with rfl | rfl | rfl | rfl | rfl
    · exact renamed_flush _
    · exact renamed_flush _
    · exact renamed_flush _
    · exact renamed_flushPerm
    · exact fun _ => .inl rfl
  · exact (renamed_noteRotate c _).trans (renamed_noteFmt _ _ _)

theorem renamed_pop : x87_pop.Keeps Renamed := by
  refine Emit.Keeps.seq .trans (Emit.Keeps.ite
    (renamed_flushPerm.seq .trans fun c => ?_) fun _ => .inl rfl)
    fun c => (renamed_noteFmt c _ _).trans (renamed_noteRotate _ _)
  unfold popActive
  split
  · exact .inl rfl
  · split <;> exact .inl rfl

theorem renamed_popN (n : Nat) : (x87_pop_n n).Keeps Renamed := by
  refine renamed_all ?_
  intro e he
  simp only [List.mem_cons, List.not_mem_nil, or_false] at he
  rcases he with rfl | rfl | rfl | rfl
  · exact renamed_flush _
  · exact renamed_flush _
  · exact Emit.Keeps.ite
      (renamed_flushPerm.seq .trans fun _ => .inl rfl) fun _ => .inl rfl
  · exact fun c => renamed_notePopN c n

theorem renamed_begin : x87_begin.Keeps Renamed := by
  intro c
  unfold x87_begin
  split
  · exact .refl c
  · split
    · exact .inl rfl
    · exact .refl c

/-- A step keeps the renaming, resets it, or swaps two of its depths. -/
theorem injective_act (x : Act) {c : X87Cache}
    (h : Function.Injective c.perm) :
    Function.Injective (x.emit c).1.perm := by
  have hof : Renamed c (x.emit c).1 →
      Function.Injective (x.emit c).1.perm := by
    rintro (hr | hr)
    · rw [hr]
      exact h
    · rw [hr]
      exact Function.injective_id
  cases x with
  | begin => exact hof (renamed_begin c)
  | finish n => exact hof (renamed_end n c)
  | flush p g =>
      exact hof (Emit.Keeps.when .refl (renamed_flush p) c)
  | flushPerm => exact hof (renamed_flushPerm c)
  | push => exact hof (renamed_push c)
  | pop => exact hof (renamed_pop c)
  | popN n => exact hof (renamed_popN n c)
  | rotate k =>
      exact hof ((renamed_noteRotate c k).trans (.inl rfl))
  | exchange d => exact h.comp (Equiv.swap 0 d).injective
  | free d => exact hof (renamed_noteFmt c _ _)
  | store d r => exact hof (renamed_noteFmt c _ _)
  | noteNative d => exact hof (renamed_noteFmt c _ _)
  | noteSwap a b =>
      refine hof ?_
      show Renamed c (c.noteSwap a b)
      unfold X87Cache.noteSwap
      split
      · exact .inl rfl
      · exact .refl c
  | anchor x => exact hof (renamed_noteReanchor c _)
  | zeroTop => exact hof ((renamed_noteReanchor c _).trans (.inl rfl))
  | discard => exact Function.injective_id
  | _ => exact h

/-- Over the requests of a run. -/
theorem injective_calls (env : Env) (l : List Call)
    {st : X87Cache × Machine} (h : Function.Injective st.1.perm) :
    Function.Injective (runCalls env l st).1.perm := by
  have hscript : ∀ (s : Script) (st : X87Cache × Machine),
      Function.Injective st.1.perm →
      Function.Injective (s.run st).1.perm := by
    intro s
    induction s with
    | nil => exact fun _ h => h
    | cons x s ih => exact fun st h => ih _ (injective_act x h)
  induction l generalizing st with
  | nil => exact h
  | cons call l ih =>
      refine ih ?_
      unfold Call.run
      split
      · exact h
      · rename_i s _
        show Function.Injective (s.run st).1.tick.perm
        have hs := hscript s st h
        unfold X87Cache.tick
        split
        · split <;> exact hs
        · exact hs

-- ================================================================ saving

open Act Permute Deferred

/-- The image of a content: a value widened, an image as it is. -/
def saved (fp : Fp80) : SlotContent → BitVec 80
  | .f64 v => fp.toF80 v
  | .image w => w

/-- TOP's register is the status word's. -/
def Synced (e : Machine) : Prop := topOf e.guest.sw = e.wTop

theorem sync_of_synced {e : Machine} (h : Synced e) : e.sync = e := by
  unfold Machine.sync
  rw [h]

/-- What a step of a save leaves alone. -/
structure Untouched (e e' : Machine) : Prop where
  cw : e'.guest.cw = e.guest.cw
  sw : e'.guest.sw = e.guest.sw
  regs : e'.guest.regs = e.guest.regs
  tw : e'.tw = e.tw
  slot : e'.slot = e.slot
  wTop : e'.wTop = e.wTop
  area : e'.scratch.x 2 = e.scratch.x 2

theorem Untouched.trans {e e' e'' : Machine} (h : Untouched e e')
    (h' : Untouched e' e'') : Untouched e e'' where
  cw := h'.cw.trans h.cw
  sw := h'.sw.trans h.sw
  regs := h'.regs.trans h.regs
  tw := h'.tw.trans h.tw
  slot := h'.slot.trans h.slot
  wTop := h'.wTop.trans h.wTop
  area := h'.area.trans h.area

theorem Untouched.synced {e e' : Machine} (h : Untouched e e')
    (he : Synced e) : Synced e' := by
  unfold Synced at he ⊢
  rw [h.sw, h.wTop, he]

theorem Untouched.content {e e' : Machine} (h : Untouched e e')
    (c : X87Cache) (d : Depth) : content c e' d = content c e d := by
  unfold Permute.content Machine.phys
  rw [h.slot, h.wTop]

section
variable {env : Env} {c flushed : X87Cache} {e : Machine} {a : IRInstr}

theorem eagerRun_cons (x : Act) (s : Script) (st : X87Cache × Machine) :
    Script.eagerRun (x :: s) st = Script.eagerRun s (x.eagerRun st) := rfl

theorem eagerRun_compute (he : Synced e)
    (f : Guest → Scratch → Guest × Scratch) :
    (Act.compute f).eagerRun (c, e) = (c, e.compute f) :=
  congrArg (Prod.mk c) (sync_of_synced (e := e.compute f) he)

theorem synced_compute (he : Synced e)
    (f : Guest → Scratch → Guest × Scratch) : Synced (e.compute f) := he

theorem synced_setX (he : Synced e) (x : Nat) (v : BitVec 64) :
    Synced { e with scratch := e.scratch.setX x v } := he

theorem eagerRun_ldSw (he : Synced e) (x : Nat) :
    (Act.ldSw x).eagerRun (c, e)
      = (c, { e with
          scratch := e.scratch.setX x (e.guest.sw.setWidth 64) }) :=
  congrArg (Prod.mk c) (sync_of_synced (synced_setX he x _))

theorem eagerRun_ldTw (he : Synced e) (x : Nat) :
    (Act.ldTw x).eagerRun (c, e)
      = (c, { e with scratch := e.scratch.setX x (e.tw.setWidth 64) }) :=
  congrArg (Prod.mk c) (sync_of_synced (synced_setX he x _))

/-- A script from what its first step leaves. -/
theorem eagerRun_step {x : Act} {s : Script}
    {st st' r : X87Cache × Machine} (h : x.eagerRun st = st')
    (hs : Script.eagerRun s st' = r) :
    Script.eagerRun (x :: s) st = r := by
  rw [eagerRun_cons, h, hs]

/-- A script from what its first part leaves. -/
theorem eagerRun_then {s t : Script} {st st' r : X87Cache × Machine}
    (h : s.eagerRun st = st') (ht : t.eagerRun st' = r) :
    Script.eagerRun (s ++ t) st = r := by
  rw [eagerRun_append, h, ht]

/-- One slot goes to its place in the area. -/
theorem saveOne_eager (he : Synced e) (i : Depth) :
    ∃ e', (saveOne env flushed i).eagerRun (c, e) = (c, e')
      ∧ Untouched e e'
      ∧ e'.guest.mem = storeImage e.guest.mem (e.scratch.x 2) i
          (saved env.fp (content flushed e i)) := by
  have hat : e.scratch.x 2 + saveOffset i
      = e.scratch.x 2 + BitVec.ofNat 64 (imageAt i) := by
    rw [saveOffset_eq]
  have hat8 : e.scratch.x 2 + saveOffset i + 8
      = e.scratch.x 2 + BitVec.ofNat 64 (imageAt i + 8) := by
    rw [saveOffset_eq, add_assoc, BitVec.ofNat_add]
    rfl
  unfold saveOne
  by_cases h : flushed.holdsF80At i
  · rw [if_pos h]
    have hcontent : content flushed e i = .image (e.slot (e.phys i)) :=
      if_pos h
    have hrun : (Act.loadImage (.raw i) 0).eagerRun (c, e)
        = (c, { e with
          scratch := e.scratch.setQ 0 (e.slot (e.phys i)) }) :=
      congrArg (Prod.mk c) (sync_of_synced he)
    rw [hcontent, eagerRun_cons, hrun, eagerRun_cons, onGuest,
      eagerRun_compute]
    · refine ⟨_, rfl, ⟨rfl, rfl, rfl, rfl, rfl, rfl, rfl⟩, ?_⟩
      show ((e.guest.mem.store (e.scratch.x 2 + saveOffset i) 8 _).store
        (e.scratch.x 2 + saveOffset i + 8) 2 _) = _
      rw [hat8, hat]
      rfl
    · exact he
  · rw [if_neg h]
    have hcontent : content flushed e i
        = .f64 (slotF64 (e.slot (e.phys i))) := if_neg h
    have hrun : (Act.load (.raw i) 0 0).eagerRun (c, e)
        = (c, { e with
          scratch := (e.scratch.setKey 0 (e.phys i)).setD 0
            (slotF64 (e.slot (e.phys i))) }) :=
      congrArg (Prod.mk c) (sync_of_synced he)
    rw [hcontent, eagerRun_cons, hrun, eagerRun_cons, onGuest,
      eagerRun_compute]
    · refine ⟨_, rfl, ⟨rfl, rfl, rfl, rfl, rfl, rfl, rfl⟩, ?_⟩
      show ((e.guest.mem.store (e.scratch.x 2 + saveOffset i) 8 _).store
        (e.scratch.x 2 + saveOffset i + 8) 2 _) = _
      rw [hat8, hat]
      rfl
    · exact he

/-- The eight slots, or some of them. -/
theorem saveEach_eager (he : Synced e) (l : List Depth) :
    ∃ e', Script.eagerRun (l.flatMap (saveOne env flushed)) (c, e)
        = (c, e')
      ∧ Untouched e e'
      ∧ e'.guest.mem = storeImages e.guest.mem (e.scratch.x 2)
          (fun i => saved env.fp (content flushed e i)) l := by
  induction l generalizing e with
  | nil => exact ⟨e, rfl, ⟨rfl, rfl, rfl, rfl, rfl, rfl, rfl⟩, rfl⟩
  | cons i l ih =>
      obtain ⟨e₁, hrun, hsame, hmem⟩ :=
        @saveOne_eager env c flushed e he i
      obtain ⟨e₂, hrun₂, hsame₂, hmem₂⟩ := ih (hsame.synced he)
      refine ⟨e₂, ?_, hsame.trans hsame₂, ?_⟩
      · rw [List.flatMap_cons, eagerRun_append, hrun, hrun₂]
      · rw [hmem₂, hmem, hsame.area, storeImages_cons]
        simp only [hsame.content]

/-- The first steps of a save: everything owed written. -/
def settling : Script :=
  [.begin, .flush .top .always] ++ flushTags ++ [.flushPerm]

/-- Two caches that differ in no more than what is loaded and owed. -/
def SlotsAlike (c c' : X87Cache) : Prop :=
  c' = { c with
    gprsValid := c'.gprsValid, topDirty := c'.topDirty,
    deferredPopCount := c'.deferredPopCount,
    tagPushPending := c'.tagPushPending }

theorem SlotsAlike.trans {c c' c'' : X87Cache} (h : SlotsAlike c c')
    (h' : SlotsAlike c' c'') : SlotsAlike c c'' := by
  unfold SlotsAlike at h h' ⊢
  rw [h', h]

theorem alike_begin (c : X87Cache) : SlotsAlike c (x87_begin c).1 := by
  unfold x87_begin
  split
  · rfl
  · split <;> rfl

theorem alike_flush (p : Pending) (c : X87Cache) :
    SlotsAlike c (flush p c).1 := by
  unfold flush Emit.when
  split
  · cases p <;> rfl
  · rfl

/-- When everything owed is written, each depth has what the renaming
says. -/
theorem settling_eager (he : Synced e) (hinj : Function.Injective c.perm) :
    ∃ c' e', settling.eagerRun (c, e) = (c', e')
      ∧ c'.permDirty = false ∧ c'.nativeSlots = c.nativeSlots
      ∧ e'.guest = e.guest ∧ e'.tw = e.tw ∧ e'.wTop = e.wTop
      ∧ ∀ i, content (perm_flush_before_stack_change c).1 e' i
        = content c e (c.resolveDepth i) := by
  have hflush : ∀ (p : Pending) (c : X87Cache),
      (Act.flush p .always).eagerRun (c, e) = ((flush p c).1, e) :=
    fun p c => congrArg (Prod.mk _) (sync_of_synced he)
  have hbegin : Act.begin.eagerRun (c, e) = ((x87_begin c).1, e) :=
    congrArg (Prod.mk _) (sync_of_synced he)
  obtain ⟨c₃, hc₃, hrun⟩ : ∃ c₃, SlotsAlike c c₃
      ∧ settling.eagerRun (c, e) = Act.flushPerm.eagerRun (c₃, e) := by
    refine ⟨(flush .push (flush .pops (flush .top (x87_begin c).1).1).1).1,
      ?_, ?_⟩
    · exact (((alike_begin c).trans (alike_flush _ _)).trans
        (alike_flush _ _)).trans (alike_flush _ _)
    · show Script.eagerRun [.begin, .flush .top .always,
        .flush .pops .always, .flush .push .always, .flushPerm] _ = _
      rw [eagerRun_cons, hbegin, eagerRun_cons, hflush, eagerRun_cons,
        hflush, eagerRun_cons, hflush]
      rfl
  have hperm : c₃.permDirty = c.permDirty := by rw [hc₃]
  have hslots : c₃.nativeSlots = c.nativeSlots := by rw [hc₃]
  rw [hrun]
  cases hd : c.permDirty with
  | false =>
      rw [hd] at hperm
      have hnone : ∀ c : X87Cache, c.permDirty = false →
          perm_flush_before_stack_change c = (c, []) := by
        intro c hc
        exact if_neg fun h => Bool.false_ne_true (hc.symm.trans h)
      have hlast : Act.flushPerm.eagerRun (c₃, e) = (c₃, e) := by
        show ((perm_flush_before_stack_change c₃).1,
          (exec (perm_flush_before_stack_change c₃).2 e).sync) = _
        rw [hnone c₃ hperm]
        exact congrArg (Prod.mk _) (sync_of_synced he)
      refine ⟨c₃, e, hlast, hperm, hslots, rfl, rfl, rfl, fun i => ?_⟩
      rw [hnone c hd, X87Cache.resolveDepth, hd, if_neg Bool.false_ne_true]
  | true =>
      rw [hd] at hperm
      have hsome : ∀ c : X87Cache, c.permDirty = true →
          perm_flush_before_stack_change c = x87_emit_perm_flush c := by
        intro c hc
        exact if_pos hc
      have hcode : (x87_emit_perm_flush c₃).2 = (x87_emit_perm_flush c).2
          := by
        rw [hc₃]
        rfl
      obtain ⟨slot, hold, hm, -⟩ := flushed_machine c e hinj
      have hsync : (exec (x87_emit_perm_flush c).2 e).sync
          = (flushed (c, e)).2 := by
        refine sync_of_synced ?_
        show Synced (Permute.flushed (c, e)).2
        rw [hm]
        exact he
      refine ⟨(x87_emit_perm_flush c₃).1, (Permute.flushed (c, e)).2, ?_,
        rfl, hslots, ?_, ?_, ?_, fun i => ?_⟩
      · show ((perm_flush_before_stack_change c₃).1,
          (exec (perm_flush_before_stack_change c₃).2 e).sync) = _
        rw [hsome c₃ hperm, hcode, hsync]
      · rw [hm]
      · rw [hm]
      · rw [hm]
      · rw [hsome c hd, X87Cache.resolveDepth, hd, if_pos rfl]
        exact content_flushed c e hinj i

/-- The steps of a save that write the header. -/
def saveHeader (env : Env) (a : IRInstr) : Script :=
  [setX 2 fun g _ => env.ea (Env.addrIs64 a.op0) a.op0 g,
    onGuest fun g s => g.storeAt (s.x 2) 4 (g.cw.setWidth 32),
    .ldSw 0,
    onGuest fun g s => g.storeAt (s.x 2 + 4) 4 ((s.x 0).setWidth 32),
    .ldTw 0,
    onGuest fun g s =>
      (((g.storeAt (s.x 2 + 8) 4 ((s.x 0).setWidth 32)).storeAt
        (s.x 2 + 12) 4 0).storeAt (s.x 2 + 16) 8 0).storeAt
        (s.x 2 + 24) 4 0]

theorem saveHead_eq : saveHead env a = settling ++ saveHeader env a := rfl

/-- A step that changes no more than memory. -/
theorem stored_eager (he : Synced e) (f : Guest → Scratch → Guest)
    (hf : ∀ g s, (f g s).cw = g.cw ∧ (f g s).regs = g.regs) :
    ∃ e', (onGuest f).eagerRun (c, e) = (c, e') ∧ Untouched e e'
      ∧ e'.scratch = e.scratch
      ∧ e'.guest.mem = (f e.guest.hideSw e.scratch).mem := by
  obtain ⟨hcw, hregs⟩ := hf e.guest.hideSw e.scratch
  exact ⟨_, eagerRun_compute he _, ⟨hcw, rfl, hregs, rfl, rfl, rfl, rfl⟩,
    rfl, rfl⟩

theorem setX_self (s : Scratch) (r : Nat) (v : BitVec 64) :
    (s.setX r v).x r = v := by
  unfold Scratch.setX
  exact Function.update_self ..

theorem setD_self (s : Scratch) (r : Nat) (v : BitVec 64) :
    (s.setD r v).d r = v := by
  unfold Scratch.setD
  exact Function.update_self ..

theorem setQ_self (s : Scratch) (r : Nat) (v : BitVec 80) :
    (s.setQ r v).q r = v := by
  unfold Scratch.setQ
  exact Function.update_self ..

/-- A word loaded for the header. -/
theorem loaded_eager (he : Synced e) :
    (∃ e', (Act.ldSw 0).eagerRun (c, e) = (c, e') ∧ Untouched e e'
      ∧ e'.scratch.x 0 = e.guest.sw.setWidth 64
      ∧ e'.guest.mem = e.guest.mem)
    ∧ ∃ e', (Act.ldTw 0).eagerRun (c, e) = (c, e') ∧ Untouched e e'
      ∧ e'.scratch.x 0 = e.tw.setWidth 64
      ∧ e'.guest.mem = e.guest.mem :=
  ⟨⟨_, eagerRun_ldSw he 0, ⟨rfl, rfl, rfl, rfl, rfl, rfl, rfl⟩,
      setX_self .., rfl⟩,
    ⟨_, eagerRun_ldTw he 0, ⟨rfl, rfl, rfl, rfl, rfl, rfl, rfl⟩,
      setX_self .., rfl⟩⟩

/-- The header goes to the area, whose address stays in a register. -/
theorem header_eager (he : Synced e) {area : BitVec 64}
    (harea : env.ea (Env.addrIs64 a.op0) a.op0 e.guest.hideSw = area) :
    ∃ e', (saveHeader env a).eagerRun (c, e) = (c, e')
      ∧ Untouched { e with scratch := e.scratch.setX 2 area } e'
      ∧ e'.guest.mem
        = storeHeader e.guest.mem area e.guest.cw e.guest.sw e.tw := by
  have hrun₁ := eagerRun_compute (c := c) he fun g s =>
    (g, s.setX 2 (env.ea (Env.addrIs64 a.op0) a.op0 g))
  have he₁ : e.compute (fun g s =>
      (g, s.setX 2 (env.ea (Env.addrIs64 a.op0) a.op0 g)))
      = { e with scratch := e.scratch.setX 2 area } := by
    rw [← harea]
    rfl
  rw [he₁] at hrun₁
  have hat : (e.scratch.setX 2 area).x 2 = area := setX_self ..
  have hs₁ : Synced { e with scratch := e.scratch.setX 2 area } := he
  obtain ⟨e₂, hrun₂, hk₂, -, hm₂⟩ := stored_eager (c := c) hs₁
    (fun g s => g.storeAt (s.x 2) 4 (g.cw.setWidth 32))
    fun _ _ => ⟨rfl, rfl⟩
  obtain ⟨e₃, hrun₃, hk₃, hx₃, hm₃⟩ :=
    (loaded_eager (c := c) (hk₂.synced hs₁)).1
  have hk₃ := hk₂.trans hk₃
  obtain ⟨e₄, hrun₄, hk₄, -, hm₄⟩ := stored_eager (c := c)
    (hk₃.synced hs₁)
    (fun g s => g.storeAt (s.x 2 + 4) 4 ((s.x 0).setWidth 32))
    fun _ _ => ⟨rfl, rfl⟩
  have hk₄ := hk₃.trans hk₄
  obtain ⟨e₅, hrun₅, hk₅, hx₅, hm₅⟩ :=
    (loaded_eager (c := c) (hk₄.synced hs₁)).2
  have hk₅ := hk₄.trans hk₅
  obtain ⟨e₆, hrun₆, hk₆, -, hm₆⟩ := stored_eager (c := c)
    (hk₅.synced hs₁)
    (fun g s =>
      (((g.storeAt (s.x 2 + 8) 4 ((s.x 0).setWidth 32)).storeAt
        (s.x 2 + 12) 4 0).storeAt (s.x 2 + 16) 8 0).storeAt
        (s.x 2 + 24) 4 0)
    fun _ _ => ⟨rfl, rfl⟩
  refine ⟨e₆, eagerRun_step hrun₁ (eagerRun_step hrun₂
    (eagerRun_step hrun₃ (eagerRun_step hrun₄ (eagerRun_step hrun₅
      (eagerRun_step hrun₆ rfl))))), hk₅.trans hk₆, ?_⟩
  have hwide : ∀ v : BitVec 16,
      (v.setWidth 64).setWidth 32 = v.setWidth 32 := by
    intro v
    exact BitVec.setWidth_setWidth_of_le _ (by decide)
  have hzero : area + BitVec.ofNat 64 0 = area := add_zero area
  have hm₂ : e₂.guest.mem = e.guest.mem.store (area + BitVec.ofNat 64 0) 4
      (e.guest.cw.setWidth 32) := by
    rw [hm₂, hzero, ← hat]
    rfl
  have hm₄ : e₄.guest.mem = e₂.guest.mem.store (area + BitVec.ofNat 64 4)
      4 (e.guest.sw.setWidth 32) := by
    rw [hm₄, ← hm₃, ← hwide, ← hk₂.sw, ← hx₃, ← hat,
      ← hk₃.area]
    rfl
  have hm₆ : e₆.guest.mem = (((e₄.guest.mem.store
      (area + BitVec.ofNat 64 8) 4 (e.tw.setWidth 32)).store
      (area + BitVec.ofNat 64 12) 4 0).store
      (area + BitVec.ofNat 64 16) 8 0).store
      (area + BitVec.ofNat 64 24) 4 0 := by
    rw [hm₆, ← hm₅, ← hwide, ← hk₄.tw, ← hx₅, ← hat,
      ← hk₅.area]
    rfl
  rw [hm₆, hm₄, hm₂]
  rfl

/-- Ending a run with nothing renamed. -/
theorem finish_eager (he : Synced e) (hp : c.permDirty = false) (n : Nat) :
    ∃ c', (Act.finish n).eagerRun (c, e) = (c', e) ∧ SlotsAlike c c' := by
  have hnone : perm_flush_before_stack_change c = (c, []) :=
    if_neg fun h => Bool.false_ne_true (hp.symm.trans h)
  have hcode : (Act.finish n).eagerCode c = [] := by
    show (if c.runRemaining ≤ n then
      (perm_flush_before_stack_change c).2 else []) = []
    rw [hnone]
    exact ite_self _
  refine ⟨(x87_end n c).1, ?_, ?_⟩
  · show ((x87_end n c).1,
      (exec ((Act.finish n).eagerCode c) e).sync) = _
    rw [hcode]
    exact congrArg (Prod.mk _) (sync_of_synced he)
  · unfold x87_end Emit.when
    split
    · have hlast := ((alike_flush .pops c).trans
        (alike_flush .push _)).trans (alike_flush .top _)
      show SlotsAlike c (flush .top (flush .push (flush .pops
        (perm_flush_before_stack_change c).1).1).1).1
      rw [hnone]
      exact hlast
    · rfl

/-- What writing the status word or the tag word leaves alone. -/
structure Rest (e e' : Machine) : Prop where
  cw : e'.guest.cw = e.guest.cw
  regs : e'.guest.regs = e.guest.regs
  mem : e'.guest.mem = e.guest.mem
  slot : e'.slot = e.slot
  area : e'.scratch.x 2 = e.scratch.x 2

theorem setX_of_ne {r r' : Nat} (h : r' ≠ r) (s : Scratch)
    (v : BitVec 64) : (s.setX r v).x r' = s.x r' := by
  unfold Scratch.setX
  exact Function.update_of_ne h ..

/-- A status word computed and stored. -/
theorem putSw_eager (he : Synced e) (f : Guest → Scratch → BitVec 64) :
    ∃ e', Script.eagerRun [setX 0 f, .stSw 0] (c, e) = (c, e')
      ∧ Synced e' ∧ Rest e e'
      ∧ e'.guest.sw = (f e.guest.hideSw e.scratch).setWidth 16
      ∧ e'.tw = e.tw := by
  refine ⟨((e.compute fun g s => (g, s.setX 0 (f g s))).setSw
      (((e.scratch.setX 0 (f e.guest.hideSw e.scratch)).x 0).setWidth
        16)).sync,
    eagerRun_step (eagerRun_compute he _) rfl, rfl,
    ⟨rfl, rfl, rfl, rfl, setX_of_ne (by decide) ..⟩, ?_, rfl⟩
  exact congrArg (BitVec.setWidth 16) (setX_self ..)

/-- A tag word likewise. -/
theorem putTw_eager (he : Synced e) (f : Guest → Scratch → BitVec 64) :
    ∃ e', Script.eagerRun [setX 0 f, .stTw 0] (c, e) = (c, e')
      ∧ Synced e' ∧ Rest e e' ∧ e'.guest.sw = e.guest.sw
      ∧ e'.tw = (f e.guest.hideSw e.scratch).setWidth 16 := by
  refine ⟨{ e.compute fun g s => (g, s.setX 0 (f g s)) with
      tw := ((e.scratch.setX 0 (f e.guest.hideSw e.scratch)).x 0).setWidth
        16 },
    eagerRun_step (eagerRun_compute he _)
      (congrArg (Prod.mk c) (sync_of_synced ?_)), he,
    ⟨rfl, rfl, rfl, rfl, setX_of_ne (by decide) ..⟩, rfl, ?_⟩
  · exact he
  · exact congrArg (BitVec.setWidth 16) (setX_self ..)

/-- The end of a save: the state of `finit`. -/
def saveEnd : Script :=
  [onGuest fun g _ => g.setControlWord 0x037F] ++ (saveZero ++ saveTail)

theorem saveEnd_eager (he : Synced e) (hp : c.permDirty = false) :
    ∃ c' e', saveEnd.eagerRun (c, e) = (c', e') ∧ Synced e'
      ∧ c'.permDirty = false ∧ c'.nativeSlots = c.nativeSlots
      ∧ e'.guest.cw = 0x037F ∧ e'.guest.sw = 0 ∧ e'.tw = 0xFFFF
      ∧ e'.guest.regs = e.guest.regs ∧ e'.guest.mem = e.guest.mem := by
  have hrun₁ := eagerRun_compute (c := c) he fun g s =>
    (g.setControlWord 0x037F, s)
  have hs₁ : Synced (e.compute fun g s => (g.setControlWord 0x037F, s)) :=
    he
  obtain ⟨e₂, hrun₂, hs₂, hk₂, hsw, -⟩ :=
    putSw_eager (c := c) hs₁ fun _ _ => 0
  obtain ⟨e₃, hrun₃, hs₃, hk₃, hsw₃, htw⟩ :=
    putTw_eager (c := c) hs₂ fun _ _ => 0xFFFF
  have hrun₄ : Act.zeroTop.eagerRun (c, e₃)
      = ({ (c.noteReanchor .dead) with topDirty := false }, e₃) :=
    congrArg (Prod.mk _) (sync_of_synced hs₃)
  have hkeep : (c.noteReanchor .dead).permDirty = c.permDirty
      ∧ (c.noteReanchor .dead).nativeSlots = c.nativeSlots := by
    unfold X87Cache.noteReanchor
    split <;> exact ⟨rfl, rfl⟩
  obtain ⟨c', hrun₅, halike⟩ := finish_eager
    (c := { (c.noteReanchor .dead) with topDirty := false }) hs₃
    (hkeep.1.trans hp) 1
  have htail : Script.eagerRun saveTail (c, e₂) = (c', e₃) :=
    @eagerRun_then [setX 0 fun _ _ => 0xFFFF, .stTw 0]
      [.zeroTop, .finish 1] _ _ _ hrun₃
      (eagerRun_step hrun₄ (eagerRun_step hrun₅ rfl))
  have hrun : saveEnd.eagerRun (c, e) = (c', e₃) :=
    @eagerRun_then [onGuest fun g _ => g.setControlWord 0x037F] _ _ _ _
      (eagerRun_step hrun₁ rfl) (eagerRun_then hrun₂ htail)
  refine ⟨c', e₃, hrun, hs₃, ?_, ?_, ?_, ?_, htw, ?_, ?_⟩
  · rw [halike]
    exact hkeep.1.trans hp
  · rw [halike]
    exact hkeep.2
  · rw [hk₃.cw, hk₂.cw]
    rfl
  · exact hsw₃.trans hsw
  · rw [hk₃.regs, hk₂.regs]
    rfl
  · rw [hk₃.mem, hk₂.mem]
    rfl

theorem fsave_eq :
    translate_fsave env c a
      = settling ++ (saveHeader env a
        ++ (eachDepth (saveOne env (perm_flush_before_stack_change c).1)
        ++ saveEnd)) := by
  rw [fsave_parts]
  unfold saveBefore saveEnd
  rw [saveHead_eq]
  simp only [List.append_assoc]

/-- `fsave` as a whole: memory takes the three words and what each depth
holds, and the state is that of `finit`. -/
theorem fsave_eager (he : Synced e) (hinj : Function.Injective c.perm)
    {area : BitVec 64}
    (harea : env.ea (Env.addrIs64 a.op0) a.op0 e.guest.hideSw = area) :
    ∃ c' e', (translate_fsave env c a).eagerRun (c, e) = (c', e')
      ∧ Synced e' ∧ c'.permDirty = false
      ∧ c'.nativeSlots = c.nativeSlots
      ∧ e'.guest.cw = 0x037F ∧ e'.guest.sw = 0 ∧ e'.tw = 0xFFFF
      ∧ e'.guest.regs = e.guest.regs
      ∧ e'.guest.mem = storeImages
          (storeHeader e.guest.mem area e.guest.cw e.guest.sw e.tw) area
          (fun i => saved env.fp (content c e (c.resolveDepth i)))
          X87Cache.depths := by
  obtain ⟨c₁, e₁, hrun₁, hp₁, hn₁, hg₁, ht₁, hw₁, hc₁⟩ :=
    settling_eager he hinj
  have hs₁ : Synced e₁ := by
    unfold Synced at he ⊢
    rw [hg₁, hw₁, he]
  rw [← hg₁] at harea
  obtain ⟨e₂, hrun₂, hk₂, hm₂⟩ :=
    header_eager (c := c₁) hs₁ harea
  have hs₂ : Synced e₂ := hk₂.synced hs₁
  obtain ⟨e₃, hrun₃, hk₃, hm₃⟩ := @saveEach_eager env c₁
    (perm_flush_before_stack_change c).1 _ hs₂ X87Cache.depths
  obtain ⟨c₄, e₄, hrun₄, hs₄, hp₄, hn₄, hcw, hsw, htw, hr₄,
    hm₄⟩ := saveEnd_eager (hk₃.synced hs₂) hp₁
  refine ⟨c₄, e₄, ?_, hs₄, hp₄, hn₄.trans hn₁, hcw, hsw, htw, ?_,
    ?_⟩
  · rw [fsave_eq]
    exact eagerRun_then hrun₁ (eagerRun_then hrun₂
      (eagerRun_then hrun₃ hrun₄))
  · rw [hr₄, hk₃.regs, hk₂.regs, ← hg₁]
  · have hat : e₂.scratch.x 2 = area := hk₂.area.trans (setX_self ..)
    have hcontent : ∀ i,
        content (perm_flush_before_stack_change c).1 e₂ i
          = content c e (c.resolveDepth i) := by
      intro i
      rw [← hc₁ i]
      exact hk₂.content _ i
    rw [hm₄, hm₃, hm₂, hat, hg₁, ht₁]
    simp only [hcontent]

end

-- ============================================================= restoring

/-- What a depth holds once an image is restored to it. -/
def reloaded (native : Bool) (fp : Fp80) (w : BitVec 80) : SlotContent :=
  if native then .image w else .f64 (fp.ofF80 w)

/-- What a step of a restore leaves alone. -/
structure Held (e e' : Machine) : Prop where
  guest : e'.guest = e.guest
  tw : e'.tw = e.tw
  wTop : e'.wTop = e.wTop
  area : e'.scratch.x 2 = e.scratch.x 2

theorem Held.trans {e e' e'' : Machine} (h : Held e e')
    (h' : Held e' e'') : Held e e'' where
  guest := h'.guest.trans h.guest
  tw := h'.tw.trans h.tw
  wTop := h'.wTop.trans h.wTop
  area := h'.area.trans h.area

theorem Held.synced {e e' : Machine} (h : Held e e') (he : Synced e) :
    Synced e' := by
  unfold Synced at he ⊢
  rw [h.guest, h.wTop, he]

/-- One image goes to its slot. -/
def restoreOne (env : Env) (native : Bool) (i : Depth) : Script :=
  setQ 0 (fun g s => g.mem.load (s.x 2 + saveOffset i) 10) ::
    (if native then [.storeImage (.raw i) 0]
     else [setD 0 fun _ s => env.fp.ofF80 (s.q 0), .store (.raw i) 0])

section
variable {env : Env} {c : X87Cache} {e : Machine} {a : IRInstr}

/-- Every slot counts as an image, or none does. -/
def Uniform (c : X87Cache) : Prop :=
  ∀ d, c.holdsF80At d = c.nativeSlots

theorem content_uniform (hu : Uniform c) (e : Machine) (d : Depth) :
    content c e d = if c.nativeSlots then .image (e.slot (e.phys d))
      else .f64 (slotF64 (e.slot (e.phys d))) := by
  unfold content
  rw [hu d]

/-- A slot written where the others are not. -/
theorem content_setSlot (hu : Uniform c) (e : Machine) (i : Depth)
    (w : BitVec 80) :
    content c (e.setSlot (e.phys i) w) i
        = (if c.nativeSlots then .image w else .f64 (slotF64 w))
      ∧ ∀ j, j ≠ i →
        content c (e.setSlot (e.phys i) w) j = content c e j := by
  have hself : (e.setSlot (e.phys i) w).slot (e.phys i) = w := by
    unfold Machine.setSlot
    exact Function.update_self ..
  refine ⟨?_, fun j hj => ?_⟩
  · rw [content_uniform hu]
    show (if c.nativeSlots then
        SlotContent.image ((e.setSlot (e.phys i) w).slot (e.phys i))
      else .f64 (slotF64 ((e.setSlot (e.phys i) w).slot (e.phys i)))) = _
    rw [hself]
  · have hphys : e.phys j ≠ e.phys i := fun h => hj ((phys_inj e).mp h)
    have hne : (e.setSlot (e.phys i) w).slot (e.phys j)
        = e.slot (e.phys j) := by
      unfold Machine.setSlot
      exact @Function.update_of_ne _ (fun _ => BitVec 80) _ _ _ hphys w
        e.slot
    rw [content_uniform hu, content_uniform hu]
    show (if c.nativeSlots then
        SlotContent.image ((e.setSlot (e.phys i) w).slot (e.phys j))
      else .f64 (slotF64 ((e.setSlot (e.phys i) w).slot (e.phys j)))) = _
    rw [hne]

/-- A value stored where no slot is tracked. -/
theorem store_eager (he : Synced e) (hn : c.nativeSlots = false)
    (i : Depth) :
    (Act.store (.raw i) 0).eagerRun (c, e)
      = (c, e.setSlot (e.phys i)
          (slotWithF64 (e.slot (e.phys i)) (e.scratch.d 0))) := by
  have hnote : c.noteWrite i = c := by
    unfold X87Cache.noteWrite X87Cache.noteFmt
    rw [hn, if_neg Bool.false_ne_true]
  have hcache : ((Act.store (.raw i) 0).emit c).1 = c := hnote
  show (((Act.store (.raw i) 0).emit c).1, _) = _
  rw [hcache]
  exact congrArg (Prod.mk c) (sync_of_synced he)

theorem restoreOne_eager (he : Synced e) (hu : Uniform c) (i : Depth) :
    ∃ e', (restoreOne env c.nativeSlots i).eagerRun (c, e) = (c, e')
      ∧ Held e e'
      ∧ content c e' i = reloaded c.nativeSlots env.fp
          (e.guest.mem.load
            (e.scratch.x 2 + BitVec.ofNat 64 (imageAt i)) 10)
      ∧ ∀ j, j ≠ i → content c e' j = content c e j := by
  rw [← saveOffset_eq]
  generalize hw : e.guest.mem.load (e.scratch.x 2 + saveOffset i) 10 = w
  have hrun := eagerRun_compute (c := c) he fun g s =>
    (g, s.setQ 0 (g.mem.load (s.x 2 + saveOffset i) 10))
  have he₁ : e.compute (fun g s =>
      (g, s.setQ 0 (g.mem.load (s.x 2 + saveOffset i) 10)))
      = { e with scratch := e.scratch.setQ 0 w } := by
    rw [← hw]
    rfl
  rw [he₁] at hrun
  have hq : (e.scratch.setQ 0 w).q 0 = w := setQ_self ..
  unfold restoreOne reloaded
  cases hn : c.nativeSlots with
  | true =>
      have hset := content_setSlot hu
        { e with scratch := e.scratch.setQ 0 w } i w
      rw [hn, if_pos rfl] at hset
      have hstore : (Act.storeImage (.raw i) 0).eagerRun
          (c, { e with scratch := e.scratch.setQ 0 w })
          = (c, { e with scratch := e.scratch.setQ 0 w }.setSlot
              (e.phys i) w) := by
        refine congrArg (Prod.mk c) (Eq.trans (sync_of_synced ?_) ?_)
        · exact he
        · exact congrArg (Machine.setSlot
            { e with scratch := e.scratch.setQ 0 w } (e.phys i)) hq
      exact ⟨_, eagerRun_step hrun (eagerRun_step hstore rfl),
        ⟨rfl, rfl, rfl, rfl⟩, hset.1, hset.2⟩
  | false =>
      generalize hv : slotWithF64 (e.slot (e.phys i)) (env.fp.ofF80 w) = w'
      have hset := content_setSlot hu
        { e with
          scratch := (e.scratch.setQ 0 w).setD 0 (env.fp.ofF80 w) } i w'
      rw [hn, if_neg Bool.false_ne_true, ← hv, slotF64_slotWithF64, hv]
        at hset
      have hd : ((e.scratch.setQ 0 w).setD 0 (env.fp.ofF80 w)).d 0
          = env.fp.ofF80 w := setD_self ..
      have hvalue : (Act.setD 0 fun _ s => env.fp.ofF80 (s.q 0)).eagerRun
          (c, { e with scratch := e.scratch.setQ 0 w })
          = (c, { e with
              scratch := (e.scratch.setQ 0 w).setD 0 (env.fp.ofF80 w) })
          := by
        refine (eagerRun_compute (c := c) ?_ _).trans ?_
        · exact he
        · rw [← hq]
          rfl
      have hstore := store_eager (c := c) (e := { e with
        scratch := (e.scratch.setQ 0 w).setD 0 (env.fp.ofF80 w) }) he hn i
      rw [hd] at hstore
      have hstore := hstore.trans
        (congrArg (fun x => (c, Machine.setSlot _ _ x)) hv)
      exact ⟨_, eagerRun_step hrun (eagerRun_step hvalue
        (eagerRun_step hstore rfl)), ⟨rfl, rfl, rfl, rfl⟩, hset.1, hset.2⟩

/-- The eight images, or some of them. -/
theorem restoreEach_eager (he : Synced e) (hu : Uniform c)
    {l : List Depth} (hl : l.Nodup) :
    ∃ e', Script.eagerRun (l.flatMap (restoreOne env c.nativeSlots)) (c, e)
        = (c, e') ∧ Held e e'
      ∧ (∀ i ∈ l, content c e' i = reloaded c.nativeSlots env.fp
          (e.guest.mem.load
            (e.scratch.x 2 + BitVec.ofNat 64 (imageAt i)) 10))
      ∧ ∀ j, j ∉ l → content c e' j = content c e j := by
  induction l generalizing e with
  | nil =>
      refine ⟨e, rfl, ⟨rfl, rfl, rfl, rfl⟩, ?_, fun _ _ => rfl⟩
      intro i hi
      cases hi
  | cons i l ih =>
      obtain ⟨hi, hnd⟩ := List.nodup_cons.mp hl
      obtain ⟨e₁, hrun₁, hk₁, hat₁, hoff₁⟩ :=
        @restoreOne_eager env c e he hu i
      obtain ⟨e₂, hrun₂, hk₂, hat₂, hoff₂⟩ :=
        ih (hk₁.synced he) hnd
      rw [hk₁.guest, hk₁.area] at hat₂
      refine ⟨e₂, eagerRun_then hrun₁ hrun₂, hk₁.trans hk₂,
        ?_, ?_⟩
      · intro j hj
        rcases List.mem_cons.mp hj with rfl | hj
        · rw [hoff₂ j hi, hat₁]
        · exact hat₂ j hj
      · intro j hj
        rw [List.mem_cons, not_or] at hj
        rw [hoff₂ j hj.2, hoff₁ j hj.1]

/-- What an active run owes is forgotten. -/
theorem forget_eager (he : Synced e)
    (hp : c.active = true ∨ c.permDirty = false) :
    ∃ c', Script.eagerRun (onlyIf c.active [.begin, .discard]) (c, e)
        = (c', e)
      ∧ c'.permDirty = false ∧ c'.nativeSlots = c.nativeSlots := by
  unfold onlyIf
  cases hactive : c.active with
  | false =>
      have hp : c.permDirty = false := by
        rcases hp with h | h
        · exact absurd (hactive.symm.trans h) Bool.false_ne_true
        · exact h
      exact ⟨c, rfl, hp, rfl⟩
  | true =>
      have hbegin : Act.begin.eagerRun (c, e) = ((x87_begin c).1, e) :=
        congrArg (Prod.mk _) (sync_of_synced he)
      have hdiscard : Act.discard.eagerRun ((x87_begin c).1, e)
          = ((x87_begin c).1.discard, e) :=
        congrArg (Prod.mk _) (sync_of_synced he)
      refine ⟨_, eagerRun_step hbegin (eagerRun_step hdiscard rfl), rfl,
        ?_⟩
      show (x87_begin c).1.nativeSlots = _
      rw [alike_begin c]

/-- Where the images start every slot counts as one. -/
theorem uniform_anchored (c : X87Cache) :
    Uniform (c.noteReanchor .native) := by
  intro d
  unfold X87Cache.noteReanchor
  split
  · rename_i h
    show (c.nativeSlots && true) = c.nativeSlots
    rw [h]
    rfl
  · rename_i h
    unfold X87Cache.holdsF80At
    rw [Bool.not_eq_true] at h
    rw [h]
    rfl

/-- The words a restore takes from the header. -/
def restoreHeader (env : Env) (a : IRInstr) : Script :=
  [setX 2 fun g _ => env.ea (Env.addrIs64 a.op0) a.op0 g,
    onGuest fun g s => g.setControlWord (g.mem.load (s.x 2) 2)]
    ++ ([setX 0 fun g s => (g.mem.load (s.x 2 + 4) 2).setWidth 64, .stSw 0]
    ++ ([.anchor 0]
    ++ [setX 0 fun g s => (g.mem.load (s.x 2 + 8) 2).setWidth 64,
      .stTw 0]))

theorem frstor_eq :
    translate_frstor env c a
      = onlyIf c.active [.begin, .discard] ++ (restoreHeader env a
        ++ (eachDepth (restoreOne env c.nativeSlots)
        ++ onlyIf c.active [.finish 1])) := by
  unfold translate_frstor restoreHeader restoreOne
  simp only [List.append_assoc, List.cons_append, List.nil_append]

theorem restoreHeader_eager (he : Synced e) {area : BitVec 64}
    (harea : env.ea (Env.addrIs64 a.op0) a.op0 e.guest.hideSw = area) :
    ∃ e', (restoreHeader env a).eagerRun (c, e)
        = (c.noteReanchor .native, e') ∧ Synced e'
      ∧ e'.guest.cw = e.guest.mem.load (area + BitVec.ofNat 64 0) 2
      ∧ e'.guest.sw = e.guest.mem.load (area + BitVec.ofNat 64 4) 2
      ∧ e'.tw = e.guest.mem.load (area + BitVec.ofNat 64 8) 2
      ∧ e'.guest.regs = e.guest.regs ∧ e'.guest.mem = e.guest.mem
      ∧ e'.scratch.x 2 = area := by
  have hrun₁ := eagerRun_compute (c := c) he fun g s =>
    (g, s.setX 2 (env.ea (Env.addrIs64 a.op0) a.op0 g))
  have he₁ : e.compute (fun g s =>
      (g, s.setX 2 (env.ea (Env.addrIs64 a.op0) a.op0 g)))
      = { e with scratch := e.scratch.setX 2 area } := by
    rw [← harea]
    rfl
  rw [he₁] at hrun₁
  have hat : (e.scratch.setX 2 area).x 2 = area := setX_self ..
  have hs₁ : Synced { e with scratch := e.scratch.setX 2 area } := he
  have hrun₂ := eagerRun_compute (c := c) hs₁ fun g s =>
    (g.setControlWord (g.mem.load (s.x 2) 2), s)
  have hs₂ := synced_compute hs₁ fun g s =>
    (g.setControlWord (g.mem.load (s.x 2) 2), s)
  obtain ⟨e₃, hrun₃, hs₃, hk₃, hsw₃, -⟩ :=
    putSw_eager (c := c) hs₂
    fun g s => (g.mem.load (s.x 2 + 4) 2).setWidth 64
  have hrun₄ : Script.eagerRun [.anchor 0] (c, e₃)
      = (c.noteReanchor .native, e₃) :=
    congrArg (Prod.mk _) (sync_of_synced hs₃)
  obtain ⟨e₅, hrun₅, hs₅, hk₅, hsw₅, htw₅⟩ :=
    putTw_eager (c := c.noteReanchor .native) hs₃
      fun g s => (g.mem.load (s.x 2 + 8) 2).setWidth 64
  have hback : ∀ v : BitVec 16, (v.setWidth 64).setWidth 16 = v := by
    intro v
    rw [BitVec.setWidth_setWidth_of_le _ (by decide), BitVec.setWidth_eq]
  have hat₃ : e₃.scratch.x 2 = area := hk₃.area.trans hat
  refine ⟨e₅, eagerRun_then
    (eagerRun_step hrun₁ (eagerRun_step hrun₂ rfl))
    (eagerRun_then hrun₃ (eagerRun_then hrun₄ hrun₅)), hs₅, ?_, ?_, ?_,
    ?_, ?_, hk₅.area.trans hat₃⟩
  · have hcw : area + BitVec.ofNat 64 0 = area := add_zero area
    rw [hcw, hk₅.cw, hk₃.cw, ← hat]
    rfl
  · rw [hsw₅, hsw₃, hback, ← hat]
    rfl
  · rw [htw₅, hback, hat₃]
    show e₃.guest.mem.load _ 2 = _
    rw [hk₃.mem]
    rfl
  · rw [hk₅.regs, hk₃.regs]
    rfl
  · rw [hk₅.mem, hk₃.mem]
    rfl

/-- A run of one cache is a run of another that differs in what is
loaded and owed. -/
theorem SlotsAlike.content {c c' : X87Cache} (h : SlotsAlike c c')
    (e : Machine) (d : Depth) : content c' e d = content c e d := by
  rw [h]
  rfl

/-- `frstor` as a whole: the three words and at each depth the image that
lies there. -/
theorem frstor_eager (he : Synced e)
    (hp : c.active = true ∨ c.permDirty = false)
    {area : BitVec 64}
    (harea : env.ea (Env.addrIs64 a.op0) a.op0 e.guest.hideSw = area) :
    ∃ c' e', (translate_frstor env c a).eagerRun (c, e) = (c', e')
      ∧ c'.permDirty = false
      ∧ e'.guest.cw = e.guest.mem.load (area + BitVec.ofNat 64 0) 2
      ∧ e'.guest.sw = e.guest.mem.load (area + BitVec.ofNat 64 4) 2
      ∧ e'.tw = e.guest.mem.load (area + BitVec.ofNat 64 8) 2
      ∧ e'.guest.regs = e.guest.regs ∧ e'.guest.mem = e.guest.mem
      ∧ ∀ i, content c' e' i = reloaded c.nativeSlots env.fp
          (e.guest.mem.load (area + BitVec.ofNat 64 (imageAt i)) 10) := by
  obtain ⟨c₁, hrun₁, hp₁, hn₁⟩ := forget_eager he hp
  obtain ⟨e₂, hrun₂, hs₂, hcw, hsw, htw, hr, hm, hat⟩ :=
    restoreHeader_eager (c := c₁) he harea
  have hkeep : (c₁.noteReanchor .native).permDirty = c₁.permDirty
      ∧ (c₁.noteReanchor .native).nativeSlots = c₁.nativeSlots := by
    unfold X87Cache.noteReanchor
    split <;> exact ⟨rfl, rfl⟩
  obtain ⟨hp₂, hn₂⟩ := hkeep
  have hu := uniform_anchored c₁
  generalize c₁.noteReanchor .native = c₂ at hrun₂ hp₂ hn₂ hu
  obtain ⟨e₃, hrun₃, hk₃, hat₃, -⟩ :=
    @restoreEach_eager env c₂ e₂ hs₂ hu X87Cache.depths (by decide)
  rw [hn₂, hn₁] at hrun₃ hat₃
  have hlast : ∃ c',
      Script.eagerRun (onlyIf c.active [.finish 1]) (c₂, e₃)
      = (c', e₃) ∧ SlotsAlike c₂ c' := by
    unfold onlyIf
    cases c.active with
    | false => exact ⟨c₂, rfl, rfl⟩
    | true =>
        obtain ⟨c', hrun, halike⟩ :=
          finish_eager (hk₃.synced hs₂) (hp₂.trans hp₁) 1
        exact ⟨c', eagerRun_step hrun rfl, halike⟩
  obtain ⟨c', hrun₄, halike⟩ := hlast
  refine ⟨c', e₃, ?_, ?_, ?_, ?_, ?_, ?_, ?_, fun i => ?_⟩
  · rw [frstor_eq]
    exact eagerRun_then hrun₁ (eagerRun_then hrun₂
      (eagerRun_then hrun₃ hrun₄))
  · rw [halike]
    exact hp₂.trans hp₁
  · rw [hk₃.guest, hcw]
  · rw [hk₃.guest, hsw]
  · rw [hk₃.tw, htw]
  · rw [hk₃.guest, hr]
  · rw [hk₃.guest, hm]
  · rw [halike.content, hat₃ i (mem_depths i), hat, hm]

end

-- ============================================================== over runs

/-- Both machines go through the same caches, over the requests of a
run. -/
theorem cache_calls (env : Env) (l : List Call) (c : X87Cache)
    (m e : Machine) :
    (eagerCalls env l (c, e)).1 = (runCalls env l (c, m)).1 := by
  induction l generalizing c m e with
  | nil => rfl
  | cons call l ih =>
      have hcall : (call.eagerRun env (c, e)).1
          = (call.run env (c, m)).1 := by
        unfold Call.eagerRun Call.run
        cases call.script env c with
        | none => rfl
        | some s => exact congrArg X87Cache.tick (cache_run s c m e)
      show (eagerCalls env l (call.eagerRun env (c, e))).1
        = (runCalls env l (call.run env (c, m))).1
      rw [← Prod.mk.eta (p := call.eagerRun env (c, e)), hcall]
      exact ih _ _ _

/-- A run of requests and the machine it starts on. -/
structure Course where
  transport : Bool
  slots : Bool
  fmt : Depth → X87SlotFmt
  calls : List Call
  start : Machine

namespace Course

/-- The cache it starts with. -/
def fresh (r : Course) : X87Cache :=
  .freshRun r.transport r.slots r.fmt r.calls

/-- Cache and memory after `n` requests. -/
def point (r : Course) (env : Env) (n : Nat) : X87Cache × Machine :=
  runCalls env (r.calls.take n) (r.fresh, r.start)

/-- What memory and the updates still owed come to there. -/
def state (r : Course) (env : Env) (n : Nat) : Machine :=
  ((r.point env n).1.denote (r.point env n).2).sync

/-- What the guest has in `ST(i)` there. -/
def st (r : Course) (env : Env) (n : Nat) (i : Depth) : SlotContent :=
  content (r.point env n).1 (r.state env n)
    ((r.point env n).1.resolveDepth i)

/-- Its pushes and pops fit the stack, and an `fxam` comes with few pops
deferred. -/
structure Good (r : Course) (env : Env) : Prop where
  fits : callsFit env r.calls (r.fresh, r.start.sync) = true
  few : FewAtFxam r.transport r.slots r.fmt r.calls r.start

variable {r : Course} {env : Env} {n : Nat}

/-- The machine that puts nothing off is in the state denoted. -/
theorem eager_eq (h : r.Good env) (n : Nat) :
    eagerCalls env (r.calls.take n) (r.fresh, r.start.sync)
        = ((r.point env n).1, r.state env n)
      ∧ Synced (r.state env n) := by
  have htracks := (Tracks.fresh r.transport r.slots r.fmt r.calls
    r.start).calls r.calls h.fits (h.few env)
    (fun hu => Helpers.freshRun_topUnused hu) n
  have hstate := htracks.denoted.state
  have hsync := htracks.owed.sync
  generalize he : eagerCalls env (r.calls.take n) (r.fresh, r.start.sync)
    = st
  have hcache : st.1 = (r.point env n).1 := by
    rw [← he]
    exact cache_calls env _ _ _ _
  change { (r.point env n).1.denote (r.point env n).2 with
    wTop := (eagerCalls env (r.calls.take n)
      (r.fresh, r.start.sync)).2.wTop }
    = (eagerCalls env (r.calls.take n) (r.fresh, r.start.sync)).2 at hstate
  change (eagerCalls env (r.calls.take n) (r.fresh, r.start.sync)).2.wTop
    = topOf (eagerCalls env (r.calls.take n)
      (r.fresh, r.start.sync)).2.guest.sw at hsync
  rw [he] at hstate hsync
  have hsame : r.state env n = st.2 := by
    rw [← hstate, hsync, ← hstate]
    rfl
  refine ⟨Prod.ext hcache hsame.symm, ?_⟩
  rw [hsame]
  exact hsync.symm

/-- A tick leaves the slots and the renaming as they are. -/
theorem content_tick (c : X87Cache) (e : Machine) (i : Depth) :
    content c.tick e (c.tick.resolveDepth i)
      = content c e (c.resolveDepth i) := by
  unfold X87Cache.tick
  split
  · split <;> rfl
  · rfl

/-- One request further. -/
theorem step_eager (h : r.Good env) {call : Call}
    (hcall : r.calls[n]? = some call) {s : Script}
    (hs : call.script env (r.point env n).1 = some s) {c' : X87Cache}
    {e' : Machine}
    (hrun : s.eagerRun ((r.point env n).1, r.state env n) = (c', e')) :
    (r.point env (n + 1)).1 = c'.tick ∧ r.state env (n + 1) = e' := by
  have hnext : eagerCalls env (r.calls.take (n + 1))
      (r.fresh, r.start.sync) = (c'.tick, e') := by
    rw [List.take_add_one, hcall]
    show List.foldl _ _ (_ ++ [call]) = _
    rw [List.foldl_append]
    show Call.eagerRun env (eagerCalls env (r.calls.take n)
      (r.fresh, r.start.sync)) call = _
    rw [(eager_eq h n).1]
    unfold Call.eagerRun
    rw [hs]
    show ((s.eagerRun _).1.tick, (s.eagerRun _).2) = _
    rw [hrun]
  rw [(eager_eq h (n + 1)).1] at hnext
  exact Prod.mk.inj hnext

theorem injective_point (r : Course) (env : Env) (n : Nat) :
    Function.Injective (r.point env n).1.perm := by
  refine injective_calls env _ ?_
  show Function.Injective (X87Cache.freshRun ..).perm
  unfold X87Cache.freshRun X87Cache.setRun
  split <;> exact Function.injective_id

/-- The address of the save area an instruction names. -/
def areaOf (r : Course) (env : Env) (n : Nat) (a : IRInstr) : BitVec 64 :=
  env.ea (Env.addrIs64 a.op0) a.op0 (r.state env n).guest.hideSw

/-- `fsave` at any point of a run. -/
theorem save_point (h : r.Good env) {a : IRInstr}
    (ha : a.opcode = .fsave) (hcall : r.calls[n]? = some ⟨a, false⟩) :
    (r.state env (n + 1)).guest.cw = 0x037F
      ∧ (r.state env (n + 1)).guest.sw = 0
      ∧ (r.state env (n + 1)).tw = 0xFFFF
      ∧ (r.state env (n + 1)).guest.regs = (r.state env n).guest.regs
      ∧ (r.state env (n + 1)).guest.mem = storeImages
          (storeHeader (r.state env n).guest.mem (r.areaOf env n a)
            (r.state env n).guest.cw (r.state env n).guest.sw
            (r.state env n).tw)
          (r.areaOf env n a) (fun i => saved env.fp (r.st env n i))
          X87Cache.depths := by
  have hs : Call.script env (r.point env n).1 ⟨a, false⟩
      = some (translate_fsave env (r.point env n).1 a) := by
    show single env _ a = _
    unfold single
    rw [ha]
  obtain ⟨c', e', hrun, -, -, -, hcw, hsw, htw, hr, hm⟩ :=
    @fsave_eager env _ _ a (eager_eq h n).2 (injective_point r env n)
      (r.areaOf env n a) rfl
  obtain ⟨-, he⟩ := step_eager h hcall hs hrun
  rw [he]
  exact ⟨hcw, hsw, htw, hr, hm⟩

/-- `frstor` at any point where nothing is renamed, or of an active
run. -/
theorem restore_point (h : r.Good env) {a : IRInstr}
    (ha : a.opcode = .frstor) (hcall : r.calls[n]? = some ⟨a, false⟩)
    (hp : (r.point env n).1.active = true
      ∨ (r.point env n).1.permDirty = false) :
    (r.state env (n + 1)).guest.cw
        = (r.state env n).guest.mem.load
          (r.areaOf env n a + BitVec.ofNat 64 0) 2
      ∧ (r.state env (n + 1)).guest.sw
        = (r.state env n).guest.mem.load
          (r.areaOf env n a + BitVec.ofNat 64 4) 2
      ∧ (r.state env (n + 1)).tw
        = (r.state env n).guest.mem.load
          (r.areaOf env n a + BitVec.ofNat 64 8) 2
      ∧ (r.state env (n + 1)).guest.regs = (r.state env n).guest.regs
      ∧ (r.state env (n + 1)).guest.mem = (r.state env n).guest.mem
      ∧ ∀ i, r.st env (n + 1) i
        = reloaded (r.point env n).1.nativeSlots env.fp
          ((r.state env n).guest.mem.load
            (r.areaOf env n a + BitVec.ofNat 64 (imageAt i)) 10) := by
  have hs : Call.script env (r.point env n).1 ⟨a, false⟩
      = some (translate_frstor env (r.point env n).1 a) := by
    show single env _ a = _
    unfold single
    rw [ha]
  obtain ⟨c', e', hrun, hp', hcw, hsw, htw, hr, hm, hc⟩ :=
    @frstor_eager env _ _ a (eager_eq h n).2 hp (r.areaOf env n a) rfl
  obtain ⟨hc', he⟩ := step_eager h hcall hs hrun
  refine ⟨?_, ?_, ?_, ?_, ?_, fun i => ?_⟩
  · rw [he, hcw]
  · rw [he, hsw]
  · rw [he, htw]
  · rw [he, hr]
  · rw [he, hm]
  · unfold Course.st
    rw [hc', he, content_tick, X87Cache.resolveDepth, hp',
      if_neg Bool.false_ne_true, hc i]

/-- What a restore finds where a save wrote. -/
theorem load_saved (mem : Mem 64) (area : BitVec 64) (cw sw tw : BitVec 16)
    (img : Depth → BitVec 80) (hdr : Mem 64)
    (hhdr : hdr = storeHeader mem area cw sw tw) :
    (storeImages hdr area img X87Cache.depths).load
        (area + BitVec.ofNat 64 0) 2 = cw
      ∧ (storeImages hdr area img X87Cache.depths).load
        (area + BitVec.ofNat 64 4) 2 = sw
      ∧ (storeImages hdr area img X87Cache.depths).load
        (area + BitVec.ofNat 64 8) 2 = tw
      ∧ ∀ i, (storeImages hdr area img X87Cache.depths).load
        (area + BitVec.ofNat 64 (imageAt i)) 10 = img i := by
  have hsize : areaSize = 108 := rfl
  have hhead : ∀ {j : Nat}, j + 2 ≤ 28 →
      (storeImages hdr area img X87Cache.depths).load
        (area + BitVec.ofNat 64 j) 2
      = hdr.load (area + BitVec.ofNat 64 j) 2 := by
    intro j hj
    refine load_storeImages_of_notMem (fun i _ => .inr ?_) (by omega)
    unfold imageAt
    omega
  obtain ⟨hcw, hsw, htw⟩ := @load_storeHeader mem area cw sw tw
  rw [← hhdr] at hcw hsw htw
  refine ⟨?_, ?_, ?_, fun i => ?_⟩
  · rw [hhead (by decide), hcw]
  · rw [hhead (by decide), hsw]
  · rw [hhead (by decide), htw]
  · exact load_storeImages (by decide) (mem_depths i)

/-- The conversions of the code: a pattern widened, an image narrowed. -/
structure Converts (fp : Fp80) : Prop where
  toF80 : ∀ v, fp.toF80 v
    = (Double.toExtended v).mant.setWidth 80
      ||| (Double.toExtended v).se.setWidth 80 <<< 64
  ofF80 : ∀ w, fp.ofF80 w
    = (⟨w.setWidth 64, (w >>> 64).setWidth 16⟩ : Extended).toDouble false

/-- A value that went to memory and back. -/
theorem reloaded_saved {fp : Fp80} (h : Converts fp) (v : BitVec 64) :
    reloaded false fp (saved fp (.f64 v)) = .f64 (Double.quieted v) := by
  have himage : ∀ x : Extended,
      (⟨(x.mant.setWidth 80 ||| x.se.setWidth 80 <<< 64).setWidth 64,
        ((x.mant.setWidth 80 ||| x.se.setWidth 80 <<< 64)
          >>> 64).setWidth 16⟩ : Extended) = x := by
    rintro ⟨mant, se⟩
    refine congrArg₂ Extended.mk ?_ ?_
    · ext i hi
      simp
    · ext i hi
      have h₁ : 64 + i < 80 := by omega
      have h₂ : i < 80 := by omega
      simp [h₁, h₂, BitVec.getLsbD_eq_getElem hi]
  show SlotContent.f64 (fp.ofF80 (fp.toF80 v)) = _
  rw [h.ofF80, h.toF80, himage, toDouble_toExtended]

/-- A save at any point of a run, and a restore at any point of a run,
that one or another, where nothing has written to the area between: the
three words come back and each depth has what the save found in it,
widened to an image and back. -/
theorem restores_saved {r' : Course} {n' : Nat} {a a' : IRInstr}
    (h : r.Good env) (h' : r'.Good env)
    (ha : a.opcode = .fsave) (ha' : a'.opcode = .frstor)
    (hcall : r.calls[n]? = some ⟨a, false⟩)
    (hcall' : r'.calls[n']? = some ⟨a', false⟩)
    (hp : (r'.point env n').1.active = true
      ∨ (r'.point env n').1.permDirty = false)
    (harea : r'.areaOf env n' a' = r.areaOf env n a)
    (hkept : ∀ x, Mem.offset (r.areaOf env n a) x < areaSize →
      (r'.state env n').guest.mem x
        = (r.state env (n + 1)).guest.mem x) :
    (r'.state env (n' + 1)).guest.cw = (r.state env n).guest.cw
      ∧ (r'.state env (n' + 1)).guest.sw = (r.state env n).guest.sw
      ∧ (r'.state env (n' + 1)).tw = (r.state env n).tw
      ∧ (∀ i, r'.st env (n' + 1) i
        = reloaded (r'.point env n').1.nativeSlots env.fp
          (saved env.fp (r.st env n i)))
      ∧ (Converts env.fp → (r'.point env n').1.nativeSlots = false →
        ∀ i v, r.st env n i = .f64 v →
          r'.st env (n' + 1) i = .f64 (Double.quieted v))
      ∧ ∀ x, areaSize ≤ Mem.offset (r.areaOf env n a) x →
        (r.state env (n + 1)).guest.mem x
          = (r.state env n).guest.mem x := by
  obtain ⟨-, -, -, -, hm⟩ := save_point h ha hcall
  obtain ⟨hcw, hsw, htw, -, -, hst⟩ := restore_point h' ha' hcall' hp
  have hout : ∀ x, areaSize ≤ Mem.offset (r.areaOf env n a) x →
      (r.state env (n + 1)).guest.mem x
        = (r.state env n).guest.mem x := by
    intro x hx
    rw [hm, storeImages_outside hx, storeHeader_outside hx]
  rw [hm] at hkept
  have hsize : areaSize = 108 := rfl
  obtain ⟨hcw', hsw', htw', himg⟩ := load_saved
    (r.state env n).guest.mem (r.areaOf env n a)
    (r.state env n).guest.cw (r.state env n).guest.sw (r.state env n).tw
    (fun i => saved env.fp (r.st env n i)) _ rfl
  have hback : ∀ i, r'.st env (n' + 1) i
      = reloaded (r'.point env n').1.nativeSlots env.fp
        (saved env.fp (r.st env n i)) := by
    intro i
    rw [hst i, harea, load_agree hkept (imageAt_le i), himg i]
  refine ⟨?_, ?_, ?_, hback, ?_, hout⟩
  · rw [hcw, harea, load_agree hkept (by omega), hcw']
  · rw [hsw, harea, load_agree hkept (by omega), hsw']
  · rw [htw, harea, load_agree hkept (by omega), htw']
  · intro hfp hn i v hv
    rw [hback i, hv, hn]
    exact reloaded_saved hfp v

/-- The area at an absolute address. -/
def saveArea : IROperand :=
  { kind := .absMem, size := .s64, reg := 3, value := 64 }

/-- A constant loaded and renamed, saved and restored. -/
def constantRun : Course where
  transport := false
  slots := false
  fmt _ := .f64
  calls :=
    [⟨{ opcode := .fld1 }, false⟩,
      ⟨{ opcode := .fxch, numOperands := 2, op0 := .st 0,
         op1 := .st 2 }, false⟩,
      ⟨{ opcode := .fsave, numOperands := 1,
         op0 := saveArea }, false⟩,
      ⟨{ opcode := .frstor, numOperands := 1,
         op0 := saveArea }, false⟩]
  start := .blank 0xFFFF

/-- The three words of that run. -/
theorem restores_saved_constantRun :
    (constantRun.state .blank 4).guest.sw
      = (constantRun.state .blank 2).guest.sw := by
  have h : constantRun.Good .blank := by
    refine ⟨by decide, ?_⟩
    intro env i call hi hop
    rcases i with _ | _ | _ | _ | i
    · cases hi
      exact Opcode.noConfusion hop
    · cases hi
      exact Opcode.noConfusion hop
    · cases hi
      exact Opcode.noConfusion hop
    · cases hi
      exact Opcode.noConfusion hop
    · exact absurd hi (by simp [constantRun])
  have harea : constantRun.areaOf .blank 3
      { opcode := .frstor, numOperands := 1, op0 := saveArea }
      = constantRun.areaOf .blank 2
        { opcode := .fsave, numOperands := 1, op0 := saveArea } := rfl
  exact (@restores_saved constantRun .blank 2 constantRun 3 _ _ h h
    rfl rfl rfl rfl (.inl rfl) harea (fun _ _ => rfl)).2.1

end Course

end X87Sidecar.SaveRestore
