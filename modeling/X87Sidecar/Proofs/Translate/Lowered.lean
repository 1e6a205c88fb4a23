/-
A unit's instructions do what the unit says, and a stretch's what its units
say one after the other.

The relation is `Holds`: the state in memory is the machine's, and a value
is where the places say. One lemma for each group of units keeps it; the
stretch is an induction over its pieces. The helpers that push and pop are
stretches of such units (`push_lowersTo` and those after it).
-/
import X87Sidecar.Proofs.Translate.HelperSpecs

namespace X87Sidecar.Helpers

open Lib Lib.Cpu Lines

variable {ρ : Regs} {t : Temps} {G : Guest → Cpu → Prop} {P P' : Places}
  {m m' : Machine} {c c' : Cpu} {code : Code} {ws ds : List Nat}

/-- What is said about the guest says nothing of the x87 state or of the
translator's registers. -/
def Apart (ρ : Regs) (G : Guest → Cpu → Prop) : Prop :=
  ∀ g c c', Aside ρ c c' → G g c → G g c'

-- =============================================================== registers

/-- The scratch registers of a unit. -/
def Temps.gprs (t : Temps) : List Nat := [t.tmp, t.tmp2, t.tagw]

/-- A unit's own registers are none of those that stay. -/
theorem Temps.Apart.not_reserved (ht : t.Apart ρ) {r : Nat}
    (hr : r ∈ t.gprs) : r ∉ ρ.reserved :=
  fun hres => List.disjoint_of_nodup_append ht.gprs hres hr

/-- Those that stay are different ones. -/
theorem Temps.Apart.reserved_nodup (ht : t.Apart ρ) : ρ.reserved.Nodup :=
  (List.nodup_append.mp ht.gprs).1

/-- So are its own. -/
theorem Temps.Apart.tmps (ht : t.Apart ρ) : t.gprs.Nodup :=
  (List.nodup_append.mp ht.gprs).2.1

/-- They are taken from the pool. -/
theorem Temps.Apart.in_pool (ht : t.Apart ρ) : t.gprs ⊆ ρ.pool :=
  fun _ hr => ht.pool (List.mem_cons_of_mem _ hr)

/-- The registers that stay are not TOP's, and none is the zero
register. -/
theorem Regs.apart (h : ρ.reserved.Nodup) :
    ρ.base ≠ 31 ∧ ρ.top ≠ 31 ∧ ρ.top ∉ ρ.fixed ∧ ∀ s ∈ ρ.st, s ≠ 31 := by
  unfold Regs.reserved at h
  simp only [List.cons_append, List.nil_append, List.nodup_cons,
    List.mem_cons, not_or, Option.mem_toList] at h
  obtain ⟨⟨-, hb, ht, hs⟩, ⟨hb18, ht18, -⟩, ⟨hbt, -⟩, hts, -⟩ := h
  refine ⟨fun e => hb e.symm, fun e => ht e.symm, ?_, fun s hs' e => ?_⟩
  · simp only [Regs.fixed, List.mem_append, List.mem_cons,
      Option.mem_toList, List.not_mem_nil, or_false, not_or]
    exact ⟨⟨fun e => ht18 e.symm, fun e => hbt e.symm⟩, hts⟩
  · exact hs (e ▸ hs')

theorem Regs.base_mem_reserved : ρ.base ∈ ρ.reserved := by
  simp [Regs.reserved]

theorem Regs.top_mem_reserved : ρ.top ∈ ρ.reserved := by
  simp [Regs.reserved]

theorem Regs.zero_mem_reserved : 31 ∈ ρ.reserved := by
  simp [Regs.reserved]

/-- A register of the unit is not one of those that stay. -/
theorem Temps.Apart.ne (ht : t.Apart ρ) {r : Nat} (hr : r ∈ t.gprs) :
    r ≠ 31 ∧ r ≠ ρ.base ∧ r ≠ ρ.top := by
  have h := ht.not_reserved hr
  refine ⟨?_, ?_, ?_⟩
  · rintro rfl
    exact h Regs.zero_mem_reserved
  · rintro rfl
    exact h Regs.base_mem_reserved
  · rintro rfl
    exact h Regs.top_mem_reserved

/-- The scratch register is none of those that stay. -/
theorem Temps.Apart.tmp_free (ht : t.Apart ρ) :
    ∀ r ∈ ρ.reserved, r ∉ [t.tmp] := by
  intro r hr hm
  rw [List.mem_singleton] at hm
  exact ht.not_reserved (r := r) (by simp [Temps.gprs, hm]) hr

/-- It is from the pool. -/
theorem Temps.Apart.tmp_pool (ht : t.Apart ρ) : t.tmp ∈ ρ.pool :=
  ht.in_pool (by simp [Temps.gprs])

/-- The registers of a unit, one by one. -/
structure Temps.Each (ρ : Regs) (t : Temps) : Prop where
  tmp : t.tmp ≠ 31 ∧ t.tmp ≠ ρ.base ∧ t.tmp ≠ ρ.top
  tmp2 : t.tmp2 ≠ 31 ∧ t.tmp2 ≠ ρ.base ∧ t.tmp2 ≠ ρ.top
  tagw : t.tagw ≠ 31 ∧ t.tagw ≠ ρ.base ∧ t.tagw ≠ ρ.top
  tmp_tmp2 : t.tmp ≠ t.tmp2
  tmp_tagw : t.tmp ≠ t.tagw
  tmp2_tagw : t.tmp2 ≠ t.tagw
  base : ρ.base ≠ 31
  top : ρ.top ≠ 31

/-- What a choice of registers says of them one by one. -/
theorem Temps.Apart.each (ht : t.Apart ρ) : t.Each ρ := by
  have hnd := ht.tmps
  unfold Temps.gprs at hnd
  simp only [List.nodup_cons, List.mem_cons, List.not_mem_nil, or_false,
    not_or] at hnd
  obtain ⟨hb, ht31, -, -⟩ := Regs.apart ht.reserved_nodup
  exact
    { tmp := ht.ne (by simp [Temps.gprs])
      tmp2 := ht.ne (by simp [Temps.gprs])
      tagw := ht.ne (by simp [Temps.gprs])
      tmp_tmp2 := hnd.1.1
      tmp_tagw := hnd.1.2
      tmp2_tagw := hnd.2.1
      base := hb
      top := ht31 }

-- ============================================================= the rules

/-- A unit that writes its own registers, and the state perhaps. -/
theorem Holds.temps (h : Holds ρ G P m c) (ht : t.Apart ρ)
    (hG : Apart ρ G) (hw : Wrote ws ds c c') (hws : ws ⊆ t.gprs)
    (hds : ds ⊆ ρ.fpool) (hwithin : Within (c.reg ρ.base) c.mem c'.mem)
    (hstate : State ρ.native c'.mem (c.reg ρ.base) m')
    (hs : m'.scratch = m.scratch) (hh : m'.hold = m.hold)
    (hg : m'.guest.hideSw = m.guest.hideSw) (htop : m'.wTop = m.wTop) :
    Holds ρ G (P.wrote ws ds) m' c' :=
  h.wrote hw hG (fun _ hr hm => ht.not_reserved (hws hm) hr)
    (fun _ hr => ht.in_pool (hws hr)) hds hwithin hstate hs hh hg htop

/-- TOP's register written. -/
theorem Holds.setTop (h : Holds ρ G P m c) (ht : t.Apart ρ)
    (hG : Apart ρ G) (hw : Wrote [ρ.top] [] c c') (hmem : c'.mem = c.mem)
    {p : BitVec 3} (hreg : c'.reg ρ.top = slotWord p) :
    Holds ρ G { P.wrote [ρ.top] [] with top := true } { m with wTop := p }
      c' := by
  obtain ⟨-, -, hfixed, -⟩ := Regs.apart ht.reserved_nodup
  have hstate : State ρ.native c'.mem (c.reg ρ.base)
      { m with wTop := p } := by
    rw [hmem]
    exact h.state.of_parts rfl rfl rfl
  refine h.wroteTop hw hG (fun r hr hm => ?_) (fun r hr => ?_)
    (List.nil_subset _) ?_ hstate rfl rfl rfl fun _ => hreg
  · rw [List.mem_singleton] at hm
    exact hfixed (hm ▸ hr)
  · rw [List.mem_singleton] at hr
    exact ht.pool (hr ▸ List.mem_cons_self)
  · rw [hmem]
    exact .refl _ _

section
variable {r : Nat} {i : Nat}

/-- An integer's name moves to a register. -/
theorem Holds.putX (h : Holds ρ G P m c) {v : BitVec 64}
    (hv : c.reg r = v) :
    Holds ρ G (P.loadX i r) { m with scratch := m.scratch.setX i v } c :=
  { h with
    state := h.state.of_parts rfl rfl rfl
    x := h.x.put hv
    cc := fun x hx => by
      show (Function.update m.scratch.x i v x).setWidth 16 &&& _ = 0
      by_cases hxi : x = i
      · have : Function.update P.cc i false x = true := hx
        rw [hxi, Function.update_self] at this
        cases this
      · rw [Function.update_of_ne hxi]
        refine h.cc x ?_
        have : Function.update P.cc i false x = true := hx
        rwa [Function.update_of_ne hxi] at this }

/-- A double that a register has is at its place. -/
theorem Holds.putD (h : Holds ρ G P m c) {v : BitVec 64}
    (hv : c.d r = v) :
    Holds ρ G { P with d := P.d.put i r }
      { m with scratch := m.scratch.setD i v } c :=
  { h with
    state := h.state.of_parts rfl rfl rfl
    d := h.d.put hv }

/-- The key of a slot that a register has is. -/
theorem Holds.putKey (h : Holds ρ G P m c) {p : BitVec 3}
    (hp : c.reg r = keyWord ρ.native ρ.st.isSome p) :
    Holds ρ G { P with key := P.key.put i r }
      { m with scratch := m.scratch.setKey i p } c :=
  { h with
    state := h.state.of_parts rfl rfl rfl
    key := h.key.put_map (keyWord ρ.native ρ.st.isSome) hp }

/-- The image that a pair of registers has is. -/
theorem Holds.putQ (h : Holds ρ G P m c) {holder : Holder} {w : BitVec 80}
    (hw : holder.read c = imageParts w) :
    Holds ρ G { P with q := P.q.put i holder }
      { m with scratch := m.scratch.setQ i w } c :=
  { h with
    state := h.state.of_parts rfl rfl rfl
    q := h.q.put_map imageParts hw }

end

/-- What the accesses of slots need is there. -/
theorem Holds.ready (h : Holds ρ G P m c) (ht : t.Apart ρ)
    (htop : P.top = true) :
    Ready ρ.native ρ.st ρ.base ρ.top t.tmp m c := by
  have he := ht.each
  refine ⟨he.base, he.top, he.tmp.1, he.tmp.2.1, he.tmp.2.2, ?_,
    h.top htop, h.state⟩
  intro s hs
  refine ⟨(Regs.apart ht.reserved_nodup).2.2.2 s hs, ?_, h.st s hs⟩
  rintro rfl
  refine ht.not_reserved (r := t.tmp) (by simp [Temps.gprs]) ?_
  exact List.mem_append_right _ (Option.mem_toList.mpr hs)

-- =============================================================== TOP's units

section
variable (h : Holds ρ G P m c) (ht : t.Apart ρ) (hG : Apart ρ G)
include h ht hG

/-- TOP is loaded from the status word. -/
theorem holds_loadTop :
    Holds ρ G { P.wrote [ρ.top] [] with top := true }
      (Insn.loadTop.exec m)
      (run (lines (emit_load_top ρ.offset ρ.base ρ.top)) c) := by
  have he := ht.each
  refine h.setTop ht hG (wrote_run ?_) (mem_run ?_)
    (reg_load_top he.base he.top h.thread h.state.sw)
  · simp [emit_load_top, Instr.Writes, Op.dest, Op.destD, Op.setsFlags,
      Op.setsFlush]
  · simp [emit_load_top, Instr.stores, Op.stores]

/-- TOP is stored into it. -/
theorem holds_storeTop (htop : P.top = true) :
    Holds ρ G (P.wrote [t.tmp] []) (Insn.storeTop.exec m)
      (run (lines (emit_store_top ρ.base ρ.top t.tmp)) c) := by
  have he := ht.each
  have hmem := mem_store_top he.base he.tmp.1 he.tmp.2.1.symm
    he.tmp.2.2.symm h.state.sw (h.top htop)
  refine h.temps ht hG (wrote_run ?_) (by simp [Temps.gprs])
    (List.nil_subset _) ?_ ?_ rfl rfl rfl rfl
  · simp [emit_store_top, Instr.Writes, Op.dest, Op.destD, Op.setsFlags,
      Op.setsFlush]
  · rw [hmem]
    exact within_store 2 2 _ (by decide) (by decide)
  · rw [hmem]
    exact h.state.storeSw _

/-- TOP is moved. -/
theorem holds_addTop (htop : P.top = true) :
    Holds ρ G { P.wrote [ρ.top] [] with top := true }
      ((Insn.addTop (if t.sub then -(t.amount.setWidth 3)
        else t.amount.setWidth 3)).exec m)
      (run (lines (emit_top_step t.sub t.amount ρ.top)) c) := by
  have he := ht.each
  have hrun := run_top_step he.top (h.top htop) t.sub t.amount
  refine h.setTop ht hG (wrote_run ?_) (mem_run ?_) ?_
  · simp [emit_top_step, Instr.Writes, Op.dest, Op.destD, Op.setsFlags,
      Op.setsFlush]
  · simp [emit_top_step, Instr.stores, Op.stores]
  · rw [hrun, reg_set_self he.top]
    cases t.sub with
    | false => rfl
    | true => exact congrArg slotWord (sub_eq_add_neg _ _)

/-- TOP is made zero. -/
theorem holds_zeroTop :
    Holds ρ G { P.wrote [ρ.top] [] with top := true } (Insn.zeroTop.exec m)
      (run (lines [emit_movz false 0 0 ρ.top]) c) := by
  refine h.setTop ht hG (wrote_run ?_) (mem_run ?_) ?_
  · simp [Instr.Writes, Op.dest, Op.destD, Op.setsFlags, Op.setsFlush]
  · simp [Instr.stores, Op.stores]
  · simp only [emit_movz, lines_insn, lines_nil, runCode_cons, runCode_nil,
      step, step_moveWide, reg_set_self ht.each.top]
    rfl

/-- TOP is taken from a status word in a register. -/
theorem holds_topOfX {x r : Nat} (hx : P.x x = some r) :
    Holds ρ G { P.wrote [ρ.top] [] with top := true }
      ((Insn.topOfX x).exec m)
      (run (lines [emit_bitfield false .ubfm 11 13 r ρ.top]) c) := by
  refine h.setTop ht hG (wrote_run ?_) (mem_run ?_) ?_
  · simp [Instr.Writes, Op.dest, Op.destD, Op.setsFlags, Op.setsFlush]
  · simp [Instr.stores, Op.stores]
  · simp only [emit_bitfield, lines_insn, lines_nil, runCode_cons,
      runCode_nil, step, step_bitfield, reg_set_self ht.each.top,
      h.x x r hx]
    exact ubfm_top _

end

-- ============================================================= tags' units

section
variable (h : Holds ρ G P m c) (ht : t.Apart ρ) (hG : Apart ρ G)
include h ht hG

/-- Code that writes the tag word. -/
theorem Holds.setTw (hw : Wrote ws [] c c') (hws : ws ⊆ t.gprs)
    {tw : BitVec 16}
    (hmem : c'.mem = c.mem.store (c.reg ρ.base + BitVec.ofNat 64 4) 2 tw) :
    Holds ρ G (P.wrote ws []) { m with tw := tw } c' := by
  refine h.temps ht hG hw hws (List.nil_subset _) ?_ ?_ rfl rfl rfl rfl
  · rw [hmem]
    exact within_store 4 2 _ (by decide) (by decide)
  · rw [hmem]
    exact h.state.storeTw _

/-- The tag of the top is made valid. -/
theorem holds_tagClear (htop : P.top = true) :
    Holds ρ G (P.wrote [t.tmp, t.tmp2] []) (Insn.tagClear.exec m)
      (run (lines (emit_x87_tag_clear ρ.base ρ.top t.tmp t.tmp2)) c) := by
  have he := ht.each
  refine h.setTw ht hG (wrote_run ?_) (by simp [Temps.gprs])
    (mem_tag_clear he.base he.tmp2.1 he.tmp.1 he.tmp2.2.1.symm
      he.tmp.2.1.symm he.tmp_tmp2.symm h.state.tw (h.top htop))
  simp [emit_x87_tag_clear, emit_tag_mask, emit_tag_rmw, Instr.Writes,
    Op.dest, Op.destD, Op.setsFlags, Op.setsFlush]

/-- The tag of a register is made empty. -/
theorem holds_tagSetEmpty (htop : P.top = true) (d : Depth) :
    Holds ρ G (P.wrote [t.tmp, t.tmp2] []) ((Insn.tagSetEmpty d).exec m)
      (run (lines (emit_tag_set_empty ρ.base ρ.top (d.setWidth 12) t.tmp
        t.tmp2)) c) := by
  have he := ht.each
  have hd : (d.setWidth 12).setWidth 3 = d := by
    rw [BitVec.setWidth_setWidth_of_le _ (by decide), BitVec.setWidth_eq]
  have hmem := mem_tag_set_empty he.base he.top he.tmp2.1 he.tmp.1
    he.tmp2.2.1.symm he.tmp.2.1.symm he.tmp_tmp2.symm h.state.tw
    (h.top htop) (d.setWidth 12)
  rw [hd] at hmem
  exact h.setTw ht hG (wrote_tag_set_empty _) (by simp [Temps.gprs]) hmem

/-- So are those of several at once. -/
theorem holds_tagSetEmptyBatch (htop : P.top = true) (n : Nat) :
    Holds ρ G (P.wrote [t.tmp, t.tmp2, t.tagw] [])
      ((Insn.tagSetEmptyBatch n).exec m)
      (run (lines (emit_x87_tag_set_empty_batch ρ.base ρ.top t.tmp t.tmp2
        t.tagw n)) c) := by
  have he := ht.each
  refine h.setTw ht hG (wrote_tag_set_empty_batch n) (by simp [Temps.gprs])
    (mem_tag_set_empty_batch he.base he.tmp.1 he.tmp2.1 he.tagw.1 he.top
      he.tmp_tmp2 he.tmp_tagw.symm he.tmp2_tagw.symm ?_ ?_ h.state.tw
      (h.top htop) n)
  · simp [he.tmp.2.2.symm, he.tmp2.2.2.symm, he.tagw.2.2.symm]
  · simp [he.tmp.2.1.symm, he.tmp2.2.1.symm, he.tagw.2.1.symm]

/-- So are those one by one. -/
theorem holds_tagSetEmptyNext (htop : P.top = true) (n : Nat) :
    Holds ρ G (P.wrote [t.tmp, t.tmp2] []) ((Insn.tagSetEmptyNext n).exec m)
      (run (lines (emit_tag_set_empty_next ρ.base ρ.top t.tmp t.tmp2 n)) c)
    := by
  have he := ht.each
  obtain ⟨hs, hw, hin⟩ := tag_set_empty_next he.base he.top he.tmp.1
    he.tmp2.1 (by simp [he.tmp.2.1.symm, he.tmp2.2.1.symm])
    (by simp [he.tmp.2.2.symm, he.tmp2.2.2.symm]) he.tmp_tmp2.symm
    (List.range n) h.state (h.top htop)
  exact h.temps ht hG hw (by simp [Temps.gprs]) (List.nil_subset _) hin hs
    rfl rfl rfl rfl

end

-- ============================================================ slots' units

/-- Code that writes no register moves nothing. -/
theorem Places.wrote_nil (P : Places) : P.wrote [] [] = P := by
  have hnone : ∀ r, ([] : List Nat).contains r = false := fun _ => rfl
  have huses : ∀ holder : Holder, holder.uses [] [] = false := by
    intro holder
    cases holder <;> rfl
  have hhold : P.hold.filter (fun p => !([] : List Nat).contains p.1
      && !p.2.any ([] : List Nat).contains) = P.hold := by
    rcases P.hold with _ | ⟨d, _ | h⟩ <;> rfl
  unfold Places.wrote
  rw [Assign.drop_of_false hnone, Assign.drop_of_false hnone,
    Assign.drop_of_false hnone, Assign.drop_of_false huses, hhold]

/-- Code that writes the state and no register. -/
theorem Holds.stored (h : Holds ρ G P m c) (hG : Apart ρ G)
    (hw : Wrote [] [] c c') (hwithin : Within (c.reg ρ.base) c.mem c'.mem)
    (hstate : State ρ.native c'.mem (c.reg ρ.base) m')
    (hs : m'.scratch = m.scratch) (hh : m'.hold = m.hold)
    (hg : m'.guest.hideSw = m.guest.hideSw) (ht : m'.wTop = m.wTop) :
    Holds ρ G P m' c' := by
  have := h.wrote hw hG (fun _ _ => List.not_mem_nil) (List.nil_subset _)
    (List.nil_subset _) hwithin hstate hs hh hg ht
  rwa [Places.wrote_nil] at this

/-- Code that writes registers and no memory. -/
theorem Holds.loaded (h : Holds ρ G P m c) (hG : Apart ρ G)
    (hw : Wrote ws ds c c') (hres : ∀ r ∈ ρ.reserved, r ∉ ws)
    (hpool : ws ⊆ ρ.pool) (hfpool : ds ⊆ ρ.fpool)
    (hmem : c'.mem = c.mem) : Holds ρ G (P.wrote ws ds) m c' := by
  refine h.wrote hw hG hres hpool hfpool ?_ ?_ rfl rfl rfl rfl
  · rw [hmem]
    exact .refl _ _
  · rw [hmem]
    exact h.state

/-- The pair of registers a slot is rotated through has it. -/
theorem Holds.putHold (h : Holds ρ G P m c) {w : BitVec 80} {dd : Nat}
    {hd : Option Nat} (hdd : c.d dd = slotF64 w)
    (hhd : ∀ r ∈ hd, c.d r = (slotTail w).setWidth 64) :
    Holds ρ G { P with hold := some (dd, hd) } { m with hold := w } c :=
  { h with
    state := h.state.of_parts rfl rfl rfl
    hold := by
      rintro d r hp
      obtain ⟨rfl, rfl⟩ := Prod.mk.inj (Option.some.inj hp)
      exact ⟨hdd, hhd⟩ }

/-- A slot taken, with its last two bytes or without. -/
theorem take_spec {image : Bool} {tmp dd hd : Nat}
    (hr : Ready ρ.native ρ.st ρ.base ρ.top tmp m c)
    (hi : image = true → ρ.native = true) (hne : dd ≠ hd) (d : Depth) :
    ∃ c₁, run (emit_take ρ image d tmp dd hd) c = c₁
      ∧ c₁.d dd = slotF64 (m.slot (m.phys d))
      ∧ (image = true
        → c₁.d hd = (slotTail (m.slot (m.phys d))).setWidth 64)
      ∧ Wrote [tmp] [dd, hd] c c₁ ∧ c₁.mem = c.mem := by
  cases image with
  | true =>
      rw [hi rfl] at hr
      obtain ⟨c₁, hrun, h1, h2, hw, hmem⟩ := hr.loadImage d hne
      exact ⟨c₁, hrun, h1, fun _ => h2, hw, hmem⟩
  | false =>
      obtain ⟨c₁, hrun, h1, -, hw, hmem⟩ := hr.load d dd
      exact ⟨c₁, hrun, h1, fun h => absurd h Bool.false_ne_true,
        hw.mono (List.Subset.refl _) (by simp), hmem⟩

/-- And put down. -/
theorem give_spec {image : Bool} {tmp dd hd : Nat} {w : BitVec 80}
    (hr : Ready ρ.native ρ.st ρ.base ρ.top tmp m c)
    (hi : image = true → ρ.native = true) (hdd : c.d dd = slotF64 w)
    (hhd : image = true → c.d hd = (slotTail w).setWidth 64) (d : Depth) :
    ∃ c₁, run (emit_give ρ image d tmp dd hd) c = c₁
      ∧ State ρ.native c₁.mem (c.reg ρ.base) (m.put image (m.phys d) w)
      ∧ Wrote [tmp] [] c c₁ ∧ Within (c.reg ρ.base) c.mem c₁.mem := by
  cases image with
  | true =>
      rw [hi rfl] at hr ⊢
      exact hr.storeImage d hdd (hhd rfl)
  | false =>
      obtain ⟨c₁, hrun, hs, hw, hin⟩ := hr.store d dd
      rw [hdd] at hs
      exact ⟨c₁, hrun, hs, hw, hin⟩

section
variable (h : Holds ρ G P m c) (ht : t.Apart ρ) (hG : Apart ρ G)
include h ht hG

/-- A slot is loaded, and where it is stays known. -/
theorem holds_ldSt (htop : P.top = true) (hdst : t.dst ∈ ρ.fpool)
    (d : Depth) (k r : Nat) :
    let load := emit_load_st ρ.native ρ.base ρ.top d t.tmp t.dst ρ.st
    let P' := P.wrote [t.tmp] [t.dst]
    Holds ρ G { P' with d := P'.d.put r t.dst, key := P'.key.put k load.2 }
      ((Insn.ldSt d k r).exec m) (run load.1 c) := by
  obtain ⟨c₁, hrun, hval, hkey, hw, hmem⟩ := (h.ready ht htop).load d t.dst
  have hwrote : Holds ρ G (P.wrote [t.tmp] [t.dst]) m c₁ :=
    h.loaded hG hw ht.tmp_free (by simpa using ht.tmp_pool)
      (by simpa using hdst) hmem
  dsimp only
  rw [hrun]
  exact (hwrote.putKey (i := k) hkey).putD (i := r) hval

/-- A register is stored to a slot. -/
theorem holds_stSt (htop : P.top = true) (d : Depth) {r dd : Nat}
    (hr : P.d r = some dd) :
    Holds ρ G (P.wrote [t.tmp] []) ((Insn.stSt d r).exec m)
      (run (emit_store_st ρ.native ρ.base ρ.top d t.tmp dd ρ.st) c) := by
  obtain ⟨c₁, hrun, hs, hw, hin⟩ := (h.ready ht htop).store d dd
  rw [hrun]
  rw [h.d r dd hr] at hs
  exact h.temps ht hG hw (by simp [Temps.gprs]) (List.nil_subset _) hin hs
    rfl rfl rfl rfl

/-- A register is stored to the slot it was loaded from. -/
theorem holds_stKey {k r kr dd : Nat} (hk : P.key k = some kr)
    (hr : P.d r = some dd) :
    Holds ρ G P ((Insn.stKey k r).exec m)
      (run (emit_store_st_at_offset ρ.native ρ.base kr dd ρ.st) c) := by
  have hle := @slotOff_le ρ.native (m.scratch.key k)
  have haddr := address_slot (p := m.scratch.key k) ht.each.base
    (fun s hs => ⟨(Regs.apart ht.reserved_nodup).2.2.2 s hs, h.st s hs⟩)
    (h.key k kr hk)
  have hrun : run (emit_store_st_at_offset ρ.native ρ.base kr dd ρ.st) c
      = c.setMem (c.mem.store (c.reg ρ.base
          + BitVec.ofNat 64 (slotOff ρ.native (m.scratch.key k))) 8
        (m.scratch.d r)) := by
    show c.setMem (c.mem.store (address c 3 kr _ _) 8
      ((c.d dd).setWidth 64)) = _
    rw [haddr, h.d r dd hr, BitVec.setWidth_eq]
  rw [hrun]
  refine h.stored hG ⟨fun _ _ => rfl, fun _ _ => rfl, rfl, rfl⟩
    (within_store _ 8 _ (by omega) (by omega)) (h.state.storeSlot _ _)
    rfl rfl rfl rfl

/-- A slot is put aside. -/
theorem holds_save {image : Bool} (hi : image = true → ρ.native = true)
    (htop : P.top = true) (d : Depth) :
    Holds ρ G
      { P.wrote [t.tmp] [t.dSave, t.hSave] with
        hold := some (t.dSave, if image then some t.hSave else none) }
      ((Insn.save image d).exec m)
      (run (emit_take ρ image d t.tmp t.dSave t.hSave) c) := by
  have hfprs := ht.fprs
  simp only [List.nodup_cons, List.mem_cons, not_or] at hfprs
  obtain ⟨c₁, hrun, hdd, hhd, hw, hmem⟩ := take_spec (h.ready ht htop) hi
    hfprs.1.1 d
  have hwrote : Holds ρ G (P.wrote [t.tmp] [t.dSave, t.hSave]) m c₁ := by
    refine h.loaded hG hw ht.tmp_free (by simpa using ht.tmp_pool)
      (fun _ hr => ht.fpool ?_) hmem
    simp only [List.mem_cons, List.not_mem_nil, or_false] at hr ⊢
    tauto
  rw [hrun]
  refine hwrote.putHold hdd fun r hr => ?_
  cases image with
  | true =>
      obtain rfl : t.hSave = r := Option.some.inj hr
      exact hhd rfl
  | false => cases hr

/-- What was put aside is stored to a slot. -/
theorem holds_restore {image : Bool} (hi : image = true → ρ.native = true)
    (htop : P.top = true) (d : Depth) {p : Nat × Option Nat}
    (hp : P.hold = some p) (hsome : ¬ (image = true ∧ p.2.isNone = true)) :
    Holds ρ G (P.wrote [t.tmp] []) ((Insn.restore image d).exec m)
      (run (emit_give ρ image d t.tmp p.1 (p.2.getD p.1)) c) := by
  obtain ⟨hdd, hhd⟩ := h.hold p.1 p.2 hp
  have htail : image = true
      → c.d (p.2.getD p.1) = (slotTail m.hold).setWidth 64 := by
    intro himg
    rcases hp2 : p.2 with _ | r
    · exact absurd ⟨himg, by rw [hp2]; rfl⟩ hsome
    · exact hhd r hp2
  obtain ⟨c₁, hrun, hs, hw, hin⟩ := give_spec (h.ready ht htop) hi hdd
    htail d
  rw [hrun]
  refine h.temps ht hG hw (by simp [Temps.gprs]) (List.nil_subset _) hin hs
    ?_ ?_ ?_ ?_ <;> cases image <;> rfl

/-- One slot is copied to another. -/
theorem holds_move {image : Bool} (hi : image = true → ρ.native = true)
    (htop : P.top = true) (dst src : Depth) :
    Holds ρ G (P.wrote [t.tmp] [t.dChain, t.hChain])
      ((Insn.move image dst src).exec m)
      (run (emit_take ρ image src t.tmp t.dChain t.hChain
        ++ emit_give ρ image dst t.tmp t.dChain t.hChain) c) := by
  have hfprs := ht.fprs
  simp only [List.nodup_cons, List.mem_cons, List.not_mem_nil, or_false,
    not_or] at hfprs
  obtain ⟨c₁, hrun, hdd, hhd, hw, hmem⟩ := take_spec (h.ready ht htop) hi
    hfprs.2.2.1 src
  have hready : Ready ρ.native ρ.st ρ.base ρ.top t.tmp m c₁ :=
    (h.ready ht htop).wrote hw (hmem ▸ h.state) rfl
  obtain ⟨c₂, hrun₂, hs, hw₂, hin⟩ := give_spec hready hi hdd hhd dst
  have hbase : c₁.reg ρ.base = c.reg ρ.base :=
    hw.reg _ (by simpa using ht.each.tmp.2.1.symm)
  have hall : run (emit_take ρ image src t.tmp t.dChain t.hChain
      ++ emit_give ρ image dst t.tmp t.dChain t.hChain) c = c₂ := by
    show runCode step (_ ++ _) c = _
    rw [runCode_append]
    exact (congrArg (run _) hrun).trans hrun₂
  rw [hall]
  rw [hbase, hmem] at hin
  rw [hbase] at hs
  refine h.temps ht hG (hw.trans (hw₂.mono (List.Subset.refl _)
    (List.nil_subset _))) (by simp [Temps.gprs]) (fun _ hr => ht.fpool ?_)
    hin hs ?_ ?_ ?_ ?_
  · simp only [List.mem_cons, List.not_mem_nil, or_false] at hr ⊢
    tauto
  all_goals cases image <;> rfl

/-- The 80 bits of a slot are loaded. -/
theorem holds_ldImage (hn : ρ.native = true) (htop : P.top = true)
    (d : Depth) (q : Nat) :
    let written := t.image.written
    let P' := P.wrote (t.tmp :: written.1) written.2
    Holds ρ G { P' with q := P'.q.put q t.image } ((Insn.ldImage d q).exec m)
      (run (emit_image ρ t d false t.image) c) := by
  have hready := h.ready ht htop
  rw [hn] at hready
  have himage := ht.image
  dsimp only
  cases hq : t.image with
  | fp dd hd =>
      rw [hq] at himage
      obtain ⟨hne, hdd, hhd⟩ := himage
      obtain ⟨c₁, hrun, h1, h2, hw, hmem⟩ := hready.loadImage d hne
      have hwrote : Holds ρ G (P.wrote [t.tmp] [dd, hd]) m c₁ :=
        h.loaded hG hw ht.tmp_free (by simpa using ht.tmp_pool)
          (by simp [hdd, hhd]) hmem
      show Holds ρ G _ _ (run (emit_native_slot_image ..) c)
      rw [hrun]
      have hread : (Holder.fp dd hd).read c₁
          = imageParts (m.slot (m.phys d)) := Prod.ext h1 h2
      exact hwrote.putQ hread
  | gpr x w =>
      rw [hq] at himage
      obtain ⟨hnd, hx, hw⟩ := himage
      have hfree := List.disjoint_of_nodup_append hnd
      have hne := (List.nodup_append.mp hnd).2.1
      simp only [List.nodup_cons, List.mem_cons, List.not_mem_nil, or_false,
        not_or] at hne
      obtain ⟨c₁, hrun, h1, h2, hwr, hmem⟩ := hready.loadImageX d
        (fun e => hfree Regs.zero_mem_reserved (by simp [e]))
        (fun e => hfree Regs.zero_mem_reserved (by simp [e]))
        (fun e => hne.1.1 e.symm) hne.2.1
      have hwrote : Holds ρ G (P.wrote [t.tmp, x, w] []) m c₁ :=
        h.loaded hG hwr (fun _ hr hm => hfree hr hm)
          (by simp [hx, hw, ht.tmp_pool]) (List.nil_subset _) hmem
      show Holds ρ G _ _ (run (emit_image_at ..) c)
      rw [emit_image_at, if_neg Bool.false_ne_true, hrun]
      have hread : (Holder.gpr x w).read c₁
          = imageParts (m.slot (m.phys d)) := Prod.ext h1 h2
      exact hwrote.putQ hread

/-- The 80 bits are stored. -/
theorem holds_stImage (hn : ρ.native = true) (htop : P.top = true)
    (d : Depth) {q : Nat} {holder : Holder} (hq : P.q q = some holder)
    (hfree : holder.uses [t.tmp] [] = false) :
    Holds ρ G (P.wrote [t.tmp] []) ((Insn.stImage d q).exec m)
      (run (emit_image ρ t d true holder) c) := by
  have hready := h.ready ht htop
  rw [hn] at hready
  have hread := h.q q holder hq
  obtain ⟨c₁, hrun, hs, hw, hin⟩ : ∃ c₁,
      run (emit_image ρ t d true holder) c = c₁
        ∧ State true c₁.mem (c.reg ρ.base)
          (m.setSlot (m.phys d) (m.scratch.q q))
        ∧ Wrote [t.tmp] [] c c₁ ∧ Within (c.reg ρ.base) c.mem c₁.mem := by
    cases holder with
    | fp dd hd =>
        obtain ⟨h1, h2⟩ := Prod.mk.inj hread
        exact hready.storeImage d h1 h2
    | gpr x w =>
        obtain ⟨h1, h2⟩ := Prod.mk.inj hread
        simp only [Holder.uses, List.contains_cons, List.contains_nil,
          Bool.or_false, Bool.or_eq_false_iff, beq_eq_false_iff_ne] at hfree
        exact hready.storeImageX d hfree.1 hfree.2 h1 h2
  rw [hrun]
  refine h.temps ht hG hw (by simp [Temps.gprs]) (List.nil_subset _) hin ?_
    rfl rfl rfl rfl
  rw [hn]
  exact hs

end

-- ============================================================ words' units

section
variable (h : Holds ρ G P m c) (ht : t.Apart ρ) (hG : Apart ρ G)
include h ht hG

/-- A word of the state loaded. -/
theorem holds_ldWord (hpool : t.dst ∈ ρ.pool) (hres : t.dst ∉ ρ.reserved)
    {imm12 : BitVec 12} {j : Nat} {v : BitVec 16}
    (haddr : imm12.setWidth 64 * BitVec.ofNat 64 (2 ^ 1)
      = BitVec.ofNat 64 j)
    (hv : c.mem.load (c.reg ρ.base + BitVec.ofNat 64 j) 2 = v) (x : Nat) :
    Holds ρ G ((P.wrote [t.dst] []).loadX x t.dst)
      { m with scratch := m.scratch.setX x (v.setWidth 64) }
      (run (lines [emit_ldr_imm 1 t.dst ρ.base imm12]) c) := by
  have h31 : t.dst ≠ 31 := fun e => hres (e ▸ Regs.zero_mem_reserved)
  have hrun : run (lines [emit_ldr_imm 1 t.dst ρ.base imm12]) c
      = c.set t.dst (v.setWidth 64) := by
    simp only [emit_ldr_imm, lines_insn, lines_nil, runCode_cons,
      runCode_nil, step, step_ldr ht.each.base, haddr, ← hv]
    rfl
  have hwrote : Holds ρ G (P.wrote [t.dst] []) m
      (c.set t.dst (v.setWidth 64)) := by
    refine h.loaded hG ⟨fun r hr => reg_set_of_ne (by simpa using hr),
      fun _ _ => rfl, rfl, rfl⟩ (fun r hr hm => hres ?_)
      (by simpa using hpool) (List.nil_subset _) mem_set
    rw [List.mem_singleton] at hm
    exact hm ▸ hr
  rw [hrun]
  exact hwrote.putX (reg_set_self h31)

/-- The status word is stored. -/
theorem holds_stSw {x r : Nat} (hx : P.x x = some r) :
    Holds ρ G P ((Insn.stSw x).exec m)
      (run (lines [emit_str_imm 1 r ρ.base kX87StatusWordImm12]) c) := by
  have hrun : run (lines [emit_str_imm 1 r ρ.base kX87StatusWordImm12]) c
      = c.setMem (c.mem.store (c.reg ρ.base + BitVec.ofNat 64 2) 2
        ((m.scratch.x x).setWidth 16)) := by
    simp only [emit_str_imm, lines_insn, lines_nil, runCode_cons,
      runCode_nil, step, step_str ht.each.base, h.x x r hx]
    rfl
  rw [hrun]
  exact h.stored hG ⟨fun _ _ => rfl, fun _ _ => rfl, rfl, rfl⟩
    (within_store 2 2 _ (by decide) (by decide)) (h.state.storeSw _)
    rfl rfl rfl rfl

/-- The tag word is stored. -/
theorem holds_stTw {x r : Nat} (hx : P.x x = some r) :
    Holds ρ G P ((Insn.stTw x).exec m)
      (run (lines [emit_str_imm 1 r ρ.base kX87TagWordImm12]) c) := by
  have hrun : run (lines [emit_str_imm 1 r ρ.base kX87TagWordImm12]) c
      = c.setMem (c.mem.store (c.reg ρ.base + BitVec.ofNat 64 4) 2
        ((m.scratch.x x).setWidth 16)) := by
    simp only [emit_str_imm, lines_insn, lines_nil, runCode_cons,
      runCode_nil, step, step_str ht.each.base, h.x x r hx]
    rfl
  rw [hrun]
  exact h.stored hG ⟨fun _ _ => rfl, fun _ _ => rfl, rfl, rfl⟩
    (within_store 4 2 _ (by decide) (by decide)) (h.state.storeTw _)
    rfl rfl rfl rfl

/-- The tag of a register is loaded. -/
theorem holds_ldTag (htop : P.top = true) (x : Nat) :
    Holds ρ G ((P.wrote [t.tmp, t.tmp2] []).loadX x t.tmp)
      ((Insn.ldTag x).exec m)
      (run (lines (emit_load_tag ρ.base ρ.top t.tmp t.tmp2)) c) := by
  have he := ht.each
  have hreg := reg_load_tag he.base he.tmp.1 he.tmp2.1 he.tmp_tmp2
    he.tmp.2.2.symm h.state.tw (h.top htop)
  have hwrote : Holds ρ G (P.wrote [t.tmp, t.tmp2] []) m
      (run (lines (emit_load_tag ρ.base ρ.top t.tmp t.tmp2)) c) := by
    refine h.loaded hG (wrote_run ?_) (fun r hr hm => ?_)
      (fun _ hr => ht.in_pool ?_) (List.nil_subset _) (mem_run ?_)
    · simp [emit_load_tag, Instr.Writes, Op.dest, Op.destD, Op.setsFlags,
        Op.setsFlush]
    · refine ht.not_reserved (r := r) ?_ hr
      simp only [Temps.gprs, List.mem_cons, List.not_mem_nil, or_false]
        at hm ⊢
      tauto
    · simp only [Temps.gprs, List.mem_cons, List.not_mem_nil, or_false]
        at hr ⊢
      tauto
    · simp [emit_load_tag, Instr.stores, Op.stores]
  exact hwrote.putX hreg

/-- The condition codes are written into the status word. -/
theorem holds_ccWrite {x r : Nat} (hcc : P.cc x = true)
    (hx : P.x x = some r) (hr : r ≠ t.tmp) :
    Holds ρ G (P.wrote [t.tmp] []) ((Insn.ccWrite x).exec m)
      (run (lines (emit_fcom_cc_write_sw ρ.base r t.tmp)) c) := by
  have he := ht.each
  have hv := h.x x r hx
  have hmem := mem_cc_write he.base he.tmp.1 he.tmp.2.1.symm hr h.state.sw
    (by rw [hv]; exact h.cc x hcc)
  rw [hv] at hmem
  refine h.temps ht hG (wrote_run ?_) (by simp [Temps.gprs])
    (List.nil_subset _) ?_ ?_ rfl rfl rfl rfl
  · simp [emit_fcom_cc_write_sw, Instr.Writes, Op.dest, Op.destD,
      Op.setsFlags, Op.setsFlush]
  · rw [hmem]
    exact within_store 2 2 _ (by decide) (by decide)
  · rw [hmem]
    exact h.state.storeSw _

end

-- ======================================================== any unit, and all

/-- Instructions that a unit is lowered to do what the unit does. -/
theorem holds_lower (h : Holds ρ G P m c) (ht : t.Apart ρ)
    (hG : Apart ρ G) {i : Insn} (hl : lower ρ t P i = some (code, P')) :
    Holds ρ G P' (i.exec m) (run code c) := by
  cases i with
  | loadTop =>
      obtain ⟨rfl, rfl⟩ := Prod.mk.inj (Option.some.inj hl)
      exact holds_loadTop h ht hG
  | storeTop =>
      obtain ⟨htop, hl⟩ := Option.ite_none_right_eq_some.mp hl
      obtain ⟨rfl, rfl⟩ := Prod.mk.inj (Option.some.inj hl)
      exact holds_storeTop h ht hG htop
  | addTop k =>
      obtain ⟨⟨htop, hk⟩, hl⟩ := Option.ite_none_right_eq_some.mp hl
      obtain ⟨rfl, rfl⟩ := Prod.mk.inj (Option.some.inj hl)
      have hsame : { P.wrote [ρ.top] [] with top := true }
          = P.wrote [ρ.top] [] :=
        congrArg (fun b => { P.wrote [ρ.top] [] with top := b }) htop.symm
      have hadd := holds_addTop h ht hG htop
      rw [hsame, ← hk] at hadd
      exact hadd
  | zeroTop =>
      obtain ⟨rfl, rfl⟩ := Prod.mk.inj (Option.some.inj hl)
      exact holds_zeroTop h ht hG
  | topOfX x =>
      obtain ⟨r, hx, hl⟩ := Option.map_eq_some_iff.mp hl
      obtain ⟨rfl, rfl⟩ := Prod.mk.inj hl
      exact holds_topOfX h ht hG hx
  | tagClear =>
      obtain ⟨htop, hl⟩ := Option.ite_none_right_eq_some.mp hl
      obtain ⟨rfl, rfl⟩ := Prod.mk.inj (Option.some.inj hl)
      exact holds_tagClear h ht hG htop
  | tagSetEmpty d =>
      obtain ⟨htop, hl⟩ := Option.ite_none_right_eq_some.mp hl
      obtain ⟨rfl, rfl⟩ := Prod.mk.inj (Option.some.inj hl)
      exact holds_tagSetEmpty h ht hG htop d
  | tagSetEmptyBatch n =>
      obtain ⟨htop, hl⟩ := Option.ite_none_right_eq_some.mp hl
      obtain ⟨rfl, rfl⟩ := Prod.mk.inj (Option.some.inj hl)
      exact holds_tagSetEmptyBatch h ht hG htop n
  | tagSetEmptyNext n =>
      obtain ⟨htop, hl⟩ := Option.ite_none_right_eq_some.mp hl
      obtain ⟨rfl, rfl⟩ := Prod.mk.inj (Option.some.inj hl)
      exact holds_tagSetEmptyNext h ht hG htop n
  | ldSt d k r =>
      obtain ⟨⟨htop, hdst⟩, hl⟩ := Option.ite_none_right_eq_some.mp hl
      obtain ⟨rfl, rfl⟩ := Prod.mk.inj (Option.some.inj hl)
      exact holds_ldSt h ht hG htop hdst d k r
  | stSt d r =>
      obtain ⟨htop, hl⟩ := Option.ite_none_right_eq_some.mp hl
      obtain ⟨dd, hr, hl⟩ := Option.map_eq_some_iff.mp hl
      obtain ⟨rfl, rfl⟩ := Prod.mk.inj hl
      exact holds_stSt h ht hG htop d hr
  | stKey k r =>
      obtain ⟨kr, hk, hl⟩ := Option.bind_eq_some_iff.mp hl
      obtain ⟨dd, hr, hl⟩ := Option.map_eq_some_iff.mp hl
      obtain ⟨rfl, rfl⟩ := Prod.mk.inj hl
      exact holds_stKey h ht hG hk hr
  | ldImage d q =>
      obtain ⟨⟨hn, htop⟩, hl⟩ := Option.ite_none_right_eq_some.mp hl
      obtain ⟨rfl, rfl⟩ := Prod.mk.inj (Option.some.inj hl)
      exact holds_ldImage h ht hG hn htop d q
  | stImage d q =>
      obtain ⟨⟨hn, htop⟩, hl⟩ := Option.ite_none_right_eq_some.mp hl
      obtain ⟨holder, hq, hl⟩ := Option.bind_eq_some_iff.mp hl
      obtain ⟨hfree, hl⟩ := Option.ite_none_left_eq_some.mp hl
      obtain ⟨rfl, rfl⟩ := Prod.mk.inj (Option.some.inj hl)
      exact holds_stImage h ht hG hn htop d hq (Bool.eq_false_iff.mpr hfree)
  | save image d =>
      obtain ⟨⟨htop, hi⟩, hl⟩ := Option.ite_none_right_eq_some.mp hl
      obtain ⟨rfl, rfl⟩ := Prod.mk.inj (Option.some.inj hl)
      exact holds_save h ht hG hi htop d
  | move image dst src =>
      obtain ⟨⟨htop, hi⟩, hl⟩ := Option.ite_none_right_eq_some.mp hl
      obtain ⟨rfl, rfl⟩ := Prod.mk.inj (Option.some.inj hl)
      exact holds_move h ht hG hi htop dst src
  | restore image d =>
      obtain ⟨⟨htop, hi⟩, hl⟩ := Option.ite_none_right_eq_some.mp hl
      obtain ⟨p, hp, hl⟩ := Option.bind_eq_some_iff.mp hl
      obtain ⟨hsome, hl⟩ := Option.ite_none_left_eq_some.mp hl
      obtain ⟨rfl, rfl⟩ := Prod.mk.inj (Option.some.inj hl)
      exact holds_restore h ht hG hi htop d hp hsome
  | ldSw x =>
      obtain ⟨⟨hpool, hres⟩, hl⟩ := Option.ite_none_right_eq_some.mp hl
      obtain ⟨rfl, rfl⟩ := Prod.mk.inj (Option.some.inj hl)
      have haddr : kX87StatusWordImm12.setWidth 64 * BitVec.ofNat 64 (2 ^ 1)
          = BitVec.ofNat 64 2 := rfl
      exact holds_ldWord h ht hG hpool hres haddr h.state.sw x
  | stSw x =>
      obtain ⟨r, hx, hl⟩ := Option.map_eq_some_iff.mp hl
      obtain ⟨rfl, rfl⟩ := Prod.mk.inj hl
      exact holds_stSw h ht hG hx
  | ldTw x =>
      obtain ⟨⟨hpool, hres⟩, hl⟩ := Option.ite_none_right_eq_some.mp hl
      obtain ⟨rfl, rfl⟩ := Prod.mk.inj (Option.some.inj hl)
      have haddr : kX87TagWordImm12.setWidth 64 * BitVec.ofNat 64 (2 ^ 1)
          = BitVec.ofNat 64 4 := rfl
      exact holds_ldWord h ht hG hpool hres haddr h.state.tw x
  | stTw x =>
      obtain ⟨r, hx, hl⟩ := Option.map_eq_some_iff.mp hl
      obtain ⟨rfl, rfl⟩ := Prod.mk.inj hl
      exact holds_stTw h ht hG hx
  | ldTag x =>
      obtain ⟨htop, hl⟩ := Option.ite_none_right_eq_some.mp hl
      obtain ⟨rfl, rfl⟩ := Prod.mk.inj (Option.some.inj hl)
      exact holds_ldTag h ht hG htop x
  | ldTop x =>
      obtain ⟨htop, hl⟩ := Option.ite_none_right_eq_some.mp hl
      obtain ⟨rfl, rfl⟩ := Prod.mk.inj (Option.some.inj hl)
      exact h.putX (h.top htop)
  | ccWrite x =>
      obtain ⟨hcc, hl⟩ := Option.ite_none_right_eq_some.mp hl
      obtain ⟨r, hx, hl⟩ := Option.bind_eq_some_iff.mp hl
      obtain ⟨hr, hl⟩ := Option.ite_none_left_eq_some.mp hl
      obtain ⟨rfl, rfl⟩ := Prod.mk.inj (Option.some.inj hl)
      exact holds_ccWrite h ht hG hcc hx hr
  | compute f => cases hl

/-- The registers of a unit are its own, and the code of a computation does
that computation. -/
def Piece.Right (ρ : Regs) (G : Guest → Cpu → Prop) : Piece → Prop
  | .unit _ t => t.Apart ρ
  | .block f body after => ∀ P P' m c, after P = some P' →
      Holds ρ G P m c → Holds ρ G P' (m.compute f) (body c)

/-- A piece of a stretch: a unit, or what stands between two. -/
theorem holds_piece (h : Holds ρ G P m c) (hG : Apart ρ G) {p : Piece}
    (hp : p.Right ρ G) {body : Cpu → Cpu}
    (hl : p.lower ρ P = some (body, P')) :
    Holds ρ G P' (p.insn.exec m) (body c) := by
  cases p with
  | unit i t =>
      obtain ⟨r, hr, he⟩ := Option.map_eq_some_iff.mp hl
      obtain ⟨rfl, rfl⟩ := Prod.mk.inj he
      exact holds_lower h hp hG hr
  | block f body' after =>
      obtain ⟨P₁, hP, he⟩ := Option.map_eq_some_iff.mp hl
      obtain ⟨rfl, rfl⟩ := Prod.mk.inj he
      exact hp P P₁ m c hP h

/-- A stretch of pieces. -/
theorem holds_lowerAll (pieces : List Piece) (h : Holds ρ G P m c)
    (hG : Apart ρ G) (hp : ∀ p ∈ pieces, p.Right ρ G) {body : Cpu → Cpu}
    (hl : lowerAll ρ pieces P = some (body, P')) :
    Holds ρ G P' (exec (pieces.map Piece.insn) m) (body c) := by
  induction pieces generalizing P m c body with
  | nil =>
      obtain ⟨rfl, rfl⟩ := Prod.mk.inj (Option.some.inj hl)
      exact h
  | cons p pieces ih =>
      obtain ⟨⟨b, P₁⟩, hb, hrest⟩ := Option.bind_eq_some_iff.mp hl
      obtain ⟨⟨b', P₂⟩, hb', he⟩ := Option.map_eq_some_iff.mp hrest
      obtain ⟨rfl, rfl⟩ := Prod.mk.inj he
      exact ih (holds_piece h hG (hp p List.mem_cons_self) hb)
        (fun q hq => hp q (List.mem_cons_of_mem _ hq)) hb'

-- ======================================= the helpers of push and pop

section
variable {c : X87Cache}

/-- Units that share their scratch registers, TOP moved by a constant. -/
def unitsOf (t : Temps) (sub : Bool) (amount : BitVec 12)
    (l : List Insn) : List Piece :=
  l.map fun i => .unit i { t with sub := sub, amount := amount }

/-- A stretch comes down to a helper's code. -/
def LowersTo (ρ : Regs) (P : Places) (pieces : List Piece)
    (l : List (Line Fist.NoLabel)) : Prop :=
  ∃ P', lowerAll ρ pieces P = some (run (lines l), P')

/-- Nothing is lowered to nothing. -/
theorem LowersTo.nil : LowersTo ρ P [] [] := ⟨P, rfl⟩

/-- One unit more in front. -/
theorem LowersTo.cons {i : Insn} {l l' : List (Line Fist.NoLabel)}
    {P₁ : Places} {rest : List Piece}
    (hi : Helpers.lower ρ t P i = some (lines l, P₁))
    (hrest : LowersTo ρ P₁ rest l') :
    LowersTo ρ P (.unit i t :: rest) (l ++ l') := by
  obtain ⟨P', hrest⟩ := hrest
  refine ⟨P', ?_⟩
  have hunit : Piece.lower ρ P (.unit i t) = some (run (lines l), P₁) := by
    unfold Piece.lower
    dsimp only
    rw [hi]
    rfl
  have hrun : run (lines (l ++ l')) = run (lines l') ∘ run (lines l) := by
    funext c
    exact run_lines_append l l'
  unfold lowerAll
  rw [hunit, Option.bind_some, hrest, hrun]
  rfl

/-- The last unit. -/
theorem LowersTo.one {i : Insn} {l : List (Line Fist.NoLabel)}
    {P₁ : Places} (hi : Helpers.lower ρ t P i = some (lines l, P₁)) :
    LowersTo ρ P [.unit i t] l := by
  have hcons : LowersTo ρ P [.unit i t] (l ++ []) := .cons hi .nil
  rwa [List.append_nil] at hcons

/-- `emit_x87_push` is what a push outside a run comes down to. -/
theorem push_lowersTo (ha : c.active = false) (htop : P.top = true) :
    LowersTo ρ P (unitsOf t true 1 (x87_push c).2)
      (emit_x87_push ρ.base ρ.top t.tmp t.tmp2) := by
  have hunits : (x87_push c).2 = [.addTop (-1), .storeTop, .tagClear] := by
    simp [x87_push, Emit.seq, Emit.ite, Emit.code, Emit.modify, ha]
  rw [hunits]
  unfold emit_x87_push
  rw [List.append_assoc]
  exact .cons (if_pos ⟨htop, rfl⟩)
    (.cons (if_pos htop) (.one (if_pos htop)))

/-- `emit_x87_push_fully_deferred` is what a push comes down to in a run,
with nothing owed. -/
theorem push_deferred_lowersTo (ha : c.active = true)
    (hq : ∀ p, c.owes p = false) (hp : c.permDirty = false)
    (htop : P.top = true) :
    LowersTo ρ P (unitsOf t true 1 (x87_push c).2)
      (emit_x87_push_fully_deferred ρ.top) := by
  have hunits : (x87_push c).2 = [.addTop (-1)] := by
    simp [x87_push, Emit.seq, Emit.ite, Emit.all, Emit.when, Emit.modify,
      flush, perm_flush_before_stack_change, Emit.skip, hq, hp, ha]
  rw [hunits]
  exact .one (if_pos ⟨htop, rfl⟩)

/-- `emit_x87_pop` is what a pop outside a run comes down to. -/
theorem pop_lowersTo (ha : c.active = false) (htop : P.top = true) :
    LowersTo ρ P (unitsOf t false 1 (x87_pop c).2)
      (emit_x87_pop ρ.base ρ.top t.tmp t.tmp2) := by
  have hunits : (x87_pop c).2 = [.tagSetEmpty 0, .addTop 1, .storeTop] := by
    simp [x87_pop, Emit.seq, Emit.ite, Emit.modify, ha]
  rw [hunits]
  unfold emit_x87_pop
  rw [List.append_assoc]
  exact .cons (if_pos htop) (.cons (if_pos ⟨htop, rfl⟩)
    (.one (if_pos htop)))

/-- `emit_x87_pop_top_only` is what a pop comes down to in a run, with TOP
stored behind it where only the tag of a push was still owed. -/
theorem pop_top_only_lowersTo (htop : P.top = true) :
    LowersTo ρ P (unitsOf t false 1 (popActive c).2)
      (emit_x87_pop_top_only ρ.top
        ++ if c.tagPushPending && !c.topDirty then
          emit_store_top ρ.base ρ.top t.tmp else []) := by
  unfold popActive emit_x87_pop_top_only
  cases hpush : c.tagPushPending <;> cases hdirty : c.topDirty
  case true.false =>
    exact .cons (if_pos ⟨htop, rfl⟩) (.one (if_pos htop))
  all_goals
    exact .cons (if_pos ⟨htop, rfl⟩) .nil

/-- `emit_x87_pop_n` and `emit_x87_pop_n_deferred` are what several pops
come down to with no tag owed, outside a run and in one. -/
theorem pop_n_lowersTo (n : Nat) (hpops : c.owes .pops = false)
    (hpush : c.owes .push = false) (hp : c.permDirty = false)
    (htop : P.top = true) :
    LowersTo ρ P (unitsOf t false (BitVec.ofNat 12 n) (x87_pop_n n c).2)
      (if c.active then
        emit_x87_pop_n_deferred ρ.base ρ.top t.tmp t.tmp2 n
      else emit_x87_pop_n ρ.base ρ.top t.tmp t.tmp2 n) := by
  have hmove : BitVec.ofNat 3 n = (BitVec.ofNat 12 n).setWidth 3 := by
    apply BitVec.eq_of_toNat_eq
    simp
  have hunits : (x87_pop_n n c).2
      = [.tagSetEmptyNext n, .addTop (BitVec.ofNat 3 n)]
        ++ if c.active then [] else [.storeTop] := by
    cases ha : c.active <;>
      simp [x87_pop_n, Emit.seq, Emit.ite, Emit.all, Emit.when,
        Emit.modify, flush, perm_flush_before_stack_change, Emit.skip,
        hpops, hpush, hp, ha]
  rw [hunits]
  unfold emit_x87_pop_n emit_x87_pop_n_deferred
  cases ha : c.active with
  | true =>
      exact .cons (if_pos htop) (.one (if_pos ⟨htop, hmove⟩))
  | false =>
      rw [if_neg (by decide), List.append_assoc]
      exact .cons (if_pos htop) (.cons (if_pos ⟨htop, hmove⟩)
        (.one (if_pos htop)))

end

end X87Sidecar.Helpers
