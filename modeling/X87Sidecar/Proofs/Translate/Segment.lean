/-
Addresses under a segment.

FS keeps its base in the thread context; the base of GS comes from a
routine of the runtime, which is called here and not modelled
(`GetTlsBase`). The offset is computed first, then the base is added in a
register of its own, and whatever held the offset is given back.
-/
import X87Sidecar.Proofs.Translate.Address

namespace X87Sidecar

open Lib Lib.Keep

namespace Asm

/-- What the code relies on in `get_tls_base`: it answers in X29 and
changes no other register but the link register. -/
structure GetTlsBase (lk : Link) (p : BitVec 64) : Prop where
  result : ∀ m, (lk.routine kRuntimeRoutine_get_tls_base m).reg 29 = p
  keeps : ∀ m, Arm.Keeps (fun r => r = 29 ∨ r = 30) m
    (lk.routine kRuntimeRoutine_get_tls_base m)

/-- The base of FS: a word of the thread context. -/
def fsBase (lk : Link) (m : Arm.Machine) : BitVec 64 :=
  (m.mem.load (m.reg 18 + lk.process.field_8.setWidth 64) 4).setWidth 64

/-- The base of GS: the answer of the runtime, or where it points. -/
def gsBase (lk : Link) (p : BitVec 64) (m : Arm.Machine) : BitVec 64 :=
  if lk.process.translator_variant = 1 then (m.mem.load (p + 48) 8).setWidth 64
  else p

/-- The thread context has its words where a load can reach them. -/
def InContext (lk : Link) : Prop :=
  lk.process.field_8.toNat % 4 = 0 ∧ lk.process.field_8.toNat < 0x4000

variable {lk : Link} {m0 m : Arm.Machine} {f : BitVec 32}
  {F : AsmState → Prop} {dst : Nat} {op : IROperand} {w : Bool}

-- =================================================== the scratch register

/-- Who owns the register that an offset was returned in. -/
def Owner (dst : Nat) (f : BitVec 32) (r : Nat) (f' : BitVec 32) : Prop :=
  (r < 16 ∧ f' = f) ∨ (dst = 31 ∧ Taken f r f') ∨ (r = dst ∧ f' = f)

theorem Held.owned {v : BitVec 64} {r : Nat} {f' : BitVec 32}
    {m' : Arm.Machine} (h : Held dst f m v r f' m') : Owner dst f r f' := by
  rcases h.owner with ⟨hr, hf, -⟩ | ht | hd
  · exact .inl ⟨hr, hf⟩
  · exact .inr (.inl ht)
  · exact .inr (.inr hd)

namespace Owner

variable {r : Nat} {f' : BitVec 32}

theorem sub (h : Owner dst f r f') {q : Nat}
    (hq : f'.getLsbD q = true) : f.getLsbD q = true := by
  rcases h with ⟨-, rfl⟩ | ⟨-, ht⟩ | ⟨-, rfl⟩
  · exact hq
  · exact ht.sub hq
  · exact hq

theorem inPool (h : Owner dst f r f') (hf : InPool f) : InPool f' :=
  fun q hq => hf q (h.sub hq)

/-- The register is not free any more. -/
theorem gone (h : Owner dst f r f') (hf : InPool f) (hdst : Hint f dst)
    (hr : r ≠ 31) : f'.getLsbD r = false := by
  rcases h with ⟨hlt, rfl⟩ | ⟨-, ht⟩ | ⟨rfl, rfl⟩
  · exact Hint.owned (.inl hlt) hf (by omega)
  · exact ht.gone
  · exact hdst.owned hf hr

/-- It is one of the guest's or of the pool. -/
theorem bounds (h : Owner dst f r f') (hf : InPool f) (hdst : Hint f dst)
    (hr : r ≠ 31) : r < 16 ∨ (22 ≤ r ∧ r ≤ 29) := by
  rcases h with ⟨hlt, -⟩ | ⟨-, ht⟩ | ⟨rfl, -⟩
  · exact .inl hlt
  · exact .inr (ht.bounds hf)
  · rcases hdst with hlt | h31 | ⟨hp, -⟩
    · exact .inl hlt
    · exact absurd h31 hr
    · exact .inr (pool_bounds hp)

/-- Once the offset's register is given back, only the one taken after it
is missing. -/
theorem release {q : Nat} {f'' : BitVec 32} (h : Owner dst f r f')
    (hf : InPool f) (hr : r ≠ 31) (hq : Taken f' q f'') :
    Triple (At lk m0 f'' m) (releaseInner r dst)
      (fun _ s => ∃ f3, Taken f q f3 ∧ At lk m0 f3 m s) F := by
  unfold releaseInner
  rcases h with ⟨hlt, rfl⟩ | ⟨hd, ht⟩ | ⟨hd, rfl⟩
  · split
    · exact (free_gpr_guest hlt).conseq (fun _ h => h)
        (fun _ s h => ⟨f'', hq, h⟩) fun _ h => h
    · exact Triple.pure fun s h => ⟨f'', hq, h⟩
  · rw [if_pos (by omega)]
    have hqf : Taken f q (f &&& ~~~(1#32 <<< q)) := ⟨ht.sub hq.was, rfl⟩
    have hback : f'' ||| (1#32 <<< r) = f &&& ~~~(1#32 <<< q) := by
      have hne := ht.ne hq
      have hlt : r < 32 := BitVec.lt_of_getLsbD ht.was
      have hwas := ht.was
      apply BitVec.eq_of_getLsbD_eq
      intro i hi
      rw [hq.left, ht.left]
      simp only [BitVec.getLsbD_or, BitVec.getLsbD_and, BitVec.getLsbD_not,
        getLsbD_one_shift, hi, decide_true, Bool.true_and]
      by_cases hir : i = r
      · subst hir
        simp [hwas, Ne.symm hne]
      · simp [hir]
    unfold free_gpr
    rw [if_pos (ht.pool hf)]
    refine Triple.modify fun s h => ⟨_, hqf, h.withMask ?_⟩
    rw [h.free]
    exact hback
  · rw [if_neg (not_not_intro hd)]
    exact Triple.pure fun s h => ⟨f'', hq, h⟩

end Owner

-- ==================================================== adding the base

/-- The load of FS's base reads the word of the thread context. -/
theorem fs_access (hctx : InContext lk) (m : Arm.Machine) :
    m.access false ((lk.process.field_8 >>> 2).setWidth 12) 18
      = m.reg 18 + lk.process.field_8.setWidth 64 := by
  have hoff : ((lk.process.field_8 >>> 2).setWidth 12).setWidth 64
      * BitVec.ofNat 64 (Arm.bytes false)
      = lk.process.field_8.setWidth 64 := by
    obtain ⟨hmod, hlt⟩ := hctx
    show _ * 4#64 = _
    apply BitVec.eq_of_toNat_eq
    simp only [BitVec.toNat_mul, BitVec.toNat_setWidth, BitVec.toNat_ofNat,
      BitVec.toNat_ushiftRight, Nat.shiftRight_eq_div_pow]
    omega
  unfold Arm.Machine.access
  rw [hoff, Arm.regSp_of_ne (by decide)]

theorem addFsBase_triple {seg inner : Nat} (hctx : InContext lk)
    (hseg : seg ≠ 31) (hne : inner ≠ seg) :
    Triple (At lk m0 f m) (addFsBase w seg inner)
      (fun _ => At lk m0 f
        (m.set seg (Arm.narrow w (fsBase lk m + m.reg inner)))) F := by
  unfold addFsBase
  refine Triple.bind
    (Q := fun a s => a.process = lk.process ∧ At lk m0 f m s)
    (Triple.get fun s h => ⟨h.process, h⟩) fun s => ?_
  refine Triple.and_of fun hs => ?_
  rw [hs]
  refine Triple.bind (emit_triple _) fun _ => ?_
  have hload : Arm.step m
      (.ldr false ((lk.process.field_8 >>> 2).setWidth 12) 18 seg)
      = m.set seg (fsBase lk m) := by
    rw [Arm.step, fs_access hctx]
    rfl
  have hadd : Arm.step (m.set seg (fsBase lk m))
      (.addSubShifted w false inner 0 seg seg)
      = m.set seg (Arm.narrow w (fsBase lk m + m.reg inner)) := by
    rw [step_add, Arm.reg_set_self hseg, Arm.reg_set_of_ne hne,
      Arm.set_set]
  rw [hload, ← hadd]
  exact emit_triple _

/-- A register of the pool taken by its place. -/
theorem alloc_gpr_triple {i : Nat} :
    Triple (At lk m0 f m) (alloc_gpr i)
      (fun r s => ∃ f', (r = 22 + i ∧ Taken f (22 + i) f')
        ∧ At lk m0 f' m s)
      (fun s => s.free_gpr_mask.getLsbD (22 + i) = false) := by
  unfold alloc_gpr
  refine Triple.bind (Q := fun a s => a.free_gpr_mask = f ∧ At lk m0 f m s)
    (Triple.get fun s h => ⟨h.free, h⟩) fun s => ?_
  refine Triple.and_of fun hs => ?_
  dsimp only
  rw [hs]
  split
  · next hfree =>
    refine Triple.bind (Triple.modify fun s h => ?_) fun _ =>
      Triple.pure fun s h => h
    refine ⟨f &&& ~~~(1#32 <<< (22 + i)), ⟨rfl, hfree, rfl⟩,
      h.withMask ?_⟩
    rw [h.free]
  · next hused =>
    refine Triple.fail fun s h => ?_
    rw [h.free]
    simpa using hused

/-- The base of GS in X29, or where X29 points, added to the offset. -/
theorem addTlsBase_triple {p : BitVec 64} {seg inner : Nat}
    (hp : m.reg 29 = p) (hseg : seg ≠ 31) (hne : inner ≠ seg) :
    Triple (At lk m0 f m) (addTlsBase 29 seg inner)
      (fun _ => At lk m0 f
        (m.set seg (gsBase lk p m + m.reg inner))) F := by
  unfold addTlsBase
  refine Triple.bind
    (Q := fun a s => a.process = lk.process ∧ At lk m0 f m s)
    (Triple.get fun s h => ⟨h.process, h⟩) fun s => ?_
  refine Triple.and_of fun hs => ?_
  rw [hs]
  unfold gsBase
  split
  · next hv =>
    refine Triple.bind (emit_triple _) fun _ => ?_
    have hload : Arm.step m (.ldr true 6 29 seg)
        = m.set seg ((m.mem.load (p + 48) 8).setWidth 64) := by
      have hoff : m.access true 6 29 = p + 48 := by
        unfold Arm.Machine.access
        rw [Arm.regSp_of_ne (by decide), hp]
        rfl
      rw [Arm.step, hoff]
      rfl
    have hadd : Arm.step
        (m.set seg ((m.mem.load (p + 48) 8).setWidth 64))
        (.addSubShifted true false inner 0 seg seg)
        = m.set seg ((m.mem.load (p + 48) 8).setWidth 64
            + m.reg inner) := by
      rw [step_add, Arm.reg_set_self hseg, Arm.reg_set_of_ne hne,
        Arm.set_set]
      rfl
    rw [hload, ← hadd]
    exact emit_triple _
  · have hadd : Arm.step m (.addSubShifted true false inner 0 29 seg)
        = m.set seg (p + m.reg inner) := by
      rw [step_add, hp]
      rfl
    rw [← hadd]
    exact emit_triple _

theorem addGsBase_triple {p : BitVec 64} {seg inner : Nat}
    (hp : GetTlsBase lk p) (hf : InPool f) (hseg : f.getLsbD seg = false)
    (hinner : f.getLsbD inner = false) (hne : inner ≠ seg)
    (hseg31 : seg ≠ 31) (hseg30 : seg ≠ 30) (hinner30 : inner ≠ 30) :
    Triple (At lk m0 f m) (addGsBase seg inner)
      (fun _ s => ∃ m', (m'.reg seg = gsBase lk p m + m.reg inner
          ∧ Arm.Keeps (fun q => q = seg ∨ q = 29 ∨ q = 30) m m')
        ∧ At lk m0 f m' s)
      (fun s => s.free_gpr_mask.getLsbD 29 = false) := by
  unfold addGsBase
  refine Triple.bind alloc_gpr_triple fun r => ?_
  refine Triple.exists fun f' ⟨hr, ht⟩ => ?_
  subst hr
  have hseg29 : seg ≠ 29 := by
    rintro rfl
    have hwas : f.getLsbD 29 = true := ht.was
    rw [hwas] at hseg
    cases hseg
  have hinner29 : inner ≠ 29 := by
    rintro rfl
    have hwas : f.getLsbD 29 = true := ht.was
    rw [hwas] at hinner
    cases hinner
  refine Triple.bind bl_triple fun _ => ?_
  have hk := hp.keeps m
  refine Triple.bind (addTlsBase_triple (hp.result m) hseg31 hne) fun _ => ?_
  refine (free_gpr_pool ht hf).conseq (fun _ h => h)
    (fun _ s h => ⟨_, ⟨?_, ?_⟩, h⟩) fun _ h => h
  · rw [Arm.reg_set_self hseg31, hk.reg inner (by omega)]
    unfold gsBase
    rw [hk.mem]
  · refine Arm.Keeps.set (hk.mono ?_) (.inl rfl)
    rintro q (rfl | rfl)
    · exact .inr (.inl rfl)
    · exact .inr (.inr rfl)

-- ============================================================ the claim

/-- A segment override: none, FS or GS. -/
def SegmentOk (lk : Link) (p : BitVec 64) (op : IROperand) : Prop :=
  op.segOverride = 0 ∨ (op.segOverride = 1 ∧ InContext lk)
    ∨ (op.segOverride = 2 ∧ GetTlsBase lk p)

/-- The ways to find no register. -/
def NoRegister (op : IROperand) (s : AsmState) : Prop :=
  Exhausted s ∨ (op.segOverride = 2 ∧ s.free_gpr_mask.getLsbD 29 = false)

/-- A base and an offset, by segment. -/
def segmentSum (lk : Link) (p : BitVec 64) (m : Arm.Machine) (w : Bool)
    (op : IROperand) (offset : BitVec 64) : BitVec 64 :=
  if op.segOverride = 1 then Arm.narrow w (fsBase lk m + offset)
  else gsBase lk p m + offset

/-- The bases do not depend on what computing an offset may change. -/
theorem segmentSum_keeps {touched : Nat → Prop} {m' : Arm.Machine}
    {p offset : BitVec 64} (h : Arm.Keeps touched m m')
    (h18 : ¬touched 18) :
    segmentSum lk p m' w op offset = segmentSum lk p m w op offset := by
  unfold segmentSum fsBase gsBase
  rw [h.mem, h.reg 18 h18]

/-- Either base. -/
theorem addSegmentBase_triple {p : BitVec 64} {seg inner : Nat}
    (h0 : op.segOverride ≠ 0) (hok : SegmentOk lk p op) (hf : InPool f)
    (hseg : f.getLsbD seg = false) (hinner : f.getLsbD inner = false)
    (hne : inner ≠ seg) (hb : 22 ≤ seg ∧ seg ≤ 29)
    (hi : inner < 16 ∨ (22 ≤ inner ∧ inner ≤ 29)) :
    Triple (At lk m0 f m) (addSegmentBase w op.segOverride seg inner)
      (fun _ s => ∃ m', (m'.reg seg
            = segmentSum lk p m w op (m.reg inner)
          ∧ Arm.Keeps (fun q => q = seg
              ∨ (op.segOverride = 2 ∧ (q = 29 ∨ q = 30))) m m')
        ∧ At lk m0 f m' s)
      (NoRegister op) := by
  unfold addSegmentBase segmentSum
  have hseg31 : seg ≠ 31 := by omega
  rcases hok with hz | ⟨hfs, hctx⟩ | ⟨hgs, hp⟩
  · exact absurd hz h0
  · rw [if_pos hfs, if_pos hfs]
    refine (addFsBase_triple (F := NoRegister op) hctx hseg31 hne).conseq
      (fun _ h => h) (fun _ s h => ⟨_, ⟨?_, ?_⟩, h⟩) fun _ h => h
    · exact Arm.reg_set_self hseg31
    · exact (Arm.Keeps.refl m).set (.inl rfl)
  · have h1 : op.segOverride ≠ 1 := by
      rw [hgs]
      decide
    rw [if_neg h1, if_pos hgs, if_neg h1]
    refine (addGsBase_triple hp hf hseg hinner hne hseg31 (by omega)
      (by omega)).conseq (fun _ h => h) ?_ fun _ h => .inr ⟨hgs, h⟩
    rintro _ s ⟨m', ⟨hv, hk⟩, h⟩
    refine ⟨m', ⟨hv, hk.mono ?_⟩, h⟩
    rintro q (hq | hq)
    · exact .inl hq
    · exact .inr ⟨hgs, hq⟩

/-- The address of an operand: the offset at the width of the address,
and the segment's base. FS's base is added at that width too. -/
def linearAddress (lk : Link) (p : BitVec 64) (m : Arm.Machine) (w : Bool)
    (op : IROperand) : BitVec 64 :=
  let offset := Arm.narrow w (operandOffset lk m.reg op)
  if op.segOverride = 0 then offset else segmentSum lk p m w op offset

/-- The registers that code for an address may change: those free, the
one asked for, and what a call of the runtime changes. -/
def Touched (f : BitVec 32) (dst : Nat) (op : IROperand) (q : Nat) : Prop :=
  f.getLsbD q = true ∨ q = dst
    ∨ (op.segOverride = 2 ∧ (q = 29 ∨ q = 30))

/-- A register that holds an address, and what became of the others. -/
structure Addressed (dst : Nat) (f : BitVec 32) (op : IROperand)
    (m : Arm.Machine) (v : BitVec 64) (r : Nat) (f' : BitVec 32)
    (m' : Arm.Machine) : Prop where
  value : m'.reg r = v
  keeps : Arm.Keeps (Touched f dst op) m m'
  net : f' = f ∨ Taken f r f'

theorem kindAddress_clear (w : Bool) (op : IROperand) (dst : Nat) :
    kindAddress w { op with segOverride := 0 } dst
      = kindAddress w op dst := rfl

theorem compute_operand_address_triple {p : BitVec 64} {is_64bit : Bool}
    (hf : InPool f) (hdst : Hint f dst) (hs : Scaled op)
    (hk : HasAddress op) (hseg : SegmentOk lk p op) :
    Triple (At lk m0 f m) (compute_operand_address is_64bit op dst)
      (fun r s => ∃ f' m', Addressed dst f op m
          (linearAddress lk p m (is_64bit && op.reg = 3) op) r f' m'
        ∧ At lk m0 f' m' s)
      (NoRegister op) := by
  unfold compute_operand_address
  dsimp only
  have hwidth : ((is_64bit && decide (op.reg = 3)) && decide (op.reg = 3))
      = (is_64bit && decide (op.reg = 3)) := by
    cases is_64bit <;> simp
  rw [kindAddress_clear, hwidth]
  generalize hw : (is_64bit && decide (op.reg = 3)) = w
  have hinner : Yields lk m0 dst f m
      (Arm.narrow w (operandOffset lk m.reg op)) (kindAddress w op dst) :=
    kindAddress_yields hf hdst hs hk
  by_cases h0 : op.segOverride = 0
  · rw [if_pos h0]
    refine hinner.conseq (fun _ h => h) ?_ fun _ h => .inl h
    rintro r s ⟨f', m', hh, h⟩
    refine ⟨f', m', ⟨?_, hh.keeps.mono ?_, ?_⟩, h⟩
    · rw [hh.value, linearAddress, if_pos h0]
    · rintro q (hq | hq)
      · exact .inl hq
      · exact .inr (.inl hq)
    · rcases hh.owned with ⟨-, hff⟩ | ⟨-, ht⟩ | ⟨-, hff⟩
      · exact .inl hff
      · exact .inr ht
      · exact .inl hff
  · rw [if_neg h0]
    refine Triple.bind (hinner.failTo fun _ h => .inl h) fun r => ?_
    refine Triple.exists₂ fun f1 m1 hh => ?_
    have hr := hh.owned.bounds hf hdst hh.ne
    have hgone := hh.owned.gone hf hdst hh.ne
    refine Triple.bind (alloc_free_gpr_triple.failTo fun _ h => .inl h)
      fun seg => ?_
    refine Triple.exists fun f2 ht => ?_
    have hf1 := hh.owned.inPool hf
    have hb := ht.bounds hf1
    have hne : r ≠ seg := by
      rintro rfl
      rw [ht.was] at hgone
      cases hgone
    -- the base is added, and the offset's register given back
    refine Triple.bind (addSegmentBase_triple (p := p) (w := w) h0 hseg
      (ht.inPool hf1) ht.gone (ht.keepsGone hgone) hne hb hr) fun _ => ?_
    refine Triple.exists fun m2 ⟨hv, hk2⟩ => ?_
    refine Triple.bind (hh.owned.release hf hh.ne ht) fun _ => ?_
    refine Triple.exists fun f3 ht3 => Triple.pure fun s h => ?_
    refine ⟨f3, m2, ⟨?_, ?_, .inr ht3⟩, h⟩
    · rw [hv, hh.value]
      unfold linearAddress
      rw [if_neg h0]
      apply segmentSum_keeps hh.keeps
      rintro (hfree | hd)
      · have := pool_bounds (hf 18 hfree)
        omega
      · subst hd
        rcases hdst with hlt | h31 | ⟨hp, -⟩
        · omega
        · omega
        · have := pool_bounds hp
          omega
    · refine (hh.keeps.mono ?_).trans (hk2.mono ?_)
      · rintro q (hq | hq)
        · exact .inl hq
        · exact .inr (.inl hq)
      · rintro q (rfl | hq)
        · exact .inl ht3.was
        · exact .inr (.inr hq)

/-- In the guest's terms: its integer registers are in `x0` to `x15`. -/
theorem operandOffset_holds {g : Guest} (hg : Holds g m)
    (op : IROperand) :
    operandOffset lk m.reg op = operandOffset lk g.regs op := by
  have hreg : ∀ r, m.reg (regIndex r) = g.regs (regIndex r) :=
    fun r => hg.reg _ (regIndex_lt r)
  unfold operandOffset
  rw [hreg, hreg]

/-- The code for an address leaves the address in the register returned,
whatever register was asked for: offset at the width of the address, and
base of the segment. The guest's other registers and its memory are as
they were, and of the scratch registers at most the one returned is taken.
If there is no such register, the pool is empty, or X29 is in use where
the runtime answers in it. -/
theorem compute_operand_address_linear (lk : Link) (g : Guest)
    (p : BitVec 64) (m0 : Arm.Machine) (s : AsmState) (is_64bit : Bool)
    (op : IROperand) (dst : Nat) {m : Arm.Machine}
    (hat : At lk m0 s.free_gpr_mask m s) (hg : Holds g m)
    (hpool : InPool s.free_gpr_mask) (hdst : Hint s.free_gpr_mask dst)
    (hs : Scaled op) (hk : HasAddress op) (hseg : SegmentOk lk p op) :
    (∀ r s', compute_operand_address is_64bit op dst s = (some r, s') →
        (s'.exec lk m0).reg r
            = (let offset := Arm.narrow (is_64bit && op.reg = 3)
                (operandOffset lk g.regs op)
              if op.segOverride = 0 then offset
              else if op.segOverride = 1 then
                Arm.narrow (is_64bit && op.reg = 3)
                  (fsBase lk m + offset)
              else gsBase lk p m + offset)
          ∧ (∀ q < 16, q ≠ dst → (s'.exec lk m0).reg q = g.regs q)
          ∧ (s'.exec lk m0).mem = g.mem
          ∧ (s'.free_gpr_mask = s.free_gpr_mask
            ∨ Taken s.free_gpr_mask r s'.free_gpr_mask))
      ∧ ∀ s', compute_operand_address is_64bit op dst s = (none, s') →
        NoRegister op s' := by
  have ht : Triple (At lk m0 _ m) (compute_operand_address is_64bit op dst)
      _ _ := compute_operand_address_triple hpool hdst hs hk hseg
  constructor
  · intro r s' hrun
    obtain ⟨f', m', had, h⟩ := ht.of_some hat hrun
    rw [h.ran, h.free]
    refine ⟨?_, ?_, ?_, had.net⟩
    · rw [had.value]
      unfold linearAddress segmentSum
      rw [operandOffset_holds hg op]
    · intro q hq hne
      rw [had.keeps.reg q, hg.reg q hq]
      rintro (hfree | hd | ⟨-, h29 | h30⟩)
      · have := pool_bounds (hpool q hfree)
        omega
      · exact hne hd
      · omega
      · omega
    · rw [had.keeps.mem, hg.mem]
  · intro s' hrun
    exact ht.of_none hat hrun

/-- A process for examples: one word of memory is all ones, the runtime
answers 5, and every register holds its own number. -/
def sampleLink : Link where
  process := ⟨0, 0x10⟩
  address _ := 0
  routine _ m := m.set 29 5

def sampleMachine : Arm.Machine where
  x r := BitVec.ofNat 64 r
  sp := 0
  mem a := if a < 0x100 then 0xFF else 0

def sampleGuest : Guest :=
  { Guest.blank with
    regs := fun r => BitVec.ofNat 64 r
    mem := sampleMachine.mem }

def sampleState : AsmState :=
  { free_gpr_mask := kGprScratchMask, process := sampleLink.process }

/-- `gs:[rcx + rdx * 8 - 3]`, asked for in the register of its index. -/
def sampleGs : IROperand :=
  ⟨.memRef, .s64, 3, 2, 3, 1, 2, 3, -3⟩

/-- Under GS, 5 being the base: 5 + 1 + 2 * 8 - 3. -/
theorem compute_operand_address_gs :
    (((compute_operand_address true sampleGs 2) sampleState).2.exec
      sampleLink sampleMachine).reg 22 = 19 := by
  have hlink : GetTlsBase sampleLink 5 := by
    refine ⟨fun m => Arm.reg_set_self (by decide), fun m => ?_⟩
    have hkeep : Arm.Keeps (fun r => r = 29 ∨ r = 30) m m :=
      Arm.Keeps.refl m
    exact hkeep.set (.inl rfl)
  have hat : At sampleLink sampleMachine sampleState.free_gpr_mask
      sampleMachine sampleState :=
    ⟨rfl, rfl, rfl, by decide, by decide⟩
  have hg : Holds sampleGuest sampleMachine := by
    refine ⟨fun r hr => ?_, rfl⟩
    exact if_neg (by omega)
  exact ((compute_operand_address_linear sampleLink sampleGuest 5
    sampleMachine sampleState true sampleGs 2 hat hg (fun _ h => h)
    (.inl (by decide)) (Nat.le_refl 3) (.inl rfl)
    (.inr (.inr ⟨rfl, hlink⟩))).1 22 _
      (Prod.ext (by decide) rfl)).1.trans (by decide)

/-- `fs:[ecx]` with a base of 0xFFFFFFFF: the sum wraps at 4 GiB, and is
not the base plus the offset. -/
theorem fs_wraps :
    let op : IROperand := ⟨.memRef, .s32, 2, 1, 1, 1, 0, 0, 0⟩
    let r := (compute_operand_address true op 31) sampleState
    (r.2.exec sampleLink sampleMachine).reg (r.1.getD 31)
      ≠ fsBase sampleLink sampleMachine
        + Arm.narrow false
            (operandOffset sampleLink sampleMachine.reg op) := by
  decide

end Asm

end X87Sidecar
