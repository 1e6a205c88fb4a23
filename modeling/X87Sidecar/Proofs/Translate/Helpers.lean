/-
The stack helpers do what the units say.

First the words the code computes: the slot at a depth, its key, its tag's
mask. Then the state in memory under each of the stores there are, and what
a stretch of instructions leaves alone.
-/
import X87Sidecar.Translate.Lowered
import X87Sidecar.Proofs.Translate.Permute

namespace X87Sidecar.Helpers

open Lib Lib.Cpu Lines

-- =============================================================== words

/-- The number of a slot in a register. -/
abbrev slotWord (p : BitVec 3) : BitVec 64 := p.setWidth 64

theorem setWidth_narrow (v : BitVec 64) :
    (Arm.narrow false v).setWidth 3 = v.setWidth 3 := by
  show ((v.setWidth 32).setWidth 64).setWidth 3 = _
  rw [BitVec.setWidth_setWidth_of_le _ (by decide),
    BitVec.setWidth_setWidth_of_le _ (by decide)]

/-- Masks of low bits. -/
theorem low_mask {n : Nat} (imms : BitVec 6) (h : imms.toNat + 1 = n)
    (hn : n < 32) (v : BitVec 64) :
    Arm.narrow false (v &&& Arm.decodeBitMask false 0 imms)
      = (v.setWidth n).setWidth 64 := by
  have hlen : Nat.log2 (63 - imms.toNat) = 5 :=
    (Nat.log2_eq_iff (by omega)).mpr ⟨by omega, by omega⟩
  apply BitVec.eq_of_getLsbD_eq
  intro i hi
  unfold Arm.decodeBitMask
  simp only [Arm.narrow, Bool.false_eq_true, if_false,
    BitVec.getLsbD_setWidth, BitVec.getLsbD_and, Arm.getLsbD_ofBits _ hi]
  have hzero : (0 : BitVec 6).toNat = 0 := rfl
  rw [hzero]
  by_cases hin : i < n
  · simp [hin, hi, hlen, show i < 32 by omega]
    omega
  · by_cases h32 : i < 32
    · simp [hin, hi, h32, hlen]
      omega
    · simp [hin, h32]

/-- `AND` with 7. -/
theorem and_seven (v : BitVec 64) :
    Arm.narrow false (v &&& Arm.decodeBitMask false 0 2)
      = slotWord (v.setWidth 3) :=
  low_mask 2 rfl (by decide) v

/-- A depth or a constant added to TOP. -/
theorem top_add (t : BitVec 3) (n : BitVec 64) :
    Arm.narrow false (Arm.narrow false (slotWord t + n)
        &&& Arm.decodeBitMask false 0 2)
      = slotWord (t + n.setWidth 3) := by
  rw [and_seven, setWidth_narrow, BitVec.setWidth_add _ _ (by decide),
    BitVec.setWidth_setWidth_of_le _ (by decide), BitVec.setWidth_eq]

theorem top_sub (t : BitVec 3) (n : BitVec 64) :
    Arm.narrow false (Arm.narrow false (slotWord t - n)
        &&& Arm.decodeBitMask false 0 2)
      = slotWord (t - n.setWidth 3) := by
  rw [and_seven, setWidth_narrow]
  congr 1
  apply BitVec.eq_of_toNat_eq
  simp only [BitVec.toNat_setWidth, BitVec.toNat_sub]
  omega

/-- `UBFIZ #1, #3` and `ADD, LSL #2`: ten times a slot's number. -/
theorem native_key (v : BitVec 64) :
    let w := Arm.narrow false (Arm.bitfieldEval 32 false 31 2 v)
    Arm.narrow false (w + w <<< 2)
      = BitVec.ofNat 64 (10 * (v.setWidth 3).toNat) := by
  have hall : ∀ p : BitVec 3, Arm.narrow false
      (Arm.narrow false (slotWord p <<< 1)
        + (Arm.narrow false (slotWord p <<< 1)) <<< 2)
      = BitVec.ofNat 64 (10 * p.toNat) := by
    decide
  exact hall (v.setWidth 3)

/-- Eight times a slot's number. -/
theorem compact_key (p : BitVec 3) :
    Arm.narrow false (Arm.bitfieldEval 32 false 29 28 (slotWord p))
      = BitVec.ofNat 64 (8 * p.toNat) := by
  revert p
  decide

/-- Twice a slot's number: where its tag stands. -/
theorem tag_position (p : BitVec 3) :
    Arm.narrow false (Arm.bitfieldEval 32 false 31 30 (slotWord p))
      = BitVec.ofNat 64 (2 * p.toNat) := by
  revert p
  decide

/-- The mask of a slot's tag. -/
theorem tag_mask (p : BitVec 3) :
    Arm.narrow false ((3#64) <<< ((BitVec.ofNat 64 (2 * p.toNat)).toNat
        % 32))
      = (tagMask p).setWidth 64 := by
  revert p
  decide

/-- `BFI`: a field of the low bits put at a position. -/
theorem getLsbD_bfi {lsb imms : Nat} (h0 : 0 < lsb) (h : lsb + imms < 32)
    (v old : BitVec 64) {k : Nat} (hk : k < 32) :
    (Arm.narrow false (bfmEval 32 (32 - lsb) imms v old)).getLsbD k
      = if lsb ≤ k ∧ k ≤ lsb + imms then v.getLsbD (k - lsb)
        else old.getLsbD k := by
  have hones : ∀ i, (BitVec.ofNat 64 (2 ^ (imms + 1) - 1)).getLsbD i
      = decide (i ≤ imms) := by
    intro i
    rw [BitVec.getLsbD_ofNat, Nat.testBit_two_pow_sub_one,
      ← Bool.decide_and]
    exact decide_eq_decide.mpr (by omega)
  show ((BitVec.setWidth 32 _).setWidth 64).getLsbD k = _
  rw [BitVec.getLsbD_setWidth, BitVec.getLsbD_setWidth,
    decide_eq_true (show k < 64 by omega), decide_eq_true hk,
    Bool.true_and, Bool.true_and]
  unfold bfmEval
  dsimp only
  rw [if_neg (by omega), show 32 - (32 - lsb) = lsb by omega,
    BitVec.getLsbD_or, BitVec.getLsbD_and, BitVec.getLsbD_and,
    BitVec.getLsbD_not, BitVec.getLsbD_shiftLeft, BitVec.getLsbD_shiftLeft,
    hones, decide_eq_true (show k < 64 by omega)]
  by_cases hlo : k < lsb
  · rw [if_neg (by omega)]
    simp [hlo]
  · by_cases hhi : k ≤ lsb + imms
    · rw [if_pos (by omega)]
      simp [hlo, show k - lsb ≤ imms by omega]
    · rw [if_neg (by omega)]
      simp [hlo, show ¬ k - lsb ≤ imms by omega]

-- ===================================================== the state in memory

/-- The last two bytes of a slot. -/
def slotTail (w : BitVec 80) : BitVec 16 := (w >>> 64).setWidth 16

/-- Where a slot starts. -/
def slotOff (native : Bool) (p : BitVec 3) : Nat :=
  if native then 6 + 10 * p.toNat else 8 + 8 * p.toNat

/-- Memory has the status word, the tag word and the slots of a machine;
of a slot, the compact layout has the double. -/
structure State (native : Bool) (mem : Mem 64) (base : BitVec 64)
    (m : Machine) : Prop where
  sw : mem.load (base + BitVec.ofNat 64 2) 2 = m.guest.sw
  tw : mem.load (base + BitVec.ofNat 64 4) 2 = m.tw
  slot : ∀ p, mem.load (base + BitVec.ofNat 64 (slotOff native p)) 8
    = slotF64 (m.slot p)
  tail : native = true → ∀ p,
    mem.load (base + BitVec.ofNat 64 (slotOff native p + 8)) 2
      = slotTail (m.slot p)

theorem slotTail_slotWithF64 (w : BitVec 80) (v : BitVec 64) :
    slotTail (slotWithF64 w v) = slotTail w := by
  unfold slotTail slotWithF64
  apply BitVec.eq_of_getLsbD_eq
  intro i hi
  simp only [BitVec.getLsbD_setWidth, BitVec.getLsbD_ushiftRight,
    BitVec.getLsbD_or, BitVec.getLsbD_and, BitVec.getLsbD_not,
    BitVec.getLsbD_allOnes]
  simp [hi, show 64 + i < 80 by omega]

section
variable {native : Bool} {mem : Mem 64} {base : BitVec 64} {m : Machine}

theorem slotOff_le (p : BitVec 3) :
    6 ≤ slotOff native p ∧ slotOff native p + 8 ≤ 84 := by
  have := p.isLt
  cases native <;> simp only [slotOff, if_true, if_false,
    Bool.false_eq_true] <;> omega

/-- Slots do not overlap, with their last two bytes where they have
them. -/
theorem slotOff_apart {p q : BitVec 3} (h : p ≠ q) :
    slotOff native p + (if native then 10 else 8) ≤ slotOff native q
      ∨ slotOff native q + (if native then 10 else 8)
        ≤ slotOff native p := by
  have hne : p.toNat ≠ q.toNat := fun e => h (BitVec.eq_of_toNat_eq e)
  cases native <;> simp only [slotOff, if_true, if_false,
    Bool.false_eq_true] <;> omega

/-- A store at one offset and a load at another. -/
theorem load_store_offset (i j n k : Nat) (v : BitVec (8 * n))
    (h : i + n ≤ j ∨ j + k ≤ i) (hi : i + n ≤ 100) (hj : j + k ≤ 100) :
    (mem.store (base + BitVec.ofNat 64 i) n v).load
        (base + BitVec.ofNat 64 j) k
      = mem.load (base + BitVec.ofNat 64 j) k :=
  Mem.load_store_of_disjoint
    (Mem.disjoint_offsets h (by omega) (by omega))

theorem State.storeSw (h : State native mem base m) (v : BitVec 16) :
    State native (mem.store (base + BitVec.ofNat 64 2) 2 v) base
      (m.setSw v) := by
  have hkeep : ∀ j k, 4 ≤ j → j + k ≤ 100 →
      (mem.store (base + BitVec.ofNat 64 2) 2 v).load
          (base + BitVec.ofNat 64 j) k
        = mem.load (base + BitVec.ofNat 64 j) k :=
    fun j k hj hk => load_store_offset 2 j 2 k v (.inl hj) (by omega) hk
  constructor
  · exact Mem.load_store_self (by decide)
  · rw [hkeep 4 2 (by omega) (by omega)]
    exact h.tw
  · intro p
    have := @slotOff_le native p
    rw [hkeep _ 8 (by omega) (by omega)]
    exact h.slot p
  · intro hn p
    have := @slotOff_le native p
    rw [hkeep _ 2 (by omega) (by omega)]
    exact h.tail hn p

theorem State.storeTw (h : State native mem base m) (v : BitVec 16) :
    State native (mem.store (base + BitVec.ofNat 64 4) 2 v) base
      { m with tw := v } := by
  have hkeep : ∀ j k, 6 ≤ j ∨ j + k ≤ 4 → j + k ≤ 100 →
      (mem.store (base + BitVec.ofNat 64 4) 2 v).load
          (base + BitVec.ofNat 64 j) k
        = mem.load (base + BitVec.ofNat 64 j) k :=
    fun j k hj hk => load_store_offset 4 j 2 k v hj (by omega) hk
  constructor
  · rw [hkeep 2 2 (by omega) (by omega)]
    exact h.sw
  · exact Mem.load_store_self (by decide)
  · intro p
    have := @slotOff_le native p
    rw [hkeep _ 8 (by omega) (by omega)]
    exact h.slot p
  · intro hn p
    have := @slotOff_le native p
    rw [hkeep _ 2 (by omega) (by omega)]
    exact h.tail hn p

/-- A double stored in a slot. -/
theorem State.storeSlot (h : State native mem base m) (p : BitVec 3)
    (v : BitVec 64) :
    State native (mem.store (base + BitVec.ofNat 64 (slotOff native p)) 8 v)
      base (m.setF64 p v) := by
  have hp := @slotOff_le native p
  have hkeep : ∀ j k, slotOff native p + 8 ≤ j ∨ j + k ≤ slotOff native p →
      j + k ≤ 100 →
      (mem.store (base + BitVec.ofNat 64 (slotOff native p)) 8 v).load
          (base + BitVec.ofNat 64 j) k
        = mem.load (base + BitVec.ofNat 64 j) k :=
    fun j k hj hk => load_store_offset _ j 8 k v hj (by omega) hk
  have hslot : ∀ q, (m.setF64 p v).slot q
      = if q = p then slotWithF64 (m.slot p) v else m.slot q := by
    intro q
    show Function.update m.slot p _ q = _
    rw [Function.update_apply]
  constructor
  · rw [hkeep 2 2 (by omega) (by omega)]
    exact h.sw
  · rw [hkeep 4 2 (by omega) (by omega)]
    exact h.tw
  · intro q
    rw [hslot]
    by_cases hq : q = p
    · rw [hq, if_pos rfl, Permute.slotF64_slotWithF64]
      exact Mem.load_store_self (by decide)
    · have hle := @slotOff_le native q
      have hap := @slotOff_apart native p q (Ne.symm hq)
      rw [if_neg hq, hkeep _ 8 (by split at hap <;> omega) (by omega),
        h.slot q]
  · intro hn q
    have hle := @slotOff_le native q
    rw [hslot]
    by_cases hq : q = p
    · rw [hq, if_pos rfl, slotTail_slotWithF64,
        hkeep _ 2 (by omega) (by omega), h.tail hn p]
    · have hap := @slotOff_apart native p q (Ne.symm hq)
      rw [if_pos hn] at hap
      rw [if_neg hq, hkeep _ 2 (by omega) (by omega), h.tail hn q]

/-- Ten bytes stored in a slot. -/
theorem State.storeImage (h : State true mem base m) (p : BitVec 3)
    (w : BitVec 80) :
    State true ((mem.store (base + BitVec.ofNat 64 (slotOff true p)) 8
        (slotF64 w)).store (base + BitVec.ofNat 64 (slotOff true p + 8)) 2
        (slotTail w)) base (m.setSlot p w) := by
  have hp := @slotOff_le true p
  have hs := h.storeSlot p (slotF64 w)
  generalize mem.store (base + BitVec.ofNat 64 (slotOff true p)) 8
    (slotF64 w) = mem' at hs
  have hkeep : ∀ j k, slotOff true p + 10 ≤ j
      ∨ j + k ≤ slotOff true p + 8 → j + k ≤ 100 →
      (mem'.store (base + BitVec.ofNat 64 (slotOff true p + 8)) 2
          (slotTail w)).load (base + BitVec.ofNat 64 j) k
        = mem'.load (base + BitVec.ofNat 64 j) k :=
    fun j k hj hk => load_store_offset _ j 2 k _ hj (by omega) hk
  have hslot : ∀ q, (m.setSlot p w).slot q
      = if q = p then w else m.slot q := by
    intro q
    show Function.update m.slot p _ q = _
    rw [Function.update_apply]
  have hslot' : ∀ q, (m.setF64 p (slotF64 w)).slot q
      = if q = p then slotWithF64 (m.slot p) (slotF64 w)
        else m.slot q := by
    intro q
    show Function.update m.slot p _ q = _
    rw [Function.update_apply]
  constructor
  · rw [hkeep 2 2 (by omega) (by omega)]
    exact hs.sw
  · rw [hkeep 4 2 (by omega) (by omega)]
    exact hs.tw
  · intro q
    have hle := @slotOff_le true q
    rw [hslot]
    by_cases hq : q = p
    · rw [hq, if_pos rfl, hkeep _ 8 (by omega) (by omega), hs.slot p,
        hslot', if_pos rfl, Permute.slotF64_slotWithF64]
    · have hap := @slotOff_apart true p q (Ne.symm hq)
      rw [if_pos rfl] at hap
      rw [if_neg hq, hkeep _ 8 (by omega) (by omega), hs.slot q, hslot',
        if_neg hq]
  · intro _ q
    have hle := @slotOff_le true q
    rw [hslot]
    by_cases hq : q = p
    · rw [hq, if_pos rfl]
      exact Mem.load_store_self (by decide)
    · have hap := @slotOff_apart true p q (Ne.symm hq)
      rw [if_pos rfl] at hap
      rw [if_neg hq, hkeep _ 2 (by omega) (by omega), hs.tail rfl q,
        hslot', if_neg hq]

/-- Memory that agrees where the state is. -/
theorem State.of_parts {m' : Machine} (h : State native mem base m)
    (hsw : m'.guest.sw = m.guest.sw) (htw : m'.tw = m.tw)
    (hslot : m'.slot = m.slot) : State native mem base m' where
  sw := h.sw.trans hsw.symm
  tw := h.tw.trans htw.symm
  slot p := by rw [hslot, h.slot]
  tail hn p := by rw [hslot, h.tail hn]

end

/-- Nothing but the status word, the tag word and the slots was
written. -/
def Within (base : BitVec 64) (mem mem' : Mem 64) : Prop :=
  ∀ x, Mem.offset base x < 2 ∨ 86 ≤ Mem.offset base x → mem' x = mem x

theorem Within.refl (base : BitVec 64) (mem : Mem 64) :
    Within base mem mem := fun _ _ => rfl

theorem Within.trans {base : BitVec 64} {a b c : Mem 64}
    (h : Within base a b) (h' : Within base b c) : Within base a c :=
  fun x hx => (h' x hx).trans (h x hx)

theorem within_store {base : BitVec 64} {mem : Mem 64} (j n : Nat)
    (v : BitVec (8 * n)) (hj : 2 ≤ j) (hn : j + n ≤ 86) :
    Within base mem (mem.store (base + BitVec.ofNat 64 j) n v) := by
  intro x hx
  apply Mem.store_of_le
  unfold Mem.offset at hx ⊢
  have hsub : x - (base + BitVec.ofNat 64 j)
      = (x - base) - BitVec.ofNat 64 j := by
    exact sub_add_eq_sub_sub _ _ _
  rw [hsub, BitVec.toNat_sub, BitVec.toNat_ofNat]
  have := (x - base).isLt
  omega

-- ================================================== what code leaves alone

/-- These registers were written at most, and no flags. -/
structure Wrote (ws ds : List Nat) (c c' : Cpu) : Prop where
  reg : ∀ r, r ∉ ws → c'.reg r = c.reg r
  d : ∀ r, r ∉ ds → c'.d r = c.d r
  flags : c'.flags = c.flags
  flush : c'.flush = c.flush

section
variable {ws ds : List Nat} {a b c : Cpu}

theorem Wrote.refl : Wrote ws ds c c :=
  ⟨fun _ _ => rfl, fun _ _ => rfl, rfl, rfl⟩

theorem Wrote.mono {ws' ds' : List Nat} (h : Wrote ws ds a b)
    (hws : ws ⊆ ws') (hds : ds ⊆ ds') : Wrote ws' ds' a b :=
  { h with
    reg := fun r hr => h.reg r fun e => hr (hws e)
    d := fun r hr => h.d r fun e => hr (hds e) }

theorem Wrote.trans (h : Wrote ws ds a b) (h' : Wrote ws ds b c) :
    Wrote ws ds a c where
  reg r hr := (h'.reg r hr).trans (h.reg r hr)
  d r hr := (h'.d r hr).trans (h.d r hr)
  flags := h'.flags.trans h.flags
  flush := h'.flush.trans h.flush

end

/-- What an instruction may write. -/
def Instr.Writes (ws ds : List Nat) : Instr → Prop
  | .cpu i => (∀ r ∈ i.dest, r ∈ ws) ∧ (∀ r ∈ i.destD, r ∈ ds)
      ∧ i.setsFlags = false ∧ i.setsFlush = false
  | .ldrFp _ _ _ _ rt => rt ∈ ds
  | .strFp _ _ _ _ _ => True

/-- The instruction writes memory. -/
def Instr.stores : Instr → Bool
  | .cpu i => i.stores
  | .ldrFp _ _ _ _ _ => false
  | .strFp _ _ _ _ _ => true

section
variable {ws ds : List Nat} {code : Code} {c : Cpu}

theorem wrote_step {i : Instr} (h : i.Writes ws ds) :
    Wrote ws ds c (step c i) := by
  cases i with
  | cpu i =>
      obtain ⟨hx, hd, hf, hz⟩ := h
      refine ⟨fun r hr => ?_, fun r hr => ?_, step_flags hf, step_flush hz⟩
      · exact step_reg_of_ne fun e => hr (hx r e)
      · exact step_d fun e => hr (hd r e)
  | ldrFp size rm shift rn rt =>
      refine ⟨fun r _ => reg_setD, fun r hr => d_setD_of_ne ?_, rfl, rfl⟩
      rintro rfl
      exact hr h
  | strFp => exact ⟨fun _ _ => rfl, fun _ _ => rfl, rfl, rfl⟩

theorem wrote_run (h : ∀ i ∈ code, i.Writes ws ds) :
    Wrote ws ds c (run code c) := by
  induction code generalizing c with
  | nil => exact .refl
  | cons i code ih =>
      exact (wrote_step (h i List.mem_cons_self)).trans
        (ih fun j hj => h j (List.mem_cons_of_mem _ hj))

theorem mem_run (h : ∀ i ∈ code, i.stores = false) :
    (run code c).mem = c.mem := by
  induction code generalizing c with
  | nil => rfl
  | cons i code ih =>
      have hi := h i List.mem_cons_self
      refine (ih fun j hj => h j (List.mem_cons_of_mem _ hj)).trans ?_
      cases i with
      | cpu i => exact step_mem hi
      | ldrFp => rfl
      | strFp => cases hi

end

@[simp] theorem lines_nil : lines [] = [] := rfl

@[simp] theorem lines_insn (i : Cpu.Op) (l : List (Line Fist.NoLabel)) :
    lines (.insn i :: l) = .cpu i :: lines l := rfl

@[simp] theorem lines_append (a b : List (Line Fist.NoLabel)) :
    lines (a ++ b) = lines a ++ lines b :=
  List.filterMap_append ..

-- ================================================ registers and values

/-- An image as its two registers have it. -/
def imageParts (w : BitVec 80) : BitVec 64 × BitVec 64 :=
  (slotF64 w, (slotTail w).setWidth 64)

/-- What the registers of an image hold. -/
def Holder.read (c : Cpu) : Holder → BitVec 64 × BitVec 64
  | .fp d h => (c.d d, c.d h)
  | .gpr x w => (c.reg x, c.reg w)

/-- The key of a slot: its number, or where it is from the pinned address
or the base. -/
def keyWord (native pinned : Bool) (p : BitVec 3) : BitVec 64 :=
  BitVec.ofNat 64 (if native then
      (if pinned then 10 * p.toNat else 10 * p.toNat + 6)
    else if pinned then p.toNat else 8 * p.toNat + 8)

/-- Only the x87 state and the translator's registers were written. -/
structure Aside (ρ : Regs) (c c' : Cpu) : Prop where
  mem : Within (c.reg ρ.base) c.mem c'.mem
  reg : ∀ r, r ∉ ρ.pool → c'.reg r = c.reg r
  d : ∀ r, r ∉ ρ.fpool → c'.d r = c.d r
  flags : c'.flags = c.flags
  flush : c'.flush = c.flush

/-- The instructions' machine has the machine of the units: its state in
memory, its registers where the places say, and its guest in whatever way
`G` says. -/
structure Holds (ρ : Regs) (G : Guest → Cpu → Prop) (P : Places)
    (m : Machine) (c : Cpu) : Prop where
  state : State ρ.native c.mem (c.reg ρ.base) m
  thread : c.reg kX87ThreadReg + BitVec.ofNat 64 ρ.offset = c.reg ρ.base
  st : ∀ s ∈ ρ.st, c.reg s
    = c.reg ρ.base + BitVec.ofNat 64 (if ρ.native then 6 else 8)
  top : P.top = true → c.reg ρ.top = slotWord m.wTop
  x : P.x.Holds c.reg m.scratch.x
  cc : ∀ x, P.cc x = true →
    (m.scratch.x x).setWidth 16 &&& ~~~ccMask = 0
  d : P.d.Holds c.d m.scratch.d
  key : P.key.Holds c.reg fun k =>
    keyWord ρ.native ρ.st.isSome (m.scratch.key k)
  q : P.q.Holds (Holder.read c) fun i => imageParts (m.scratch.q i)
  hold : ∀ d h, P.hold = some (d, h) →
    c.d d = slotF64 m.hold
      ∧ ∀ r ∈ h, c.d r = (slotTail m.hold).setWidth 64
  guest : G m.guest.hideSw c

section
variable {ρ : Regs} {G : Guest → Cpu → Prop} {P : Places} {m m' : Machine}
  {c c' : Cpu} {ws ds : List Nat}

/-- The registers that stay through a run. -/
def Regs.fixed (ρ : Regs) : List Nat :=
  [kX87ThreadReg, ρ.base] ++ ρ.st.toList

/-- Some registers were written, TOP's perhaps among them, and the state in
memory is another machine's. -/
theorem Holds.wroteTop (h : Holds ρ G P m c) (hw : Wrote ws ds c c')
    (hG : ∀ g c c', Aside ρ c c' → G g c → G g c')
    (hfixed : ∀ r ∈ ρ.fixed, r ∉ ws) (hpool : ws ⊆ ρ.pool)
    (hfpool : ds ⊆ ρ.fpool)
    (hwithin : Within (c.reg ρ.base) c.mem c'.mem)
    (hstate : State ρ.native c'.mem (c.reg ρ.base) m')
    (hs : m'.scratch = m.scratch) (hh : m'.hold = m.hold)
    (hg : m'.guest.hideSw = m.guest.hideSw) {b : Bool}
    (htop : b = true → c'.reg ρ.top = slotWord m'.wTop) :
    Holds ρ G { P.wrote ws ds with top := b } m' c' := by
  have hreg : ∀ r ∈ ρ.fixed, c'.reg r = c.reg r := fun r hr =>
    hw.reg r (hfixed r hr)
  have hbase : c'.reg ρ.base = c.reg ρ.base := hreg _ (by simp [Regs.fixed])
  have hread : ∀ r, ws.contains r = false → c'.reg r = c.reg r := by
    intro r hr
    exact hw.reg r (by simpa using hr)
  have hreadD : ∀ r, ds.contains r = false → c'.d r = c.d r := by
    intro r hr
    exact hw.d r (by simpa using hr)
  constructor
  · rw [hbase]
    exact hstate
  · rw [hbase, hreg _ (by simp [Regs.fixed])]
    exact h.thread
  · intro s hst
    rw [hbase, hreg s (List.mem_append_right _
      (Option.mem_toList.mpr hst))]
    exact h.st s hst
  · exact htop
  · rw [hs]
    exact h.x.drop hread
  · rw [hs]
    exact h.cc
  · rw [hs]
    exact h.d.drop hreadD
  · rw [hs]
    exact h.key.drop hread
  · rw [hs]
    refine h.q.drop fun r hr => ?_
    cases r with
    | fp d h =>
        simp only [Holder.uses, Bool.or_eq_false_iff] at hr
        exact Prod.ext (hreadD d hr.1) (hreadD h hr.2)
    | gpr x w =>
        simp only [Holder.uses, Bool.or_eq_false_iff] at hr
        exact Prod.ext (hread x hr.1) (hread w hr.2)
  · intro d r hp
    obtain ⟨hp, hkeep⟩ := Option.filter_eq_some_iff.mp hp
    rw [Bool.and_eq_true, Bool.not_eq_true', Bool.not_eq_true'] at hkeep
    obtain ⟨h1, h2⟩ := h.hold d r hp
    rw [hh, hreadD d hkeep.1]
    refine ⟨h1, fun q hq => ?_⟩
    rw [hreadD q ?_]
    · exact h2 q hq
    · obtain rfl : r = some q := hq
      simpa using hkeep.2
  · rw [hg]
    refine hG _ _ _ ⟨hwithin, fun r hr => ?_, fun r hr => ?_, hw.flags,
      hw.flush⟩ h.guest
    · exact hw.reg r fun e => hr (hpool e)
    · exact hw.d r fun e => hr (hfpool e)

/-- Some registers were written, none of them TOP's. -/
theorem Holds.wrote (h : Holds ρ G P m c) (hw : Wrote ws ds c c')
    (hG : ∀ g c c', Aside ρ c c' → G g c → G g c')
    (hres : ∀ r ∈ ρ.reserved, r ∉ ws) (hpool : ws ⊆ ρ.pool)
    (hfpool : ds ⊆ ρ.fpool)
    (hwithin : Within (c.reg ρ.base) c.mem c'.mem)
    (hstate : State ρ.native c'.mem (c.reg ρ.base) m')
    (hs : m'.scratch = m.scratch) (hh : m'.hold = m.hold)
    (hg : m'.guest.hideSw = m.guest.hideSw) (ht : m'.wTop = m.wTop) :
    Holds ρ G (P.wrote ws ds) m' c' := by
  refine h.wroteTop hw hG (fun r hr => hres r ?_) hpool hfpool hwithin
    hstate hs hh hg (b := P.top) fun hp => ?_
  · simp only [Regs.fixed, Regs.reserved, List.mem_append, List.mem_cons]
      at hr ⊢
    tauto
  · rw [ht, hw.reg _ (hres _ (by simp [Regs.reserved]))]
    exact h.top hp

end

end X87Sidecar.Helpers
