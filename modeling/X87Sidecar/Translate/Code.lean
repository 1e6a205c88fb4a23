/-
The code a reply is made of and the machine it runs on.

An instruction of this module is what one helper of the translator emits
as a unit: a few ARM instructions that load TOP, move a slot or change
the tag word. The machine is the guest, the x87 state in memory (control
and status word in the guest, tag word, eight slots) and the registers
the code computes in: TOP's own, FP registers, integer registers, pairs
holding a ten-byte image, and keys, which hold the address of a slot.

A slot is 80 bits wide whichever layout the reply works in. The binary64
working value is its low 64 bits; in the compact layout the other sixteen
are never looked at.
-/
import X87Sidecar.Lib.Emit
import X87Sidecar.Machine.Guest
import X87Sidecar.Translate.Cache

namespace X87Sidecar

open Lib

-- ====================================================== the tag word

/-- The two tag bits of a slot. -/
def tagMask (s : BitVec 3) : BitVec 16 := 3#16 <<< (2 * s.toNat)

/-- The tag of a slot; 3 is empty. -/
def tagOf (tw : BitVec 16) (s : BitVec 3) : BitVec 2 :=
  tw.extractLsb' (2 * s.toNat) 2

/-- Tag a slot valid (`emit_x87_tag_clear`). -/
def tagClear (tw : BitVec 16) (s : BitVec 3) : BitVec 16 :=
  tw &&& ~~~tagMask s

/-- Tag a slot empty. -/
def tagSetEmpty (tw : BitVec 16) (s : BitVec 3) : BitVec 16 :=
  tw ||| tagMask s

/-- The slots that `count` pops in a row left behind, the first one
first: `(TOP - count) & 7` up to `(TOP - 1) & 7`. -/
def poppedSlots (top : BitVec 3) (count : Nat) : List (BitVec 3) :=
  (List.range count).map fun i => top - BitVec.ofNat 3 (count - i)

/-- The slots from TOP on that an `n`-fold pop leaves behind. -/
def nextSlots (top : BitVec 3) (n : Nat) : List (BitVec 3) :=
  (List.range n).map fun i => top + BitVec.ofNat 3 i

/-- `emit_x87_tag_set_empty_batch`. -/
def tagSetEmptyBatch (tw : BitVec 16) (top : BitVec 3) (count : Nat) :
    BitVec 16 :=
  (poppedSlots top count).foldl tagSetEmpty tw

theorem getLsbD_tagMask (s : BitVec 3) (j : Nat) :
    (tagMask s).getLsbD j = decide (j / 2 = s.toNat) := by
  have hs := s.isLt
  have hthree : ∀ i, (3#16).getLsbD i = decide (i < 2) := by
    intro i
    rcases i with _ | _ | i
    · rfl
    · rfl
    · show Nat.testBit 3 (i + 2) = _
      rw [Nat.testBit_lt_two_pow]
      · simp
      · exact Nat.lt_of_lt_of_le (by decide : 3 < 2 ^ 2)
          (Nat.pow_le_pow_right (by decide) (by omega))
  unfold tagMask
  rw [BitVec.getLsbD_shiftLeft, hthree]
  by_cases h : j / 2 = s.toNat
  · simp [h]
    omega
  · simp [h]
    omega

theorem getLsbD_tagOf (tw : BitVec 16) (s : BitVec 3) {i : Nat}
    (hi : i < 2) :
    (tagOf tw s).getLsbD i = tw.getLsbD (2 * s.toNat + i) := by
  simp [tagOf, hi]

theorem tagOf_tagClear (tw : BitVec 16) (s t : BitVec 3) :
    tagOf (tagClear tw s) t = if t = s then 0 else tagOf tw t := by
  have ht := t.isLt
  apply BitVec.eq_of_getLsbD_eq
  intro i hi
  rw [getLsbD_tagOf _ _ hi]
  unfold tagClear
  rw [BitVec.getLsbD_and, BitVec.getLsbD_not, getLsbD_tagMask]
  have hdiv : (2 * t.toNat + i) / 2 = t.toNat := by omega
  rw [hdiv]
  by_cases h : t = s
  · simp [h]
  · have hne : t.toNat ≠ s.toNat := fun he => h (BitVec.eq_of_toNat_eq he)
    simp [h, hne, getLsbD_tagOf _ _ hi]
    omega

theorem tagOf_tagSetEmpty (tw : BitVec 16) (s t : BitVec 3) :
    tagOf (tagSetEmpty tw s) t = if t = s then 3 else tagOf tw t := by
  apply BitVec.eq_of_getLsbD_eq
  intro i hi
  rw [getLsbD_tagOf _ _ hi]
  unfold tagSetEmpty
  rw [BitVec.getLsbD_or, getLsbD_tagMask]
  have hdiv : (2 * t.toNat + i) / 2 = t.toNat := by omega
  rw [hdiv]
  by_cases h : t = s
  · subst h
    interval_cases i <;> simp
  · have hne : t.toNat ≠ s.toNat := fun he => h (BitVec.eq_of_toNat_eq he)
    simp [h, hne, getLsbD_tagOf _ _ hi]

/-- A tag word is its eight tags. -/
theorem tagOf_ext {a b : BitVec 16} (h : ∀ s, tagOf a s = tagOf b s) :
    a = b := by
  apply BitVec.eq_of_getLsbD_eq
  intro i hi
  have hlt : i % 2 < 2 := Nat.mod_lt _ (by decide)
  have hidx : 2 * (BitVec.ofNat 3 (i / 2)).toNat + i % 2 = i := by
    rw [BitVec.toNat_ofNat]
    omega
  have hbit := congrArg (fun v => v.getLsbD (i % 2))
    (h (BitVec.ofNat 3 (i / 2)))
  simp only [getLsbD_tagOf _ _ hlt] at hbit
  rwa [hidx] at hbit

theorem tagOf_foldl_tagSetEmpty (l : List (BitVec 3)) (tw : BitVec 16)
    (t : BitVec 3) :
    tagOf (l.foldl tagSetEmpty tw) t = if t ∈ l then 3 else tagOf tw t := by
  induction l generalizing tw with
  | nil => simp
  | cons s l ih =>
      rw [List.foldl_cons, ih, tagOf_tagSetEmpty]
      by_cases hl : t ∈ l
      · simp [hl]
      · by_cases hs : t = s <;> simp [hl, hs]

/-- One more pop deferred is one more slot to mark. -/
theorem poppedSlots_succ (top : BitVec 3) (n : Nat) :
    poppedSlots (top + 1) (n + 1) = poppedSlots top n ++ [top] := by
  unfold poppedSlots
  rw [List.range_succ, List.map_append]
  congr 1
  · apply List.map_congr_left
    intro i hi
    have hlt : i < n := List.mem_range.mp hi
    have hsub : n + 1 - i = (n - i) + 1 := by omega
    rw [hsub, BitVec.ofNat_add]
    show top + 1 - (BitVec.ofNat 3 (n - i) + 1) = _
    bv_omega
  · show [top + 1 - BitVec.ofNat 3 (n + 1 - n)] = [top]
    rw [Nat.add_sub_cancel_left]
    simp

/-- TOP itself is among the slots left behind once there are eight. -/
theorem top_mem_poppedSlots (top : BitVec 3) (n : Nat) :
    top ∈ poppedSlots top n ↔ 8 ≤ n := by
  unfold poppedSlots
  rw [List.mem_map]
  constructor
  · intro h
    obtain ⟨i, hi, he⟩ := h
    have hlt : i < n := List.mem_range.mp hi
    have hzero : (BitVec.ofNat 3 (n - i)).toNat = 0 := by
      have : BitVec.ofNat 3 (n - i) = 0 := by bv_omega
      rw [this]
      rfl
    rw [BitVec.toNat_ofNat] at hzero
    omega
  · intro h
    refine ⟨n - 8, List.mem_range.mpr (by omega), ?_⟩
    have hsub : n - (n - 8) = 8 := by omega
    rw [hsub]
    simp

-- ======================================================= the machine

/-- The operations of the emitters on binary64 patterns, and on the
80-bit ones. -/
structure Fp80 extends Fp (BitVec 64) where
  /-- `emit_f80_bits_to_f64` -/
  ofF80 : BitVec 80 → BitVec 64
  /-- the same with `round_to_odd` -/
  ofF80Odd : BitVec 80 → BitVec 64
  /-- `emit_f64_to_f80`, `emit_f64_bits_to_f80` -/
  toF80 : BitVec 64 → BitVec 80
  /-- `emit_i64_to_f80_slot` -/
  f80OfI64 : BitVec 64 → BitVec 80
  /-- `emit_f80_slot_to_int` under a rounding-control value, to the given
  number of bits -/
  f80ToInt : BitVec 2 → Nat → BitVec 80 → BitVec 64
  /-- the body of `translate_fbld` -/
  ofBcd : BitVec 80 → BitVec 64
  /-- the body of `translate_fbstp` -/
  toBcd : BitVec 2 → BitVec 64 → BitVec 80
  /-- the two results of `translate_fxtract` -/
  xtractExp : BitVec 64 → BitVec 64
  xtractSig : BitVec 64 → BitVec 64
  exp2m1 : BitVec 64 → BitVec 64
  /-- `yl2xp1 y x` -/
  yl2xp1 : BitVec 64 → BitVec 64 → BitVec 64
  prem : BitVec 64 → BitVec 64 → BitVec 64
  prem1 : BitVec 64 → BitVec 64 → BitVec 64

/-- Operations that keep 0.0 and 1.0 and otherwise give +0.0 and compare
unordered. -/
def Fp80.blank : Fp80 where
  ofF32 _ := 0
  ofF64 v := v
  ofI16 _ := 0
  ofI32 _ := 0
  ofI64 _ := 0
  toF32 _ := 0
  toF64 v := v
  toI16 _ _ := 0
  toI32 _ _ := 0
  toI64 _ _ := 0
  zero := 0
  one := 0x3FF0000000000000
  add _ _ := 0
  sub _ _ := 0
  mul _ _ := 0
  div _ _ := 0
  fma _ _ _ := 0
  fms _ _ _ := 0
  fnms _ _ _ := 0
  neg _ := 0
  abs _ := 0
  sqrt _ := 0
  rndint _ _ := 0
  sin _ := 0
  cos _ := 0
  tan _ := 0
  patan _ _ := 0
  yl2x _ _ := 0
  scale _ _ := 0
  cmp _ _ := .un
  ofF80 _ := 0
  ofF80Odd _ := 0
  toF80 _ := 0
  f80OfI64 _ := 0
  f80ToInt _ _ _ := 0
  ofBcd _ := 0
  toBcd _ _ := 0
  xtractExp _ := 0
  xtractSig _ := 0
  exp2m1 _ := 0
  yl2xp1 _ _ := 0
  prem _ _ := 0
  prem1 _ _ := 0

/-- The registers the code computes in, by number. -/
structure Scratch where
  /-- FP registers -/
  d : Nat → BitVec 64
  /-- integer registers -/
  x : Nat → BitVec 64
  /-- ten-byte images -/
  q : Nat → BitVec 80
  /-- keys: the slot whose address a register holds -/
  key : Nat → BitVec 3

namespace Scratch

/-- Write an FP register. -/
def setD (s : Scratch) (r : Nat) (v : BitVec 64) : Scratch :=
  { s with d := Function.update s.d r v }

/-- Write an integer register. -/
def setX (s : Scratch) (r : Nat) (v : BitVec 64) : Scratch :=
  { s with x := Function.update s.x r v }

/-- Write an image. -/
def setQ (s : Scratch) (r : Nat) (v : BitVec 80) : Scratch :=
  { s with q := Function.update s.q r v }

/-- Write a key. -/
def setKey (s : Scratch) (k : Nat) (p : BitVec 3) : Scratch :=
  { s with key := Function.update s.key k p }

end Scratch

/-- The machine. -/
structure Machine where
  guest : Guest
  tw : BitVec 16
  slot : BitVec 3 → BitVec 80
  /-- TOP's register -/
  wTop : BitVec 3
  scratch : Scratch
  /-- the register pair that a permutation flush rotates through -/
  hold : BitVec 80

/-- The binary64 half of a slot. -/
def slotF64 (w : BitVec 80) : BitVec 64 := w.setWidth 64

/-- A slot with its binary64 half written. -/
def slotWithF64 (w : BitVec 80) (v : BitVec 64) : BitVec 80 :=
  (w &&& ~~~(BitVec.allOnes 64).setWidth 80) ||| v.setWidth 80

/-- What a computation gets to see of the guest: all but the status
word, which only the instructions below read and write. -/
def Guest.hideSw (g : Guest) : Guest := { g with sw := 0 }

/-- One emitted unit. -/
inductive Insn
  /-- `emit_load_top` -/
  | loadTop
  /-- `emit_store_top` -/
  | storeTop
  /-- TOP's register changed by a constant, modulo 8 -/
  | addTop (k : BitVec 3)
  /-- TOP's register set to 0 (`translate_fsave`) -/
  | zeroTop
  /-- TOP's register taken from a status word (`translate_frstor`) -/
  | topOfX (x : Nat)
  /-- `emit_x87_tag_clear` -/
  | tagClear
  /-- the slot at a depth tagged empty -/
  | tagSetEmpty (d : Depth)
  /-- `emit_x87_tag_set_empty_batch` -/
  | tagSetEmptyBatch (count : Nat)
  /-- the tag updates of `emit_x87_pop_n` -/
  | tagSetEmptyNext (n : Nat)
  /-- `emit_load_st`: the key stays in `k` -/
  | ldSt (d : Depth) (k r : Nat)
  /-- `emit_store_st` -/
  | stSt (d : Depth) (r : Nat)
  /-- `emit_store_st_at_offset` -/
  | stKey (k r : Nat)
  /-- a slot's ten bytes loaded -/
  | ldImage (d : Depth) (q : Nat)
  /-- and stored -/
  | stImage (d : Depth) (q : Nat)
  /-- a slot taken into the rotation, as ten bytes or as its binary64 -/
  | save (image : Bool) (d : Depth)
  /-- a slot copied to another -/
  | move (image : Bool) (dst src : Depth)
  /-- the rotation's first slot put down -/
  | restore (image : Bool) (d : Depth)
  /-- the status word loaded -/
  | ldSw (x : Nat)
  /-- and stored -/
  | stSw (x : Nat)
  /-- the tag word loaded -/
  | ldTw (x : Nat)
  /-- and stored -/
  | stTw (x : Nat)
  /-- the tag of the slot at TOP loaded (`translate_fxam`) -/
  | ldTag (x : Nat)
  /-- TOP's register copied to an integer register -/
  | ldTop (x : Nat)
  /-- the condition codes replaced (`emit_fcom_cc_write_sw`) -/
  | ccWrite (x : Nat)
  /-- guest memory, guest registers and arithmetic -/
  | compute (f : Guest → Scratch → Guest × Scratch)

/-- A machine at rest with a tag word. -/
def Machine.blank (tw : BitVec 16) : Machine where
  guest := .blank
  tw := tw
  slot _ := 0
  wTop := 0
  scratch := ⟨fun _ => 0, fun _ => 0, fun _ => 0, fun _ => 0⟩
  hold := 0

namespace Machine

/-- The slot at a depth from TOP's register. -/
def phys (m : Machine) (d : Depth) : BitVec 3 := m.wTop + d

/-- Write the status word. -/
def setSw (m : Machine) (sw : BitVec 16) : Machine :=
  { m with guest := { m.guest with sw } }

/-- Write a slot. -/
def setSlot (m : Machine) (p : BitVec 3) (w : BitVec 80) : Machine :=
  { m with slot := Function.update m.slot p w }

/-- Write the binary64 half of a slot. -/
def setF64 (m : Machine) (p : BitVec 3) (v : BitVec 64) : Machine :=
  m.setSlot p (slotWithF64 (m.slot p) v)

/-- Write a slot, all of it or its binary64 half. -/
def put (m : Machine) (image : Bool) (p : BitVec 3) (w : BitVec 80) :
    Machine :=
  if image then m.setSlot p w else m.setF64 p (slotF64 w)

/-- Compute. -/
def compute (m : Machine) (f : Guest → Scratch → Guest × Scratch) :
    Machine :=
  let r := f m.guest.hideSw m.scratch
  { m with guest := { r.1 with sw := m.guest.sw }, scratch := r.2 }

end Machine

/-- What an emitted unit does. -/
def Insn.exec (m : Machine) : Insn → Machine
  | .loadTop => { m with wTop := topOf m.guest.sw }
  | .storeTop => m.setSw (withTop m.guest.sw m.wTop)
  | .addTop k => { m with wTop := m.wTop + k }
  | .zeroTop => { m with wTop := 0 }
  | .topOfX x => { m with wTop := topOf ((m.scratch.x x).setWidth 16) }
  | .tagClear => { m with tw := X87Sidecar.tagClear m.tw m.wTop }
  | .tagSetEmpty d =>
      { m with tw := X87Sidecar.tagSetEmpty m.tw (m.phys d) }
  | .tagSetEmptyBatch n =>
      { m with tw := X87Sidecar.tagSetEmptyBatch m.tw m.wTop n }
  | .tagSetEmptyNext n =>
      { m with
        tw := (nextSlots m.wTop n).foldl X87Sidecar.tagSetEmpty m.tw }
  | .ldSt d k r =>
      { m with
        scratch := (m.scratch.setKey k (m.phys d)).setD r
          (slotF64 (m.slot (m.phys d))) }
  | .stSt d r => m.setF64 (m.phys d) (m.scratch.d r)
  | .stKey k r => m.setF64 (m.scratch.key k) (m.scratch.d r)
  | .ldImage d q =>
      { m with scratch := m.scratch.setQ q (m.slot (m.phys d)) }
  | .stImage d q => m.setSlot (m.phys d) (m.scratch.q q)
  | .save _ d => { m with hold := m.slot (m.phys d) }
  | .move image dst src => m.put image (m.phys dst) (m.slot (m.phys src))
  | .restore image d => m.put image (m.phys d) m.hold
  | .ldSw x =>
      { m with scratch := m.scratch.setX x (m.guest.sw.setWidth 64) }
  | .stSw x => m.setSw ((m.scratch.x x).setWidth 16)
  | .ldTw x => { m with scratch := m.scratch.setX x (m.tw.setWidth 64) }
  | .stTw x => { m with tw := (m.scratch.x x).setWidth 16 }
  | .ldTag x =>
      { m with
        scratch := m.scratch.setX x ((tagOf m.tw m.wTop).setWidth 64) }
  | .ldTop x => { m with scratch := m.scratch.setX x (m.wTop.setWidth 64) }
  | .ccWrite x =>
      m.setSw (withCC m.guest.sw ((m.scratch.x x).setWidth 16))
  | .compute f => m.compute f

/-- Run a stretch of code. -/
abbrev exec (code : List Insn) (m : Machine) : Machine :=
  runCode Insn.exec code m

end X87Sidecar
