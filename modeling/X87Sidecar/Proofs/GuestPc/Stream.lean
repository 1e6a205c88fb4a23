/-
The bit reader of the map decoder.

Over a map in memory it reads the bits in order, and what it decodes is
what was encoded (`Takes`). Two readers that hand out the same bytes
decode the same, however they come by them (`Lockstep`). No loop of it
runs longer than there are bits left.
-/
import X87Sidecar.GuestPc.Resolve
import X87Sidecar.GuestPc.Encode
import X87Sidecar.Lib.Parse

namespace X87Sidecar.GuestPc

open Lib Lib.Keep

-- ============================================================ bits ahead

/-- Bit `n` of a stream. -/
def bitAt (data : Bytes) (n : Nat) : Bool :=
  (data (n / 8)).getLsbD (n % 8)

/-- Where a reader is, in bits. -/
def BitReader.at (br : BitReader) : Nat := 8 * br.pos + br.bit

/-- The bits a reader of `size` bytes in memory still has to give. -/
def Ahead (data : Bytes) (size : Nat) (br : BitReader) (l : List Bool) :
    Prop :=
  br.stream = .memory data ∧ br.size = size ∧ br.bit < 8
    ∧ br.at ≤ 8 * size
    ∧ l = (List.range' br.at (8 * size - br.at)).map (bitAt data)

variable {data : Bytes} {size : Nat}

theorem Ahead.length {br : BitReader} {l : List Bool}
    (h : Ahead data size br l) :
    l.length = br.bitsLeft ∧ br.at + l.length = 8 * size := by
  obtain ⟨-, hsize, hbit, hat, rfl⟩ := h
  unfold BitReader.at at hat
  unfold BitReader.bitsLeft BitReader.at
  rw [hsize]
  simp only [List.length_map, List.length_range']
  omega

/-- A bit as the number that is read. -/
def bitValue (b : Bool) : BitVec 32 := if b then 1 else 0

theorem getLsbD_bitValue (b : Bool) (j : Nat) :
    (bitValue b).getLsbD j = (b && decide (j = 0)) := by
  cases b <;> simp [bitValue, BitVec.getLsbD_one]

/-- One bit of a byte, taken out the way the code does. -/
theorem byte_bit (byte : BitVec 8) (i : Nat) :
    (byte >>> i &&& 1).setWidth 32 = bitValue (byte.getLsbD i) := by
  apply BitVec.eq_of_getLsbD_eq
  intro j hj
  rw [getLsbD_bitValue, BitVec.getLsbD_setWidth, BitVec.getLsbD_and,
    BitVec.getLsbD_ushiftRight, show (1 : BitVec 8) = 1#8 from rfl,
    BitVec.getLsbD_one]
  by_cases h : j = 0
  · subst h
    simp
  · simp [h]

/-- The next bit, while there is one. -/
theorem readBit_takes (b : Bool) :
    Takes (Ahead data size) readBit [b] (bitValue b) := by
  intro br rest h
  have hlen := h.length.2
  obtain ⟨hstream, hsize, hbit, hat, hl⟩ := h
  obtain ⟨n, hn⟩ : ∃ n, 8 * size - br.at = n + 1 := by
    refine ⟨rest.length, ?_⟩
    simp only [List.length_append, List.length_singleton] at hlen
    omega
  have hpos : br.pos < br.size := by
    unfold BitReader.at at hn
    omega
  rw [hn, List.range'_succ, List.map_cons] at hl
  have hb : b = bitAt data br.at := (List.cons.inj hl).1
  have hbyte : byteAt br.pos br = (some (data br.pos), br) := by
    unfold byteAt
    rw [if_neg (by omega), hstream]
  have hnext : br.next.stream = br.stream ∧ br.next.size = br.size
      ∧ br.next.bit < 8 ∧ br.next.at = br.at + 1 := by
    unfold BitReader.next BitReader.at
    split
    · refine ⟨rfl, rfl, ?_, ?_⟩ <;> dsimp only <;> omega
    · refine ⟨rfl, rfl, ?_, ?_⟩ <;> dsimp only <;> omega
  obtain ⟨hstream', hsize', hbit', hat'⟩ := hnext
  refine ⟨br.next, ?_, by rw [hstream', hstream], by rw [hsize', hsize],
    hbit', by omega, ?_⟩
  · unfold readBit
    rw [bind_apply, get_apply]
    dsimp only
    rw [bind_apply, hbyte]
    dsimp only
    rw [bind_apply, modify_apply]
    dsimp only
    rw [pure_apply, byte_bit, hb]
    unfold bitAt BitReader.at
    rw [show (8 * br.pos + br.bit) / 8 = br.pos by omega,
      show (8 * br.pos + br.bit) % 8 = br.bit by omega]
  · rw [hat', show 8 * size - (br.at + 1) = n by omega]
    exact (List.cons.inj hl).2

-- ======================================================= numbers decoded

/-- A number's missing bits are read into it. -/
theorem readBits_takes (x v : BitVec 32) (n i : Nat)
    (h : ∀ j, v.getLsbD j
      = (x.getLsbD j && !(decide (i ≤ j) && decide (j < i + n)))) :
    Takes (Ahead data size) (readBits n i v) (bitsOf x i n) x := by
  induction n generalizing i v with
  | zero =>
      have hv : v = x := by
        apply BitVec.eq_of_getLsbD_eq
        intro j _
        rw [h j, ← Bool.decide_and,
          decide_eq_false (by omega : ¬(i ≤ j ∧ j < i + 0))]
        simp
      subst hv
      exact Takes.pure v
  | succ n ih =>
      show Takes (Ahead data size)
        (readBit >>= fun bit => readBits n (i + 1) (v ||| bit <<< i))
        ([x.getLsbD i] ++ bitsOf x (i + 1) n) x
      apply (readBit_takes (x.getLsbD i)).bind
      apply ih
      intro j
      rw [BitVec.getLsbD_or, BitVec.getLsbD_shiftLeft, getLsbD_bitValue, h j]
      by_cases hx : x.getLsbD j = true
      · have hj : j < 32 := BitVec.lt_of_getLsbD hx
        by_cases hji : j = i
        · subst hji
          simp [hj]
        · by_cases hlt : i ≤ j
          · have h0 : ¬ j - i = 0 := by omega
            have h1 : i + 1 ≤ j := by omega
            by_cases hn : j < i + (n + 1)
            · have hn' : j < i + 1 + n := by omega
              simp [hx, hlt, h0, h1, hn, hn']
            · have hn' : ¬ j < i + 1 + n := by omega
              simp [hx, hlt, h0, h1, hn, hn']
          · have h1 : ¬ i + 1 ≤ j := by omega
            have hji' : j < i := by omega
            simp [hx, hlt, h1, hji']
      · have hx' : x.getLsbD j = false := by simpa using hx
        by_cases hji : j = i
        · subst hji
          simp [hx']
        · by_cases hlt : j < i
          · simp [hx', hlt]
          · have h0 : ¬ j - i = 0 := by omega
            simp [hx', h0]

/-- A 32-bit escape is the number it was written from. -/
theorem raw32_takes (x : BitVec 32) :
    Takes (Ahead data size) raw32 (bitsOf x 0 32) x := by
  apply readBits_takes
  intro j
  by_cases hj : j < 32
  · simp [hj]
  · simp [BitVec.getLsbD_of_ge x j (by omega)]

/-- One turn of the unary prefix. -/
theorem unary_succ (k turns : Nat) (q : BitVec 32) :
    unary k (turns + 1) q = readBit >>= fun bit =>
      if bit = 0 then Pure.pure q
      else if 0xFFFFFFFF#32 >>> k < q + 1 then Keep.fail
      else unary k turns (q + 1) := rfl

/-- A unary prefix, the guard permitting. -/
theorem unary_takes {k turns n : Nat} {q : BitVec 32} (hturns : n < turns)
    (hq : q.toNat + n ≤ (0xFFFFFFFF#32 >>> k).toNat) :
    Takes (Ahead data size) (unary k turns q)
      (List.replicate n true ++ [false]) (q + BitVec.ofNat 32 n) := by
  induction turns generalizing n q with
  | zero => omega
  | succ turns ih =>
      rw [unary_succ]
      cases n with
      | zero =>
          show Takes (Ahead data size) _ ([false] ++ []) _
          apply (readBit_takes false).bind
          rw [if_pos (show bitValue false = 0 from rfl), BitVec.add_zero]
          exact Takes.pure q
      | succ n =>
          have hmax : (0xFFFFFFFF#32 >>> k).toNat < 2 ^ 32 := BitVec.isLt _
          have hnext : (q + 1).toNat = q.toNat + 1 := by
            rw [BitVec.toNat_add]
            show (q.toNat + 1) % 2 ^ 32 = _
            omega
          have hguard : ¬ 0xFFFFFFFF#32 >>> k < q + 1 := by
            rw [BitVec.lt_def, hnext]
            omega
          have hsum : q + BitVec.ofNat 32 (n + 1)
              = q + 1 + BitVec.ofNat 32 n := by
            rw [Nat.add_comm n 1, BitVec.ofNat_add, BitVec.add_assoc]
            rfl
          show Takes (Ahead data size) _
            ([true] ++ (List.replicate n true ++ [false])) _
          apply (readBit_takes true).bind
          rw [if_neg (show bitValue true ≠ 0 by decide), if_neg hguard, hsum]
          exact ih (by omega) (by omega)

/-- Every number is decoded from its Golomb-Rice code. -/
theorem rice_takes {k : Nat} (hk : k ≤ 31) (x : BitVec 32) :
    Takes (Ahead data size) (rice k) (riceBits k x) x := by
  intro br rest h
  have hlen := h.length.1
  have hx := x.isLt
  have hq : x.toNat >>> k ≤ (0xFFFFFFFF#32 >>> k).toNat := by
    rw [BitVec.toNat_ushiftRight, Nat.shiftRight_eq_div_pow,
      Nat.shiftRight_eq_div_pow]
    apply Nat.div_le_div_right
    show x.toNat ≤ 2 ^ 32 - 1
    omega
  have hturns : x.toNat >>> k < br.bitsLeft + 1 := by
    have : (riceBits k x ++ rest).length = br.bitsLeft := hlen
    unfold riceBits at this
    simp at this
    omega
  have hunary : Takes (Ahead data size) (unary k (br.bitsLeft + 1) 0)
      _ _ := unary_takes hturns (by simpa using hq)
  have hread : Takes (Ahead data size)
      (readBits k 0 ((0 + BitVec.ofNat 32 (x.toNat >>> k)) <<< k))
      (bitsOf x 0 k) x := by
    apply readBits_takes
    intro j
    rw [show (0 : BitVec 32) + BitVec.ofNat 32 (x.toNat >>> k)
        = BitVec.ofNat 32 (x.toNat >>> k) from BitVec.zero_add _,
      BitVec.getLsbD_shiftLeft, BitVec.getLsbD_ofNat]
    by_cases hj : j < 32
    · by_cases hjk : j < k
      · simp [hjk]
      · have hsub : j - k < 32 := by omega
        have hbit : (x.toNat >>> k).testBit (j - k) = x.getLsbD j := by
          rw [Nat.testBit_shiftRight, show k + (j - k) = j by omega]
          rfl
        simp [hj, hjk, hsub, hbit]
    · simp [hj, BitVec.getLsbD_of_ge x j (by omega)]
  exact (hunary.bind (f := fun q : BitVec 32 => readBits k 0 (q <<< k))
    hread) br rest h

-- ============================================== two readers in lockstep

/-- Readers at the same place that hand out the same bytes. -/
structure Lockstep (R : BitReader → BitReader → Prop) : Prop where
  pos : ∀ {br br'}, R br br' → br.pos = br'.pos
  bit : ∀ {br br'}, R br br' → br.bit = br'.bit
  size : ∀ {br br'}, R br br' → br.size = br'.size
  next : ∀ {br br'}, R br br' → R br.next br'.next
  byteAt : ∀ idx, Alike R (byteAt idx) (byteAt idx)

namespace Lockstep

variable {R : BitReader → BitReader → Prop} (hR : Lockstep R)

include hR

theorem bitsLeft {br br' : BitReader} (h : R br br') :
    br.bitsLeft = br'.bitsLeft := by
  unfold BitReader.bitsLeft
  rw [hR.size h, hR.pos h, hR.bit h]

theorem readBit : Alike R readBit readBit := by
  refine Alike.get fun br br' h => ?_
  rw [hR.pos h, hR.bit h]
  refine (hR.byteAt _).bind fun byte => ?_
  refine Alike.bind (m := Keep.modify BitReader.next)
    (fun s s' h => ⟨rfl, fun _ => hR.next h⟩) fun _ => Alike.pure _

theorem readBits (n i : Nat) (v : BitVec 32) :
    Alike R (readBits n i v) (readBits n i v) := by
  induction n generalizing i v with
  | zero => exact Alike.pure v
  | succ n ih => exact hR.readBit.bind fun bit => ih _ _

theorem unary (k turns : Nat) (q : BitVec 32) :
    Alike R (unary k turns q) (unary k turns q) := by
  induction turns generalizing q with
  | zero => exact Alike.fail
  | succ turns ih =>
      rw [unary_succ]
      refine hR.readBit.bind fun bit => ?_
      split
      · exact Alike.pure q
      · split
        · exact Alike.fail
        · exact ih _

theorem rice (k : Nat) : Alike R (rice k) (rice k) := by
  refine Alike.get fun br br' h => ?_
  rw [hR.bitsLeft h]
  exact (hR.unary k _ 0).bind fun q => hR.readBits k 0 _

theorem stepFlags (k2 : Nat) (selector : BitVec 32) :
    Alike R (stepFlags k2 selector) (stepFlags k2 selector) := by
  unfold GuestPc.stepFlags
  split
  · exact Alike.pure _
  · exact (hR.rice k2).bind fun extra => Alike.pure _
  · exact Alike.pure _
  · exact Alike.pure _
  · exact Alike.pure _

theorem rawDeltas : Alike R rawDeltas rawDeltas :=
  (hR.readBits 32 0 0).bind fun _ =>
    (hR.readBits 32 0 0).bind fun _ => Alike.pure _

theorem stepDeltas (k1 k2 : Nat) :
    Alike R (stepDeltas k1 k2) (stepDeltas k1 k2) := by
  refine (hR.rice k2).bind fun a => ?_
  split
  · exact (hR.rice k1).bind fun _ => Alike.pure _
  · refine (hR.rice k2).bind fun selector => ?_
    split
    · exact hR.rawDeltas.bind fun _ => Alike.pure _
    · refine (hR.stepFlags k2 _).bind fun flag => ?_
      refine (hR.rice k2).bind fun a2 => ?_
      split
      · exact (hR.rice k1).bind fun _ => Alike.pure _
      · exact hR.rawDeltas.bind fun _ => Alike.pure _

theorem step (riceK : Fin 4 → BitVec 8) (col : Column) :
    Alike R (step riceK col) (step riceK col) := by
  refine (hR.stepDeltas _ _).bind fun d => ?_
  dsimp only
  split
  · exact Alike.fail
  · exact Alike.pure _

theorem walk (riceK : Fin 4 → BitVec 8) (armOffset : BitVec 32)
    (steps : Nat) (col : Column) (best : MapPoint) :
    Alike R (walk riceK armOffset steps col best)
      (walk riceK armOffset steps col best) := by
  induction steps generalizing col best with
  | zero => exact Alike.pure best
  | succ steps ih =>
      refine (hR.step riceK col).bind fun next => ?_
      split
      · exact Alike.fail
      · split
        · exact Alike.pure best
        · exact ih _ _

/-- Two such readers walk to the same boundary. -/
theorem walkToTarget {br br' : BitReader} (h : R br br')
    (riceK : Fin 4 → BitVec 8) (chunk : DeltaMapChunk)
    (armOffset : BitVec 32) :
    walkToTarget br riceK chunk armOffset
      = walkToTarget br' riceK chunk armOffset := by
  unfold GuestPc.walkToTarget
  split
  · rfl
  · dsimp only
    rw [(hR.walk riceK armOffset _ _ _ br br' h).1]

end Lockstep

-- ================================================= no loop runs too long

/-- A byte is read without moving, and only inside the stream. -/
theorem byteAt_moves (idx : Nat) (br : BitReader) :
    (byteAt idx br).2.pos = br.pos ∧ (byteAt idx br).2.bit = br.bit
      ∧ (byteAt idx br).2.size = br.size
      ∧ ((byteAt idx br).1 ≠ none → idx < br.size) := by
  unfold byteAt
  split
  · exact ⟨rfl, rfl, rfl, fun h => absurd rfl h⟩
  · rename_i hidx
    have hlt : idx < br.size := by omega
    split
    · exact ⟨rfl, rfl, rfl, fun _ => hlt⟩
    · split
      · dsimp only
        split <;> exact ⟨rfl, rfl, rfl, fun _ => hlt⟩
      · exact ⟨rfl, rfl, rfl, fun _ => hlt⟩

/-- A turn of a loop over the stream moves on by a bit, and there was
one. -/
theorem readBit_moves {br br' : BitReader} {bit : BitVec 32}
    (h : readBit br = (some bit, br')) (hbit : br.bit < 8) :
    br'.bit < 8 ∧ br'.size = br.size ∧ br'.at = br.at + 1
      ∧ br'.bitsLeft + 1 = br.bitsLeft := by
  obtain ⟨hpos, hb, hsize, hlt⟩ := byteAt_moves br.pos br
  unfold readBit at h
  rw [bind_apply, get_apply] at h
  dsimp only at h
  rw [bind_apply] at h
  rcases hr : byteAt br.pos br with ⟨o, t⟩
  rw [hr] at h hpos hb hsize hlt
  cases o with
  | none => cases h
  | some byte =>
      dsimp only at h hpos hb hsize hlt
      rw [bind_apply, modify_apply] at h
      dsimp only at h
      rw [pure_apply] at h
      have hlt := hlt (Option.some_ne_none byte)
      obtain rfl : t.next = br' := (Prod.mk.inj h).2
      unfold BitReader.next BitReader.at BitReader.bitsLeft
      split
      · dsimp only
        omega
      · dsimp only
        omega

/-- The turns of the unary prefix never run out: more of them change
nothing. -/
theorem unary_turns {k turns : Nat} (extra : Nat) {q : BitVec 32}
    {br : BitReader} (hbit : br.bit < 8) (h : br.bitsLeft < turns) :
    unary k (turns + extra) q br = unary k turns q br := by
  induction turns generalizing q br with
  | zero => omega
  | succ turns ih =>
      rw [Nat.add_right_comm, unary_succ, unary_succ, bind_apply,
        bind_apply]
      rcases hr : readBit br with ⟨o, br'⟩
      cases o with
      | none => rfl
      | some bit =>
          obtain ⟨hbit', -, -, hleft⟩ := readBit_moves hr hbit
          dsimp only
          split
          · rfl
          · split
            · rfl
            · exact ih hbit' (by omega)

/-- Nor do those over the padding. -/
theorem zerosTo_turns {nextByte turns : Nat} (extra : Nat)
    {br : BitReader} (hbit : br.bit < 8)
    (h : 8 * nextByte ≤ br.at + turns) :
    zerosTo nextByte (turns + extra) br = zerosTo nextByte turns br := by
  induction turns generalizing br with
  | zero =>
      have hpos : ¬br.pos < nextByte := by
        unfold BitReader.at at h
        omega
      cases extra with
      | zero => rfl
      | succ extra =>
          rw [Nat.zero_add]
          unfold zerosTo
          rw [bind_apply, get_apply]
          dsimp only
          rw [if_neg hpos]
  | succ turns ih =>
      rw [Nat.add_right_comm]
      unfold zerosTo
      rw [bind_apply, bind_apply, get_apply]
      dsimp only
      split
      · rw [bind_apply, bind_apply]
        rcases hr : readBit br with ⟨o, br'⟩
        cases o with
        | none => rfl
        | some bit =>
            obtain ⟨hbit', -, hat, -⟩ := readBit_moves hr hbit
            dsimp only
            split
            · exact ih hbit' (by omega)
            · rfl
      · rfl

/-- Nor do those of the bisection. -/
theorem bisect_turns {fetch : Nat → Option DeltaMapChunk}
    {armOffset : BitVec 32} {turns : Nat} (extra : Nat) {lo hi : Nat}
    (h : hi ≤ lo + turns) :
    bisect fetch armOffset (turns + extra) lo hi
      = bisect fetch armOffset turns lo hi := by
  induction turns generalizing lo hi with
  | zero =>
      cases extra with
      | zero => rfl
      | succ extra =>
          rw [Nat.zero_add]
          unfold bisect
          rw [if_neg (by omega)]
  | succ turns ih =>
      rw [Nat.add_right_comm]
      unfold bisect
      by_cases hmore : 1 < hi - lo
      · rw [if_pos hmore, if_pos hmore]
        dsimp only
        cases fetch (lo + (hi - lo) / 2) with
        | none => rfl
        | some c =>
            dsimp only
            rw [ih (by omega), ih (by omega)]
      · rw [if_neg hmore, if_neg hmore]

end X87Sidecar.GuestPc
