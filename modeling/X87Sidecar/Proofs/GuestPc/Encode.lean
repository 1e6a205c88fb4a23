/-
What was encoded is decoded.

From the bits up: a step takes its code off the stream, the steps of a
chunk take theirs, and the padding after them is what the decoder lets
pass. The records and the header are read back from their bytes, and a
list of boundaries comes back from its map (`decodeMapChunk_encodeMap`).
-/
import X87Sidecar.Proofs.GuestPc.Decode

namespace X87Sidecar.GuestPc

open Lib Lib.Keep

variable {data : Bytes} {size : Nat} {k1 k2 : Nat}

-- =================================================================== steps

theorem rawDeltas_takes (dArm dX86 : BitVec 32) :
    Takes (Ahead data size) rawDeltas (rawBits dArm dX86) (dArm, dX86) :=
  (raw32_takes dArm).bind ((raw32_takes dX86).bind_pure)

/-- What a second byte of flags is read back as. -/
theorem flags_extra {flags : BitVec 32} (h : flags &&& 0xFFFF00FF = 1) :
    flags >>> 8 <<< 8 &&& 0xFF00 ||| 1 = flags := by
  have hsplit : flags = flags &&& 0xFF00 ||| flags &&& 0xFFFF00FF := by
    rw [← BitVec.and_or_distrib_left,
      show (0xFF00 : BitVec 32) ||| 0xFFFF00FF = BitVec.allOnes 32 from rfl,
      BitVec.and_allOnes]
  rw [BitVec.shiftLeft_ushiftRight, BitVec.and_assoc,
    show BitVec.allOnes 32 <<< 8 &&& 0xFF00 = (0xFF00 : BitVec 32) from rfl,
    ← h]
  exact hsplit.symm

/-- The selector of some flags, and what is read after it. -/
theorem stepFlags_takes (hk : k2 ≤ 31) {flags : BitVec 32}
    (hne : flags ≠ 0) (h : Encodable flags) :
    ∃ selector extra, selectorBits k2 flags = riceBits k2 selector ++ extra
      ∧ selector &&& 0xFF = selector ∧ selector ≠ 0
      ∧ Takes (Ahead data size) (stepFlags k2 selector) extra flags := by
  unfold selectorBits
  by_cases h1 : flags = 1
  · rw [if_pos h1, h1]
    exact ⟨1, [], (List.append_nil _).symm, rfl, by decide, Takes.pure 1⟩
  rw [if_neg h1]
  by_cases h2 : flags = 2
  · rw [if_pos h2, h2]
    exact ⟨3, [], (List.append_nil _).symm, rfl, by decide, Takes.pure 2⟩
  rw [if_neg h2]
  by_cases h3 : flags = 3
  · rw [if_pos h3, h3]
    exact ⟨4, [], (List.append_nil _).symm, rfl, by decide, Takes.pure 3⟩
  rw [if_neg h3]
  refine ⟨2, _, rfl, rfl, by decide, ?_⟩
  have hlow : flags &&& 0xFFFF00FF = 1 := by
    rcases h with h | h | h | h
    · exact absurd h hne
    · exact absurd h h2
    · exact absurd h h3
    · exact h
  have hread : Takes (Ahead data size) (stepFlags k2 2)
      (riceBits k2 (flags >>> 8)) (flags >>> 8 <<< 8 &&& 0xFF00 ||| 1) :=
    (rice_takes hk (flags >>> 8)).bind_pure
  rw [flags_extra hlow] at hread
  exact hread

/-- A step's deltas, with the tests of the decoder written out. -/
theorem stepDeltas_eq (k1 k2 : Nat) :
    stepDeltas k1 k2 = rice k2 >>= fun a =>
      if a ≠ 0 then rice k1 >>= fun dX86 => Pure.pure (a, dX86, 0)
      else rice k2 >>= fun selector =>
        if selector &&& 0xFF = 0 then
          rawDeltas >>= fun d => Pure.pure (d.1, d.2, 0)
        else stepFlags k2 (selector &&& 0xFF) >>= fun flag =>
          rice k2 >>= fun a2 =>
            if a2 ≠ 0 then rice k1 >>= fun dX86 => Pure.pure (a2, dX86, flag)
            else rawDeltas >>= fun d => Pure.pure (d.1, d.2, flag) := rfl

/-- The deltas of a step are read back. -/
theorem stepDeltas_takes (hk1 : k1 ≤ 31) (hk2 : k2 ≤ 31) (raw : Bool)
    {dArm : BitVec 32} (dX86 : BitVec 32) {flags : BitVec 32}
    (harm : dArm ≠ 0) (h : Encodable flags) :
    Takes (Ahead data size) (stepDeltas k1 k2)
      (stepBits k1 k2 raw dArm dX86 flags) (dArm, dX86, flags) := by
  rw [stepDeltas_eq]
  unfold stepBits
  by_cases h0 : flags = 0
  · rw [if_pos h0, h0]
    cases raw with
    | true =>
        rw [if_pos rfl]
        apply (rice_takes hk2 0).bind
        rw [if_neg (by decide)]
        apply (rice_takes hk2 0).bind
        rw [if_pos (by decide)]
        exact (rawDeltas_takes dArm dX86).bind_pure
    | false =>
        rw [if_neg Bool.false_ne_true]
        apply (rice_takes hk2 dArm).bind
        rw [if_pos harm]
        exact (rice_takes hk1 dX86).bind_pure
  · rw [if_neg h0]
    obtain ⟨selector, extra, hbits, hmask, hne, hflags⟩ :=
      @stepFlags_takes data size _ hk2 _ h0 h
    apply (rice_takes hk2 0).bind
    rw [if_neg (by decide), hbits, List.append_assoc]
    apply (rice_takes hk2 selector).bind
    rw [hmask, if_neg hne]
    apply hflags.bind
    unfold columnBits
    cases raw with
    | true =>
        rw [if_pos rfl]
        apply (rice_takes hk2 0).bind
        rw [if_neg (by decide)]
        exact (rawDeltas_takes dArm dX86).bind_pure
    | false =>
        rw [if_neg Bool.false_ne_true]
        apply (rice_takes hk2 dArm).bind
        rw [if_pos harm]
        exact (rice_takes hk1 dX86).bind_pure

/-- The column a boundary is. -/
def MapPoint.column (p : MapPoint) : Column :=
  { x86 := p.x86Offset, arm := p.armOffset, flags := p.flags }

theorem column_point {p : MapPoint} (h : p.exact = true) :
    p.column.point p.column.arm = p := by
  unfold Column.point MapPoint.column
  dsimp only
  rw [beq_self_eq_true, ← h]

/-- A whole number of instructions, taken down to it and up again. -/
theorem shift_back {d : BitVec 32} (h : 4 ∣ d.toNat) :
    d >>> 2 * 4 = d := by
  apply BitVec.eq_of_toNat_eq
  have := d.isLt
  rw [BitVec.toNat_mul, BitVec.toNat_ushiftRight, Nat.shiftRight_eq_div_pow]
  show d.toNat / 2 ^ 2 * 4 % 2 ^ 32 = d.toNat
  omega

/-- A step leads from one boundary to the next. -/
theorem step_takes (riceK : Fin 4 → BitVec 8) (hk1 : (riceK 1).toNat ≤ 31)
    (hk2 : (riceK 2).toNat ≤ 31) (raw : Bool) {p q : MapPoint}
    (hlt : p.armOffset < q.armOffset)
    (hdvd : 4 ∣ (q.armOffset - p.armOffset).toNat)
    (hmax : q.armOffset - p.armOffset ≤ kMaxFragmentSize)
    (h : Encodable q.flags) :
    Takes (Ahead data size) (step riceK p.column)
      (stepBits (riceK 1).toNat (riceK 2).toNat raw
        ((q.armOffset - p.armOffset) >>> 2) (q.x86Offset - p.x86Offset)
        q.flags) q.column := by
  generalize hd : q.armOffset - p.armOffset = d at hdvd hmax
  have hpos : d ≠ 0 := by
    rintro rfl
    have heq : q.armOffset = p.armOffset := by
      have := congrArg (· + p.armOffset) hd
      simpa using this
    rw [heq] at hlt
    exact BitVec.lt_irrefl _ hlt
  have hne : d >>> 2 ≠ 0 := by
    intro h0
    have hback := shift_back hdvd
    rw [h0] at hback
    exact hpos hback.symm
  have hle : ¬ kMaxFragmentSize / (4 : BitVec 32) < d >>> 2 := by
    rw [BitVec.lt_def, BitVec.toNat_ushiftRight,
      Nat.shiftRight_eq_div_pow]
    have hmax' : d.toNat ≤ 2 ^ 26 := hmax
    show ¬ 2 ^ 24 < d.toNat / 2 ^ 2
    omega
  unfold step
  rw [← List.append_nil (stepBits _ _ _ _ _ _)]
  apply (stepDeltas_takes hk1 hk2 raw _ hne h).bind
  dsimp only
  rw [if_neg (not_or.mpr ⟨hne, hle⟩), shift_back hdvd, ← hd]
  have hq : ({ x86 := p.column.x86 + (q.x86Offset - p.x86Offset)
               arm := p.column.arm + (q.armOffset - p.armOffset)
               flags := q.flags } : Column) = q.column := by
    unfold MapPoint.column
    dsimp only
    rw [BitVec.add_comm p.x86Offset, BitVec.sub_add_cancel,
      BitVec.add_comm p.armOffset, BitVec.sub_add_cancel]
  rw [hq]
  exact Takes.pure _

/-- The steps of a chunk lead along its boundaries. -/
theorem boundaries_takes (riceK : Fin 4 → BitVec 8)
    (hk1 : (riceK 1).toNat ≤ 31) (hk2 : (riceK 2).toNat ≤ 31)
    (raw : MapPoint → Bool) {p : MapPoint} {l : List MapPoint}
    (h : Increasing p l) :
    Takes (Ahead data size) (boundaries riceK l.length p.column)
      (stepsBits (riceK 1).toNat (riceK 2).toNat raw p l) l := by
  induction l generalizing p with
  | nil => exact Takes.pure []
  | cons q rest ih =>
      obtain ⟨hlt, hdvd, hmax, hflags, hexact, hrest⟩ := h
      apply (step_takes riceK hk1 hk2 (raw q) hlt hdvd hmax hflags).bind
      have hle : ¬ q.column.arm ≤ p.column.arm := BitVec.not_le.mpr hlt
      rw [if_neg hle]
      rw [column_point hexact]
      exact (ih hrest).bind_pure

-- ================================================================= padding

/-- Zero bits up to a byte are let pass. -/
theorem zerosTo_zeros {nextByte turns n : Nat} {br : BitReader}
    {rest : List Bool}
    (h : Ahead data size br (List.replicate n false ++ rest))
    (hat : 8 * nextByte = br.at + n) :
    (zerosTo nextByte turns br).1 = some () := by
  induction turns generalizing n br with
  | zero => rfl
  | succ turns ih =>
      obtain ⟨-, -, hbit, -, -⟩ := id h
      unfold zerosTo
      rw [bind_apply, get_apply]
      dsimp only
      cases n with
      | zero =>
          have hpos : ¬ br.pos < nextByte := by
            unfold BitReader.at at hat
            omega
          rw [if_neg hpos]
          rfl
      | succ n =>
          have hpos : br.pos < nextByte := by
            unfold BitReader.at at hat
            omega
          rw [List.replicate_succ, List.cons_append] at h
          obtain ⟨br', hr, h'⟩ := readBit_takes false br
            (List.replicate n false ++ rest) h
          have hlen := h.length.2
          have hlen' := h'.length.2
          rw [List.length_cons] at hlen
          rw [if_pos hpos, bind_apply, hr]
          exact ih h' (by omega)

/-- A chunk's steps and their padding end where the next chunk begins. -/
theorem endsAt_zeros {nextByte n : Nat} {br : BitReader}
    {rest : List Bool}
    (h : Ahead data size br (List.replicate n false ++ rest))
    (hn : n < 32) (hat : 8 * nextByte = br.at + n) :
    (endsAt nextByte br).1 = some () := by
  obtain ⟨-, -, hbit, -, -⟩ := id h
  unfold endsAt
  rw [bind_apply, get_apply]
  dsimp only
  rw [if_neg (by unfold BitReader.at at hat; omega)]
  exact zerosTo_zeros h hat

theorem padding_lt (n : Nat) : padding n < 32 :=
  Nat.mod_lt _ (by omega)

theorem chunkBits_length (k1 k2 : Nat) (raw : MapPoint → Bool)
    (c : ChunkList) :
    32 ∣ (chunkBits k1 k2 raw c).length := by
  unfold chunkBits padding
  dsimp only
  rw [List.length_append, List.length_replicate]
  omega

theorem streamBits_length (k1 k2 : Nat) (raw : MapPoint → Bool)
    (chunks : List ChunkList) :
    32 ∣ (streamBits k1 k2 raw chunks).length := by
  unfold streamBits
  induction chunks with
  | nil => exact Nat.dvd_zero 32
  | cons c rest ih =>
      rw [List.flatMap_cons, List.length_append]
      exact Nat.dvd_add (chunkBits_length k1 k2 raw c) ih

-- =================================================================== bytes

/-- A number is read back from its bytes. -/
theorem le_of_bytes {b : Bytes} {w : Nat} {x : BitVec w} {off n : Nat}
    (h : ∀ i < n, b (off + i) = (x >>> (8 * i)).setWidth 8) :
    b.le off n = x.setWidth (8 * n) := by
  induction n generalizing off x with
  | zero =>
      apply BitVec.eq_of_getLsbD_eq
      intro j hj
      omega
  | succ n ih =>
      have hrest : b.le (off + 1) n = (x >>> 8).setWidth (8 * n) := by
        apply ih
        intro i hi
        have := h (i + 1) (by omega)
        rw [show off + 1 + i = off + (i + 1) by omega, this,
          ← BitVec.shiftRight_add, show 8 + 8 * i = 8 * (i + 1) by omega]
      have hlow : b off = x.setWidth 8 := h 0 (by omega)
      unfold Bytes.le
      rw [hrest, hlow]
      apply BitVec.eq_of_getLsbD_eq
      intro j hj
      rw [BitVec.getLsbD_append, BitVec.getLsbD_setWidth,
        BitVec.getLsbD_setWidth, BitVec.getLsbD_ushiftRight]
      refine Eq.trans ?_ (BitVec.getLsbD_setWidth _ _ _).symm
      by_cases hlt : j < 8
      · simp [hlt, hj]
      · have hsub : j - 8 < 8 * n := by omega
        simp [hlt, hj, hsub, show 8 + (j - 8) = j by omega]

/-- A `uint32_t` is read back from where it was written. -/
theorem u32_of_append (before after : List (BitVec 8)) (x : BitVec 32) :
    (bufferOf (before ++ (le32 x ++ after))).u32 before.length = x := by
  have h : ∀ i < 4, bufferOf (before ++ (le32 x ++ after))
      (before.length + i) = (x >>> (8 * i)).setWidth 8 := by
    intro i hi
    unfold bufferOf
    rw [List.getD_eq_getElem?_getD, List.getElem?_append_right (by omega),
      Nat.add_sub_cancel_left]
    match i, hi with
    | 0, _ => rfl
    | 1, _ => rfl
    | 2, _ => rfl
    | 3, _ => rfl
  unfold Bytes.u32
  rw [le_of_bytes h]
  exact BitVec.setWidth_eq x

/-- A bit is read back from the byte it was packed into. -/
theorem packBits_bit {bits : List Bool} {n : Nat}
    (hn : n / 8 < bits.length / 8) :
    ((packBits bits).getD (n / 8) 0).getLsbD (n % 8)
      = bits.getD n false := by
  have hbyte : (packBits bits).getD (n / 8) 0 = packByte bits (n / 8) := by
    unfold packBits
    rw [List.getD_eq_getElem?_getD, List.getElem?_map,
      List.getElem?_range hn]
    rfl
  have hlt : n % 8 < 8 := Nat.mod_lt _ (by omega)
  rw [hbyte]
  unfold packByte
  refine BitVec.getLsbD_ofBoolListLE.trans ?_
  rw [List.getD_eq_getElem?_getD, List.getElem?_map,
    List.getElem?_range hlt, Option.map_some, Option.getD_some,
    Nat.div_add_mod]

theorem packBits_length (bits : List Bool) :
    (packBits bits).length = bits.length / 8 := by
  unfold packBits
  simp

-- ================================================================= records

theorem recordBytes_length (c : ChunkList) (streamByte : Nat) :
    (recordBytes c streamByte).length = chunkSize := rfl

theorem recordsBytes_length (k1 k2 : Nat) (raw : MapPoint → Bool)
    (streamByte : Nat) (chunks : List ChunkList) :
    (recordsBytes k1 k2 raw streamByte chunks).length
      = chunks.length * chunkSize := by
  induction chunks generalizing streamByte with
  | nil => exact (Nat.zero_mul chunkSize).symm
  | cons c rest ih =>
      unfold recordsBytes
      rw [List.length_append, recordBytes_length, ih, List.length_cons]
      unfold chunkSize
      omega

/-- The byte of the stream where a chunk begins. -/
def chunkStart (k1 k2 : Nat) (raw : MapPoint → Bool)
    (chunks : List ChunkList) (i : Nat) : Nat :=
  (streamBits k1 k2 raw (chunks.take i)).length / 8

theorem chunkStart_zero (raw : MapPoint → Bool) (chunks : List ChunkList) :
    chunkStart k1 k2 raw chunks 0 = 0 :=
  Nat.zero_div 8

/-- The stream, cut where a chunk begins. -/
theorem streamBits_split (k1 k2 : Nat) (raw : MapPoint → Bool)
    {chunks : List ChunkList} {i : Nat} (hi : i < chunks.length) :
    streamBits k1 k2 raw chunks
      = streamBits k1 k2 raw (chunks.take i)
        ++ (chunkBits k1 k2 raw (chunks.get ⟨i, hi⟩)
          ++ streamBits k1 k2 raw (chunks.drop (i + 1))) := by
  unfold streamBits
  rw [← List.flatMap_cons, ← List.flatMap_append]
  congr 1
  show chunks = chunks.take i ++ chunks[i] :: chunks.drop (i + 1)
  rw [← List.drop_eq_getElem_cons hi, List.take_append_drop]

/-- What comes before a chunk and what comes from it on. -/
theorem chunkStart_add (k1 k2 : Nat) (raw : MapPoint → Bool)
    (chunks : List ChunkList) (i : Nat) :
    8 * chunkStart k1 k2 raw chunks i
        + (streamBits k1 k2 raw (chunks.drop i)).length
      = 8 * ((streamBits k1 k2 raw chunks).length / 8) := by
  have hsplit : streamBits k1 k2 raw (chunks.take i)
      ++ streamBits k1 k2 raw (chunks.drop i)
      = streamBits k1 k2 raw chunks := by
    unfold streamBits
    rw [← List.flatMap_append, List.take_append_drop]
  have hlen := congrArg List.length hsplit
  rw [List.length_append] at hlen
  have h1 := streamBits_length k1 k2 raw (chunks.take i)
  have h2 := streamBits_length k1 k2 raw chunks
  unfold chunkStart
  omega

/-- The record of a chunk lies where the decoder looks for it. -/
theorem recordsBytes_at (k1 k2 : Nat) (raw : MapPoint → Bool)
    (streamByte : Nat) (chunks : List ChunkList) {i : Nat}
    (hi : i < chunks.length) :
    ∃ before after, recordsBytes k1 k2 raw streamByte chunks
        = before ++ (recordBytes (chunks.get ⟨i, hi⟩)
          (streamByte + chunkStart k1 k2 raw chunks i) ++ after)
      ∧ before.length = i * chunkSize := by
  induction i generalizing streamByte chunks with
  | zero =>
      cases chunks with
      | nil => cases hi
      | cons c rest =>
          rw [chunkStart_zero]
          exact ⟨[], _, rfl, (Nat.zero_mul chunkSize).symm⟩
  | succ i ih =>
      cases chunks with
      | nil => cases hi
      | cons c rest =>
          have hi' : i < rest.length := Nat.lt_of_succ_lt_succ hi
          obtain ⟨before, after, hrest, hlen⟩ := ih
            (streamByte + (chunkBits k1 k2 raw c).length / 8) rest hi'
          have hstart : chunkStart k1 k2 raw (c :: rest) (i + 1)
              = (chunkBits k1 k2 raw c).length / 8
                + chunkStart k1 k2 raw rest i := by
            have h1 := streamBits_length k1 k2 raw
              (rest.take i)
            have h2 := chunkBits_length k1 k2 raw c
            unfold chunkStart streamBits at *
            rw [List.take_succ_cons, List.flatMap_cons, List.length_append]
            omega
          refine ⟨recordBytes c streamByte ++ before, after, ?_, ?_⟩
          · unfold recordsBytes
            rw [hrest, hstart, List.append_assoc, Nat.add_assoc]
            rfl
          · rw [List.length_append, recordBytes_length, hlen]
            unfold chunkSize
            omega

/-- A record is read back from where it was written. -/
theorem chunk_of_append (before after : List (BitVec 8)) (c : ChunkList)
    (streamByte : Nat) :
    DeltaMapChunk.ofBytes
        (bufferOf (before ++ (recordBytes c streamByte ++ after)))
        before.length
      = { x86Offset := c.first.x86Offset
          armOffset := c.first.armOffset
          streamByte := BitVec.ofNat 32 streamByte
          insnCount := BitVec.ofNat 32 c.rest.length } := by
  have hfield : ∀ (mid rest : List (BitVec 8)) (x : BitVec 32),
      recordBytes c streamByte = mid ++ (le32 x ++ rest) →
      (bufferOf (before ++ (recordBytes c streamByte ++ after))).u32
        (before.length + mid.length) = x := by
    intro mid rest x h
    have := u32_of_append (before ++ mid) (rest ++ after) x
    rwa [List.length_append, List.append_assoc, ← List.append_assoc _ rest,
      ← List.append_assoc mid, ← h] at this
  unfold DeltaMapChunk.ofBytes
  rw [show (bufferOf (before ++ (recordBytes c streamByte ++ after))).u32
      before.length = c.first.x86Offset from hfield [] _ _ rfl,
    show (bufferOf (before ++ (recordBytes c streamByte ++ after))).u32
      (before.length + 4) = c.first.armOffset from
        hfield (le32 c.first.x86Offset) _ _ rfl,
    show (bufferOf (before ++ (recordBytes c streamByte ++ after))).u32
      (before.length + 8) = BitVec.ofNat 32 streamByte from
        hfield (le32 c.first.x86Offset ++ le32 c.first.armOffset) _ _ rfl,
    show (bufferOf (before ++ (recordBytes c streamByte ++ after))).u32
      (before.length + 12) = BitVec.ofNat 32 c.rest.length from
        hfield (le32 c.first.x86Offset ++ le32 c.first.armOffset
          ++ le32 (BitVec.ofNat 32 streamByte)) [] _ rfl]

-- =============================================================== the map

section
variable {k1 k2 : BitVec 8} {raw : MapPoint → Bool}
  {chunks : List ChunkList}

/-- The header that is written. -/
theorem header_encodeMap :
    (viewOf (bufferOf (encodeMap k1 k2 raw chunks))).header
      = { riceK := fun i => [0, k1, k2, 0].get i
          field04 := 0, field08 := 0, field0C := 0
          totalSize := BitVec.ofNat 32
            (mapLength k1.toNat k2.toNat raw chunks)
          chunkCount := BitVec.ofNat 32 chunks.length
          chunksOffset := BitVec.ofNat 32 headerSize
          streamOffset := BitVec.ofNat 32 (streamStart chunks) } := by
  have hfield : ∀ (before after : List (BitVec 8)) (x : BitVec 32),
      encodeMap k1 k2 raw chunks = before ++ (le32 x ++ after) →
      (bufferOf (encodeMap k1 k2 raw chunks)).u32 before.length = x := by
    intro before after x h
    rw [h]
    exact u32_of_append before after x
  have hrice : (fun i : Fin 4 => bufferOf (encodeMap k1 k2 raw chunks) i)
      = fun i => [0, k1, k2, 0].get i := by
    funext i
    match i with
    | 0 => rfl
    | 1 => rfl
    | 2 => rfl
    | 3 => rfl
  show DeltaMapHeader.ofBytes (bufferOf (encodeMap k1 k2 raw chunks)) = _
  unfold DeltaMapHeader.ofBytes
  let zeros := [0, k1, k2, 0] ++ (le32 0 ++ (le32 0 ++ le32 0))
  let total := le32 (BitVec.ofNat 32
    (mapLength k1.toNat k2.toNat raw chunks))
  let count := le32 (BitVec.ofNat 32 chunks.length)
  rw [hrice,
    show (bufferOf (encodeMap k1 k2 raw chunks)).u32 0x04 = 0 from
      hfield [0, k1, k2, 0] _ 0 rfl,
    show (bufferOf (encodeMap k1 k2 raw chunks)).u32 0x08 = 0 from
      hfield ([0, k1, k2, 0] ++ le32 0) _ 0 rfl,
    show (bufferOf (encodeMap k1 k2 raw chunks)).u32 0x0C = 0 from
      hfield ([0, k1, k2, 0] ++ (le32 0 ++ le32 0)) _ 0 rfl,
    show (bufferOf (encodeMap k1 k2 raw chunks)).u32 0x10 = _ from
      hfield zeros _ _ rfl,
    show (bufferOf (encodeMap k1 k2 raw chunks)).u32 0x14 = _ from
      hfield (zeros ++ total) _ _ rfl,
    show (bufferOf (encodeMap k1 k2 raw chunks)).u32 0x18 = _ from
      hfield (zeros ++ total ++ count) _ _ rfl,
    show (bufferOf (encodeMap k1 k2 raw chunks)).u32 0x1C = _ from
      hfield (zeros ++ total ++ count ++ le32 (BitVec.ofNat 32 headerSize))
        _ _ rfl]
  rfl

/-- The bytes after the header. -/
theorem encodeMap_split (k1 k2 : BitVec 8) (raw : MapPoint → Bool)
    (chunks : List ChunkList) :
    ∃ header, encodeMap k1 k2 raw chunks
        = header ++ bodyBytes k1.toNat k2.toNat raw chunks
      ∧ header.length = headerSize :=
  ⟨[0, k1, k2, 0] ++ (le32 0 ++ (le32 0 ++ (le32 0
    ++ (le32 (BitVec.ofNat 32 (mapLength k1.toNat k2.toNat raw chunks))
    ++ (le32 (BitVec.ofNat 32 chunks.length)
    ++ (le32 (BitVec.ofNat 32 headerSize)
    ++ le32 (BitVec.ofNat 32 (streamStart chunks)))))))), rfl, rfl⟩

/-- The size of a map is the number of its bytes. -/
theorem encodeMap_length :
    (encodeMap k1 k2 raw chunks).length
      = mapLength k1.toNat k2.toNat raw chunks := by
  obtain ⟨header, hsplit, hlen⟩ :=
    encodeMap_split k1 k2 raw chunks
  rw [hsplit, List.length_append, hlen]
  unfold bodyBytes mapLength streamStart
  rw [List.length_append, recordsBytes_length, packBits_length]
  omega

/-- A number that fits is written in full. -/
theorem toNat_ofNat_lt {n : Nat} (h : n < 2 ^ 32) :
    (BitVec.ofNat 32 n).toNat = n := by
  rw [BitVec.toNat_ofNat, Nat.mod_eq_of_lt h]

theorem streamStart_le (k1 k2 : BitVec 8) (raw : MapPoint → Bool)
    (chunks : List ChunkList) :
    streamStart chunks ≤ mapLength k1.toNat k2.toNat raw chunks :=
  Nat.le_add_right _ _

namespace MapFits

variable (h : MapFits k1 k2 raw chunks)

include h

/-- The sizes in the header, as numbers. -/
theorem sizes :
    (viewOf (bufferOf (encodeMap k1 k2 raw chunks))).header.totalSize.toNat
        = mapLength k1.toNat k2.toNat raw chunks
      ∧ (viewOf (bufferOf (encodeMap k1 k2 raw
          chunks))).header.chunkCount.toNat = chunks.length
      ∧ (viewOf (bufferOf (encodeMap k1 k2 raw
          chunks))).header.chunksOffset.toNat = headerSize
      ∧ (viewOf (bufferOf (encodeMap k1 k2 raw
          chunks))).header.streamOffset.toNat = streamStart chunks
      ∧ (viewOf (bufferOf (encodeMap k1 k2 raw chunks))).header.streamSize
        = (streamBits k1.toNat k2.toNat raw chunks).length / 8 := by
  have hstart := streamStart_le k1 k2 raw chunks
  have hsize := h.size
  have hcount := h.count
  rw [header_encodeMap]
  dsimp only
  refine ⟨toNat_ofNat_lt hsize, toNat_ofNat_lt (by omega), rfl,
    toNat_ofNat_lt (by omega), ?_⟩
  unfold DeltaMapHeader.streamSize
  dsimp only
  rw [BitVec.toNat_sub_of_le, toNat_ofNat_lt hsize,
    toNat_ofNat_lt (by omega)]
  · unfold mapLength
    omega
  · rw [BitVec.le_def, toNat_ofNat_lt hsize, toNat_ofNat_lt (by omega)]
    exact hstart

/-- The header passes its check. -/
theorem checkHeader :
    checkHeader (viewOf (bufferOf (encodeMap k1 k2 raw chunks))).header
      = true := by
  obtain ⟨htotal, hcount, hchunks, hstream, -⟩ := h.sizes
  have hle := streamStart_le k1 k2 raw chunks
  have hpos := h.nonempty
  have hmax := h.count
  generalize hh : (viewOf (bufferOf (encodeMap k1 k2 raw chunks))).header
    = header at *
  have hzero : header.riceK 3 = 0 ∧ header.field08 = 0
      ∧ header.field0C = 0 ∧ header.riceK 1 = k1 ∧ header.riceK 2 = k2 := by
    rw [← hh, header_encodeMap]
    exact ⟨rfl, rfl, rfl, rfl, rfl⟩
  obtain ⟨hr, h08, h0C, h1, h2⟩ := hzero
  have hk1 : ¬ (31 : BitVec 8) < k1 := by
    rw [BitVec.lt_def]
    exact Nat.not_lt.mpr h.rice1
  have hk2 : ¬ (31 : BitVec 8) < k2 := by
    rw [BitVec.lt_def]
    exact Nat.not_lt.mpr h.rice2
  have hcount0 : header.chunkCount ≠ 0 := by
    intro h0
    rw [h0] at hcount
    have : (0 : BitVec 32).toNat = 0 := rfl
    omega
  have hcountMax : ¬ kMaxChunkCount < header.chunkCount := by
    rw [BitVec.lt_def, hcount]
    exact Nat.not_lt.mpr hmax
  have hstart : streamStart chunks = 0x20 + chunks.length * 16 := rfl
  have h32 : headerSize = 0x20 := rfl
  have h16 : chunkSize = 16 := rfl
  have hstreamLe : ¬ header.totalSize < header.streamOffset := by
    rw [BitVec.lt_def, hstream, htotal]
    omega
  have hchunksLe : ¬ header.streamOffset < header.chunksOffset := by
    rw [BitVec.lt_def, hstream, hchunks]
    omega
  unfold GuestPc.checkHeader
  rw [hr, h08, h0C, h1, h2, decide_eq_false hk1, decide_eq_false hk2,
    decide_eq_false hcountMax, decide_eq_false hstreamLe,
    decide_eq_false hchunksLe, htotal, hcount, hchunks, hstream,
    decide_eq_false (show ¬ mapLength k1.toNat k2.toNat raw chunks
      < headerSize by omega),
    decide_eq_false (show ¬ headerSize < headerSize by omega),
    decide_eq_true (show headerSize + chunks.length * chunkSize
      ≤ streamStart chunks by rw [h16]; omega), beq_false_of_ne hcount0]
  rfl

/-- The records are read back. -/
theorem chunk {i : Nat} (hi : i < chunks.length) :
    (viewOf (bufferOf (encodeMap k1 k2 raw chunks))).chunk i
      = { x86Offset := (chunks.get ⟨i, hi⟩).first.x86Offset
          armOffset := (chunks.get ⟨i, hi⟩).first.armOffset
          streamByte := BitVec.ofNat 32
            (chunkStart k1.toNat k2.toNat raw chunks i)
          insnCount := BitVec.ofNat 32
            (chunks.get ⟨i, hi⟩).rest.length } := by
  obtain ⟨header, hsplit, hlen⟩ :=
    encodeMap_split k1 k2 raw chunks
  obtain ⟨before, after, hrec, hbefore⟩ :=
    recordsBytes_at k1.toNat k2.toNat raw 0 chunks hi
  have hmap : encodeMap k1 k2 raw chunks
      = (header ++ before) ++ (recordBytes (chunks.get ⟨i, hi⟩)
          (0 + chunkStart k1.toNat k2.toNat raw chunks i)
        ++ (after ++ packBits
          (streamBits k1.toNat k2.toNat raw chunks))) := by
    rw [hsplit]
    unfold bodyBytes
    rw [hrec, List.append_assoc, List.append_assoc, List.append_assoc]
  have hread := chunk_of_append (header ++ before) (after ++ packBits
    (streamBits k1.toNat k2.toNat raw chunks)) (chunks.get ⟨i, hi⟩)
    (0 + chunkStart k1.toNat k2.toNat raw chunks i)
  rw [← hmap, List.length_append, hlen, hbefore, Nat.zero_add] at hread
  rw [← hread]
  show DeltaMapChunk.ofBytes _ ((viewOf (bufferOf (encodeMap k1 k2 raw
    chunks))).header.chunksOffset.toNat + i * chunkSize) = _
  rw [h.sizes.2.2.1]

/-- The bits of the stream are read back. -/
theorem stream {n : Nat}
    (hn : n / 8 < (streamBits k1.toNat k2.toNat raw chunks).length / 8) :
    bitAt (viewOf (bufferOf (encodeMap k1 k2 raw chunks))).stream n
      = (streamBits k1.toNat k2.toNat raw chunks).getD n false := by
  obtain ⟨header, hsplit, hlen⟩ :=
    encodeMap_split k1 k2 raw chunks
  have hbyte : (viewOf (bufferOf (encodeMap k1 k2 raw chunks))).stream
      (n / 8)
      = (packBits (streamBits k1.toNat k2.toNat raw chunks)).getD
        (n / 8) 0 := by
    show bufferOf _ ((viewOf (bufferOf (encodeMap k1 k2 raw
      chunks))).header.streamOffset.toNat + n / 8) = _
    have hrec := recordsBytes_length k1.toNat k2.toNat raw
      0 chunks
    rw [h.sizes.2.2.2.1, hsplit]
    unfold bufferOf bodyBytes streamStart
    rw [List.getD_eq_getElem?_getD, ← List.append_assoc,
      List.getElem?_append_right
        (by rw [List.length_append, hlen, hrec]; omega),
      List.length_append, hlen, hrec, Nat.add_sub_cancel_left,
      List.getD_eq_getElem?_getD]
  unfold bitAt
  rw [hbyte]
  exact packBits_bit hn

/-- Where a chunk's stream begins, as its record says it. -/
theorem streamByte {i : Nat} (hi : i < chunks.length) :
    ((viewOf (bufferOf (encodeMap k1 k2 raw
        chunks))).chunk i).streamByte.toNat
      = chunkStart k1.toNat k2.toNat raw chunks i := by
  have hbits := congrArg List.length
    (streamBits_split k1.toNat k2.toNat raw hi)
  rw [List.length_append] at hbits
  have hsize := h.size
  rw [h.chunk hi]
  apply toNat_ofNat_lt
  unfold mapLength at hsize
  unfold chunkStart
  omega

/-- The stream from the byte a chunk begins at. -/
theorem ahead {i : Nat} (hi : i < chunks.length) :
    Ahead (viewOf (bufferOf (encodeMap k1 k2 raw chunks))).stream
      ((streamBits k1.toNat k2.toNat raw chunks).length / 8)
      ((viewOf (bufferOf (encodeMap k1 k2 raw chunks))).reader
        ((viewOf (bufferOf (encodeMap k1 k2 raw chunks))).chunk i))
      (chunkBits k1.toNat k2.toNat raw (chunks.get ⟨i, hi⟩)
        ++ streamBits k1.toNat k2.toNat raw (chunks.drop (i + 1))) := by
  have hsplit := streamBits_split k1.toNat k2.toNat raw hi
  generalize chunkBits k1.toNat k2.toNat raw (chunks.get ⟨i, hi⟩)
    ++ streamBits k1.toNat k2.toNat raw (chunks.drop (i + 1)) = rest
    at hsplit ⊢
  have hbefore : (streamBits k1.toNat k2.toNat raw
      (chunks.take i)).length
      = 8 * chunkStart k1.toNat k2.toNat raw chunks i := by
    have := streamBits_length k1.toNat k2.toNat raw
      (chunks.take i)
    unfold chunkStart
    omega
  have h32 := streamBits_length k1.toNat k2.toNat raw
    chunks
  have hlen := congrArg List.length hsplit
  rw [List.length_append, hbefore] at hlen
  have hat : ((viewOf (bufferOf (encodeMap k1 k2 raw chunks))).reader
      ((viewOf (bufferOf (encodeMap k1 k2 raw chunks))).chunk i)).at
      = 8 * chunkStart k1.toNat k2.toNat raw chunks i := by
    show 8 * ((viewOf (bufferOf (encodeMap k1 k2 raw
      chunks))).chunk i).streamByte.toNat + 0 = _
    rw [h.streamByte hi, Nat.add_zero]
  refine ⟨rfl, h.sizes.2.2.2.2, Nat.zero_lt_succ 7, ?_, ?_⟩
  · rw [hat]
    omega
  · rw [hat]
    apply List.ext_getElem
    · rw [List.length_map, List.length_range']
      omega
    · intro n hn hn'
      rw [List.getElem_map, List.getElem_range', Nat.one_mul,
        h.stream (by omega), hsplit, List.getD_eq_getElem?_getD,
        List.getElem?_append_right (by omega), hbefore,
        Nat.add_sub_cancel_left, List.getElem?_eq_getElem hn]
      rfl

/-- Where a chunk's stream ends: at the next chunk's, or at the end. -/
theorem nextByte {i : Nat} (hi : i < chunks.length) :
    (if i + 1 < (viewOf (bufferOf (encodeMap k1 k2 raw
          chunks))).header.chunkCount.toNat
      then ((viewOf (bufferOf (encodeMap k1 k2 raw
        chunks))).chunk (i + 1)).streamByte.toNat
      else (viewOf (bufferOf (encodeMap k1 k2 raw
        chunks))).header.streamSize)
      = chunkStart k1.toNat k2.toNat raw chunks (i + 1) := by
  rw [h.sizes.2.1]
  by_cases hnext : i + 1 < chunks.length
  · rw [if_pos hnext, h.streamByte hnext]
  · rw [if_neg hnext, h.sizes.2.2.2.2]
    unfold chunkStart
    rw [List.take_of_length_le (by omega)]

/-- A chunk that was encoded is listed. -/
theorem decodeMapChunk {i : Nat} (hi : i < chunks.length) {outMax : Int}
    (hmin : ((chunks.get ⟨i, hi⟩).all.length : Int) ≤ outMax)
    (hmax : outMax < 2 ^ 63) :
    decodeMapChunk (some (bufferOf (encodeMap k1 k2 raw chunks)))
        (encodeMap k1 k2 raw chunks).length i outMax
      = some (chunks.get ⟨i, hi⟩).all := by
  have hparse : parseMap (some (bufferOf (encodeMap k1 k2 raw chunks)))
      (encodeMap k1 k2 raw chunks).length
      = some (viewOf (bufferOf (encodeMap k1 k2 raw chunks))) := by
    apply parseMap_whole
    · rw [encodeMap_length]
      exact Nat.le_trans (Nat.le_add_right _ _)
        (streamStart_le k1 k2 raw chunks)
    · rw [encodeMap_length]
      exact Nat.le_of_eq h.sizes.1
    · exact h.checkHeader
  have hfits := h.fits _ (List.get_mem chunks ⟨i, hi⟩)
  have hahead := h.ahead hi
  have hnext := h.nextByte hi
  have hlater := chunkStart_add k1.toNat k2.toNat raw chunks (i + 1)
  have hstart := h.streamByte hi
  have hrice : (viewOf (bufferOf (encodeMap k1 k2 raw
        chunks))).header.riceK 1 = k1
      ∧ (viewOf (bufferOf (encodeMap k1 k2 raw
        chunks))).header.riceK 2 = k2 := by
    rw [header_encodeMap]
    exact ⟨rfl, rfl⟩
  have hcount : ((viewOf (bufferOf (encodeMap k1 k2 raw
      chunks))).chunk i).insnCount.toNat
      = (chunks.get ⟨i, hi⟩).rest.length := by
    rw [h.chunk hi]
    exact toNat_ofNat_lt hfits.count
  have hfirst : ((viewOf (bufferOf (encodeMap k1 k2 raw
      chunks))).chunk i).start = (chunks.get ⟨i, hi⟩).first.column := by
    rw [h.chunk hi]
    unfold DeltaMapChunk.start MapPoint.column
    rw [hfits.flags]
  have hbits : chunkStart k1.toNat k2.toNat raw chunks i
      ≤ (streamBits k1.toNat k2.toNat raw chunks).length / 8 := by
    have := chunkStart_add k1.toNat k2.toNat raw chunks i
    omega
  have hi' := h.sizes.2.1
  have hend := h.sizes.2.2.2.2
  have hroom : (BitVec.ofInt 64 outMax).toNat = outMax.toNat := by
    rw [BitVec.toNat_ofInt]
    omega
  unfold GuestPc.decodeMapChunk
  rw [hparse]
  dsimp only
  generalize viewOf (bufferOf (encodeMap k1 k2 raw chunks)) = v at *
  generalize chunks.get ⟨i, hi⟩ = c at *
  rw [if_neg (by omega), hcount, if_neg (by
    unfold ChunkList.all at hmin
    rw [List.length_cons] at hmin
    omega), if_neg (by omega), hnext, bind_apply]
  -- the steps take their bits, and the padding after them is let pass
  unfold chunkBits at hahead
  dsimp only at hahead
  rw [List.append_assoc] at hahead
  have hsteps := @boundaries_takes v.stream
    ((streamBits k1.toNat k2.toNat raw chunks).length / 8)
    v.header.riceK (hrice.1 ▸ h.rice1) (hrice.2 ▸ h.rice2) raw _ _
    hfits.increasing
  rw [hrice.1, hrice.2, ← hfirst] at hsteps
  obtain ⟨br, hb, hpad⟩ := hsteps _ _ hahead
  unfold DeltaMapChunk.start at hb hfirst
  rw [hb]
  dsimp only
  have hlen := hpad.length.2
  rw [List.length_append, List.length_replicate] at hlen
  have hends : (endsAt (chunkStart k1.toNat k2.toNat raw chunks (i + 1))
      br).1 = some () :=
    endsAt_zeros hpad (padding_lt _) (by omega)
  rw [bind_apply]
  rcases he : endsAt (chunkStart k1.toNat k2.toNat raw chunks (i + 1)) br
    with ⟨o, br'⟩
  rw [he] at hends
  dsimp only at hends
  subst hends
  dsimp only
  rw [hfirst, show (v.chunk i).armOffset = c.first.column.arm from
    congrArg Column.arm hfirst]
  exact congrArg (fun p => some (p :: c.rest)) (column_point hfits.exact)

end MapFits

end

-- ============================================================= the decoder

/-- What decoding a delta map is. -/
structure ExactDecoding : Prop where
  /-- Over a process that serves a whole map, the windowed decode finds
  the point of the decode in memory, but for the check of the x86
  size. -/
  same_point : ∀ (reader : Reader) (frag : Fragment) (b : Bytes) (n : Nat)
    (armPc : BitVec 64), frag.map ≠ 0 → frag.x86Size ≠ 0 →
    headerSize ≤ n → declaredSize b ≤ n → Serves reader frag.map b n →
    locate reader frag armPc
      = frag.admits (decodeMap (some b) n (frag.offsetOf armPc))
  /-- The unary prefix ends within the stream. -/
  prefix_ends : ∀ (k extra : Nat) (q : BitVec 32) (br : BitReader),
    br.bit < 8 →
    unary k (br.bitsLeft + 1 + extra) q br = unary k (br.bitsLeft + 1) q br
  /-- The padding ends at the next chunk. -/
  padding_ends : ∀ (nextByte extra : Nat) (br : BitReader), br.bit < 8 →
    zerosTo nextByte (8 * (nextByte - br.pos) + extra) br
      = zerosTo nextByte (8 * (nextByte - br.pos)) br
  /-- The bisection ends within as many turns as there are chunks. -/
  bisection_ends : ∀ (count armOffset : BitVec 32)
    (fetch : Nat → Option DeltaMapChunk) (extra : Nat),
    bisect fetch armOffset (count.toNat + extra) 0 count.toNat
      = findChunk count armOffset fetch
  /-- The decode in memory reads the header and the declared size only. -/
  inside : ∀ (b b' : Bytes) (n : Nat) (armOffset : BitVec 32),
    (∀ i, i < headerSize ∨ i < declaredSize b → b i = b' i) →
    decodeMap (some b) n armOffset = decodeMap (some b') n armOffset
  /-- So does the windowed decode. -/
  inside_window : ∀ (reader reader' : Reader) (frag : Fragment)
    (armPc : BitVec 64),
    reader frag.map headerSize = reader' frag.map headerSize →
    (∀ b, reader frag.map headerSize = some b →
      ∀ off len, off + len ≤ declaredSize b →
        reader (frag.map + BitVec.ofNat 64 off) len
          = reader' (frag.map + BitVec.ofNat 64 off) len) →
    locate reader frag armPc = locate reader' frag armPc
  /-- Before the first chunk there is no point. -/
  none_before : ∀ (b : Bytes) (n : Nat) (lists : Nat → List MapPoint)
    (armOffset : BitVec 32), (viewOf b).Sorted →
    0 < (viewOf b).header.chunkCount.toNat →
    (∀ i < (viewOf b).header.chunkCount.toNat, ∃ outMax,
      decodeMapChunk (some b) n i outMax = some (lists i)) →
    armOffset < ((viewOf b).chunk 0).armOffset →
    decodeMap (some b) n armOffset = .error .notTranslated
  /-- From it on the point is the last boundary listed at or before the
  offset in the last chunk that is not after it, exact when it is the
  offset's. -/
  last_listed : ∀ (b : Bytes) (n : Nat) (lists : Nat → List MapPoint)
    (armOffset : BitVec 32) (i : Nat), (viewOf b).Sorted →
    (∀ i < (viewOf b).header.chunkCount.toNat, ∃ outMax,
      decodeMapChunk (some b) n i outMax = some (lists i)) →
    (viewOf b).IsLast armOffset i →
    ∃ q, (upTo armOffset (lists i)).getLast? = some q
      ∧ decodeMap (some b) n armOffset = .ok (q.seenFrom armOffset)
  /-- Every number is decoded from its Golomb-Rice code, at every
  parameter a header may have. -/
  rice_decoded : ∀ (data : Bytes) (size k : Nat) (x : BitVec 32), k ≤ 31 →
    Takes (Ahead data size) (rice k) (riceBits k x) x
  /-- And from a 32-bit escape. -/
  raw_decoded : ∀ (data : Bytes) (size : Nat) (x : BitVec 32),
    Takes (Ahead data size) raw32 (bitsOf x 0 32) x
  /-- The lists that were encoded come back. -/
  round_trip : ∀ (k1 k2 : BitVec 8) (raw : MapPoint → Bool)
    (chunks : List ChunkList) (outMax : Int), MapFits k1 k2 raw chunks →
    outMax < 2 ^ 63 → ∀ (i : Nat) (hi : i < chunks.length),
    ((chunks.get ⟨i, hi⟩).all.length : Int) ≤ outMax →
    decodeMapChunk (some (bufferOf (encodeMap k1 k2 raw chunks)))
        (encodeMap k1 k2 raw chunks).length i outMax
      = some (chunks.get ⟨i, hi⟩).all

/-- Decoding is exact, ends, and stays inside the declared size. -/
theorem delta_map_decoding : ExactDecoding where
  same_point _ _ _ _ armPc hmap hx86 hsize hwhole hserved :=
    locate_served hserved hsize hwhole hmap hx86 armPc
  prefix_ends _ extra _ _ hbit :=
    unary_turns extra hbit (Nat.lt_succ_self _)
  padding_ends nextByte extra br hbit := by
    apply zerosTo_turns extra hbit
    unfold BitReader.at
    omega
  bisection_ends _ _ _ extra := bisect_turns extra (by omega)
  inside _ _ n armOffset h := decodeMap_congr h n armOffset
  inside_window _ _ _ armPc hheader h := locate_congr hheader h armPc
  none_before _ _ lists armOffset hs hcount hlists :=
    (decodeMap_last hs lists hlists hcount armOffset).1
  last_listed _ _ lists armOffset i hs hlists hi :=
    (decodeMap_last hs lists hlists (Nat.zero_lt_of_lt hi.1) armOffset).2
      i hi
  rice_decoded _ _ _ x hk := rice_takes hk x
  raw_decoded _ _ x := raw32_takes x
  round_trip _ _ _ _ _ h hmax _ hi hmin := h.decodeMapChunk hi hmin hmax

/-- Three boundaries, the last with a second byte of flags. -/
def threeBoundaries : ChunkList where
  first := { x86Offset := 0, armOffset := 0, exact := true }
  rest :=
    [{ x86Offset := 3, armOffset := 4, exact := true },
      { x86Offset := 0x20, armOffset := 12, flags := 0x201, exact := true }]

/-- They are read back from their map. -/
theorem delta_map_three :
    decodeMapChunk
        (some (bufferOf (encodeMap 2 2 (fun _ => false) [threeBoundaries])))
        (encodeMap 2 2 (fun _ => false) [threeBoundaries]).length 0 3
      = some threeBoundaries.all := by
  refine delta_map_decoding.round_trip 2 2 (fun _ => false)
    [threeBoundaries] 3 ⟨by decide, by decide, by decide, by decide,
      by decide, ?_⟩ (by decide) 0 (by decide) (by decide)
  intro c hc
  obtain rfl := List.mem_singleton.mp hc
  exact ⟨rfl, rfl, ⟨by decide, by decide, by decide, by decide, rfl,
    by decide, by decide, by decide, by decide, rfl, trivial⟩, by decide⟩

/-- A process that holds a list of bytes at an address and nothing
else. -/
def readerOf (map : BitVec 64) (l : List (BitVec 8)) : Reader :=
  fun a len =>
    if (a - map).toNat + len ≤ l.length then
      some fun i => bufferOf l ((a - map).toNat + i)
    else none

/-- A map of one chunk without steps, cut off before its stream. -/
def cutShort : List (BitVec 8) :=
  [0, 0, 0, 0] ++ (le32 0 ++ (le32 0 ++ (le32 0 ++ (le32 64 ++ (le32 1
    ++ (le32 32 ++ (le32 48
    ++ (le32 0 ++ (le32 0 ++ (le32 0 ++ le32 0))))))))))

/-- A map that is cut short is not decoded in memory, where its size is
known; through a window it may be. -/
theorem cut_short_located :
    decodeMap (some (bufferOf cutShort)) cutShort.length 0
        = .error .unavailable
      ∧ locate (readerOf 0x1000 cutShort)
          { map := 0x1000, x86Size := 1 } 0
        = .ok { exact := true } :=
  ⟨rfl, rfl⟩

end X87Sidecar.GuestPc
