/-
Decoding a delta map.

The decoder looks at the header, at the chunks and at the stream, all
inside the size the header declares (`decodeMap_congr`, `locate_congr`).
Over a process that serves the map's bytes the windowed reader finds the
point the decoder finds in memory (`locate_eq_decodeMap`). Over sorted
chunks that can all be listed, the point is the last boundary listed at
or before the offset (`decodeMap_last`): the bisection ends at the last
chunk that is not after it, and the walk stops where the list passes it.
-/
import X87Sidecar.Proofs.GuestPc.Stream

namespace X87Sidecar.GuestPc

open Lib Lib.Keep

-- ======================================================= bytes that decide

/-- The bytes of a number are all it depends on. -/
theorem Bytes.le_congr {b b' : Bytes} {off off' n : Nat}
    (h : ∀ i < n, b (off + i) = b' (off' + i)) :
    b.le off n = b'.le off' n := by
  induction n generalizing off off' with
  | zero => rfl
  | succ n ih =>
      unfold Bytes.le
      rw [ih fun i hi => ?_, show b off = b' off' from h 0 (by omega)]
      have := h (i + 1) (by omega)
      rwa [Nat.add_comm i 1, ← Nat.add_assoc, ← Nat.add_assoc] at this

/-- A field inside a record whose bytes agree. -/
theorem Bytes.u32_congr {b b' : Bytes} {off off' n : Nat}
    (h : ∀ i < n, b (off + i) = b' (off' + i)) {k : Nat} (hk : k + 4 ≤ n) :
    b.u32 (off + k) = b'.u32 (off' + k) := by
  apply Bytes.le_congr
  intro i hi
  rw [Nat.add_assoc, Nat.add_assoc]
  exact h (k + i) (by omega)

theorem DeltaMapChunk.ofBytes_congr {b b' : Bytes} {off off' : Nat}
    (h : ∀ i < chunkSize, b (off + i) = b' (off' + i)) :
    DeltaMapChunk.ofBytes b off = DeltaMapChunk.ofBytes b' off' := by
  have h' : ∀ i < 16, b (off + i) = b' (off' + i) := h
  unfold DeltaMapChunk.ofBytes
  rw [Bytes.u32_congr h' (k := 4) (by omega),
    Bytes.u32_congr h' (k := 8) (by omega),
    Bytes.u32_congr h' (k := 12) (by omega),
    show b.u32 off = b'.u32 off' from Bytes.u32_congr h' (k := 0) (by omega)]

theorem DeltaMapHeader.ofBytes_congr {b b' : Bytes}
    (h : ∀ i < headerSize, b i = b' i) :
    DeltaMapHeader.ofBytes b = DeltaMapHeader.ofBytes b' := by
  have h' : ∀ i < 32, b (0 + i) = b' (0 + i) := fun i hi => by
    rw [Nat.zero_add]
    exact h i hi
  have hu : ∀ k, k + 4 ≤ 32 → b.u32 k = b'.u32 k := fun k hk => by
    have := Bytes.u32_congr h' hk
    rwa [Nat.zero_add] at this
  unfold DeltaMapHeader.ofBytes
  rw [hu 0x04 (by omega), hu 0x08 (by omega), hu 0x0C (by omega),
    hu 0x10 (by omega), hu 0x14 (by omega), hu 0x18 (by omega),
    hu 0x1C (by omega), show (fun i : Fin 4 => b i) = fun i : Fin 4 => b' i from
      funext fun i => h i (by unfold headerSize; omega)]

-- ========================================================= related readers

/-- Two readers in memory, over bytes that agree inside the stream. -/
structure SameMemory (br br' : BitReader) : Prop where
  agree : ∃ data data', br.stream = .memory data
    ∧ br' = { br with stream := .memory data' }
    ∧ ∀ i < br.size, data i = data' i

/-- Two readers of processes that agree inside the stream. -/
structure SameRemote (br br' : BitReader) : Prop where
  agree : ∃ reader reader' addr, br.stream = .remote reader addr
    ∧ br' = { br with stream := .remote reader' addr }
    ∧ ∀ off len, off + len ≤ br.size →
      reader (addr + BitVec.ofNat 64 off) len
        = reader' (addr + BitVec.ofNat 64 off) len

/-- A process serves the first `n` bytes of a buffer from an address. -/
def Serves (reader : Reader) (addr : BitVec 64) (b : Bytes) (n : Nat) :
    Prop :=
  ∀ off len, off + len ≤ n →
    ∃ win, reader (addr + BitVec.ofNat 64 off) len = some win
      ∧ ∀ i < len, win i = b (off + i)

/-- A reader in memory and one of a process that serves the same bytes,
whose window holds bytes of the stream. -/
structure Windowed (br br' : BitReader) : Prop where
  pos : br.pos = br'.pos
  bit : br.bit = br'.bit
  size : br.size = br'.size
  served : ∃ data reader addr, br.stream = .memory data
    ∧ br'.stream = .remote reader addr ∧ Serves reader addr data br'.size
    ∧ ∀ i, br'.winStart ≤ i → i < br'.winStart + br'.winLen →
      br'.win (i - br'.winStart) = data i

theorem next_stream (br : BitReader) (stream : Stream) :
    BitReader.next { br with stream := stream }
      = { br.next with stream := stream } := by
  unfold BitReader.next
  dsimp only
  split <;> rfl

theorem next_frame (br : BitReader) :
    br.next.stream = br.stream ∧ br.next.size = br.size
      ∧ br.next.win = br.win ∧ br.next.winStart = br.winStart
      ∧ br.next.winLen = br.winLen := by
  unfold BitReader.next
  split <;> exact ⟨rfl, rfl, rfl, rfl, rfl⟩

theorem sameMemory_lockstep : Lockstep SameMemory where
  pos := by
    rintro br _ ⟨data, data', -, rfl, -⟩
    rfl
  bit := by
    rintro br _ ⟨data, data', -, rfl, -⟩
    rfl
  size := by
    rintro br _ ⟨data, data', -, rfl, -⟩
    rfl
  next := by
    rintro br _ ⟨data, data', hs, rfl, hd⟩
    refine ⟨data, data', ?_, next_stream br _, ?_⟩
    · rw [(next_frame br).1, hs]
    · rw [(next_frame br).2.1]
      exact hd
  byteAt := by
    rintro idx br _ ⟨data, data', hs, rfl, hd⟩
    unfold GuestPc.byteAt
    dsimp only
    by_cases hidx : br.size ≤ idx
    · rw [if_pos hidx, if_pos hidx]
      exact ⟨rfl, fun h => absurd rfl h⟩
    · rw [if_neg hidx, if_neg hidx, hs]
      dsimp only
      rw [hd idx (by omega)]
      exact ⟨rfl, fun _ => ⟨data, data', hs, rfl, hd⟩⟩

theorem sameRemote_lockstep : Lockstep SameRemote where
  pos := by
    rintro br _ ⟨r, r', a, -, rfl, -⟩
    rfl
  bit := by
    rintro br _ ⟨r, r', a, -, rfl, -⟩
    rfl
  size := by
    rintro br _ ⟨r, r', a, -, rfl, -⟩
    rfl
  next := by
    rintro br _ ⟨r, r', a, hs, rfl, hr⟩
    refine ⟨r, r', a, ?_, next_stream br _, ?_⟩
    · rw [(next_frame br).1, hs]
    · rw [(next_frame br).2.1]
      exact hr
  byteAt := by
    rintro idx br _ ⟨r, r', a, hs, rfl, hr⟩
    unfold GuestPc.byteAt
    dsimp only
    by_cases hidx : br.size ≤ idx
    · rw [if_pos hidx, if_pos hidx]
      exact ⟨rfl, fun h => absurd rfl h⟩
    · rw [if_neg hidx, if_neg hidx, hs]
      dsimp only
      by_cases hwin : idx < br.winStart ∨ br.winStart + br.winLen ≤ idx
      · rw [if_pos hwin, if_pos hwin, hr idx _ (by split <;> omega)]
        cases r' (a + BitVec.ofNat 64 idx) _ with
        | none => exact ⟨rfl, fun h => absurd rfl h⟩
        | some win => exact ⟨rfl, fun _ => ⟨r, r', a, rfl, rfl, hr⟩⟩
      · rw [if_neg hwin, if_neg hwin]
        exact ⟨rfl, fun _ => ⟨r, r', a, hs, rfl, hr⟩⟩

theorem windowed_lockstep : Lockstep Windowed where
  pos h := h.pos
  bit h := h.bit
  size h := h.size
  next := by
    rintro br br' ⟨hpos, hbit, hsize, data, r, a, hs, hs', hr, hw⟩
    obtain ⟨h1, h2, -, -, -⟩ := next_frame br
    obtain ⟨h1', h2', h3', h4', h5'⟩ := next_frame br'
    refine ⟨?_, ?_, ?_, data, r, a, ?_, ?_, ?_, ?_⟩
    · unfold BitReader.next
      rw [hbit]
      split
      · exact congrArg (· + 1) hpos
      · exact hpos
    · unfold BitReader.next
      rw [hbit]
      split <;> rfl
    · rw [h2, h2', hsize]
    · rw [h1, hs]
    · rw [h1', hs']
    · rw [h2']
      exact hr
    · rw [h3', h4', h5']
      exact hw
  byteAt := by
    rintro idx br br' ⟨hpos, hbit, hsize, data, r, a, hs, hs', hr, hw⟩
    unfold GuestPc.byteAt
    rw [hsize]
    by_cases hidx : br'.size ≤ idx
    · rw [if_pos hidx, if_pos hidx]
      exact ⟨rfl, fun h => absurd rfl h⟩
    · rw [if_neg hidx, if_neg hidx, hs, hs']
      dsimp only
      by_cases hwin : idx < br'.winStart ∨ br'.winStart + br'.winLen ≤ idx
      · rw [if_pos hwin]
        -- the window pulled in starts at the byte asked for
        obtain ⟨win, hwin, hbytes⟩ := hr idx
          (if br'.size - idx < kStreamWindow then br'.size - idx
            else kStreamWindow) (by split <;> omega)
        rw [hwin]
        dsimp only
        have hpos' : 0 < (if br'.size - idx < kStreamWindow
            then br'.size - idx else kStreamWindow) := by
          unfold kStreamWindow
          split <;> omega
        rw [hbytes 0 hpos']
        refine ⟨rfl, fun _ => ⟨hpos, hbit, hsize, data, r, a, hs, rfl,
          hr, ?_⟩⟩
        intro i hlo hhi
        dsimp only at hlo hhi ⊢
        rw [hbytes (i - idx) (by omega), show idx + (i - idx) = i by omega]
      · rw [if_neg hwin, hw idx (by omega) (by omega)]
        exact ⟨rfl, fun _ => ⟨hpos, hbit, hsize, data, r, a, hs, hs', hr,
          hw⟩⟩

-- ============================================================ the bisection

/-- The bisection looks at the chunks between its ends only. -/
theorem bisect_congr {fetch fetch' : Nat → Option DeltaMapChunk}
    {armOffset : BitVec 32} {turns lo hi : Nat}
    (h : ∀ i, lo < i → i < hi → fetch i = fetch' i) :
    bisect fetch armOffset turns lo hi
      = bisect fetch' armOffset turns lo hi := by
  induction turns generalizing lo hi with
  | zero => rfl
  | succ turns ih =>
      unfold bisect
      by_cases hmore : 1 < hi - lo
      · rw [if_pos hmore, if_pos hmore]
        dsimp only
        rw [← h (lo + (hi - lo) / 2) (by omega) (by omega)]
        cases fetch (lo + (hi - lo) / 2) with
        | none => rfl
        | some c =>
            dsimp only
            rw [ih fun i hl hh => h i (by omega) (by omega),
              ih fun i hl hh => h i (by omega) (by omega)]
      · rw [if_neg hmore, if_neg hmore]

/-- A chunk it finds lies before its upper end. -/
theorem bisect_lt {fetch : Nat → Option DeltaMapChunk}
    {armOffset : BitVec 32} {turns lo hi i : Nat} (hlt : lo < hi)
    (h : bisect fetch armOffset turns lo hi = some i) : i < hi := by
  induction turns generalizing lo hi with
  | zero =>
      cases h
      exact hlt
  | succ turns ih =>
      unfold bisect at h
      by_cases hmore : 1 < hi - lo
      · rw [if_pos hmore] at h
        dsimp only at h
        cases hf : fetch (lo + (hi - lo) / 2) with
        | none =>
            rw [hf] at h
            cases h
        | some c =>
            rw [hf] at h
            dsimp only at h
            split at h
            · exact ih (by omega) h
            · have := ih (by omega) h
              omega
      · rw [if_neg hmore] at h
        cases h
        exact hlt

/-- It ends between its ends, at a chunk that is not after the offset
unless it never moved, and before one that is unless that is the last. -/
theorem bisect_between (chunk : Nat → DeltaMapChunk)
    (armOffset : BitVec 32) {turns lo hi : Nat} (hlt : lo < hi)
    (hturns : hi ≤ lo + turns) :
    ∃ i, bisect (fun i => some (chunk i)) armOffset turns lo hi = some i
      ∧ lo ≤ i ∧ i < hi ∧ (i = lo ∨ (chunk i).armOffset ≤ armOffset)
      ∧ (i + 1 = hi ∨ armOffset < (chunk (i + 1)).armOffset) := by
  induction turns generalizing lo hi with
  | zero => omega
  | succ turns ih =>
      unfold bisect
      by_cases hmore : 1 < hi - lo
      · rw [if_pos hmore]
        dsimp only
        generalize hmid : lo + (hi - lo) / 2 = mid
        by_cases hle : (chunk mid).armOffset ≤ armOffset
        · rw [if_pos hle]
          obtain ⟨i, hi', hlo, hhi, harm, hnext⟩ :=
            ih (show mid < hi by omega) (by omega)
          refine ⟨i, hi', by omega, hhi, ?_, hnext⟩
          rcases harm with rfl | harm
          · exact .inr hle
          · exact .inr harm
        · rw [if_neg hle]
          obtain ⟨i, hi', hlo, hhi, harm, hnext⟩ :=
            ih (show lo < mid by omega) (by omega)
          refine ⟨i, hi', hlo, by omega, harm, ?_⟩
          rcases hnext with rfl | hnext
          · exact .inr (BitVec.not_le.mp hle)
          · exact .inr hnext
      · rw [if_neg hmore]
        exact ⟨lo, rfl, Nat.le_refl lo, hlt, .inl rfl, .inl (by omega)⟩

/-- The chunk that is found is one of the map's. -/
theorem findChunk_lt {count : BitVec 32} (hcount : 0 < count.toNat)
    (chunk : Nat → DeltaMapChunk) (armOffset : BitVec 32) :
    ∃ i, findChunk count armOffset (fun i => some (chunk i)) = some i
      ∧ i < count.toNat := by
  obtain ⟨i, hi, -, hlt, -, -⟩ :=
    bisect_between chunk armOffset hcount (Nat.zero_add count.toNat).ge
  exact ⟨i, hi, hlt⟩

-- =================================================== one map, two readers

/-- The parts of the map in a buffer. -/
def viewOf (b : Bytes) : MapView where
  header := DeltaMapHeader.ofBytes b
  chunk i := DeltaMapChunk.ofBytes b
    ((DeltaMapHeader.ofBytes b).chunksOffset.toNat + i * chunkSize)
  stream i := b ((DeltaMapHeader.ofBytes b).streamOffset.toNat + i)

/-- The declared size of the map in a buffer. -/
def declaredSize (b : Bytes) : Nat :=
  (DeltaMapHeader.ofBytes b).totalSize.toNat

/-- What the header check promises of the layout. -/
theorem layout {h : DeltaMapHeader} (hc : checkHeader h = true) :
    0 < h.chunkCount.toNat
      ∧ h.chunksOffset.toNat + h.chunkCount.toNat * chunkSize
        ≤ h.streamOffset.toNat
      ∧ h.streamOffset.toNat + h.streamSize = h.totalSize.toNat
      ∧ (h.riceK 1).toNat ≤ 31 ∧ (h.riceK 2).toNat ≤ 31
      ∧ headerSize ≤ h.totalSize.toNat := by
  unfold checkHeader at hc
  simp only [Bool.and_eq_true, Bool.not_eq_true', Bool.or_eq_false_iff,
    decide_eq_false_iff_not, decide_eq_true_eq, bne_eq_false_iff_eq,
    beq_eq_false_iff_ne, ne_eq] at hc
  obtain ⟨⟨⟨⟨-, hk1, hk2⟩, ⟨htotal, hcount⟩, -⟩, ⟨-, hstream⟩, -⟩,
    hchunks⟩ := hc
  have hle : h.streamOffset.toNat ≤ h.totalSize.toNat :=
    BitVec.not_lt.mp hstream
  have hk1' : (h.riceK 1).toNat ≤ 31 := BitVec.not_lt.mp hk1
  have hk2' : (h.riceK 2).toNat ≤ 31 := BitVec.not_lt.mp hk2
  have hpos : h.chunkCount.toNat ≠ 0 := fun h0 =>
    hcount (BitVec.eq_of_toNat_eq h0)
  unfold DeltaMapHeader.streamSize
  rw [BitVec.toNat_sub_of_le (BitVec.not_lt.mp hstream)]
  omega

/-- The chunk a map in memory is decoded from. -/
def MapView.selected (v : MapView) (armOffset : BitVec 32) :
    DeltaMapChunk :=
  v.chunk ((findChunk v.header.chunkCount armOffset
    fun i => some (v.chunk i)).getD 0)

/-- A map in memory that is whole is decoded from its parts. -/
theorem decodeMap_whole {b : Bytes} {mapSize : Nat}
    (hsize : headerSize ≤ mapSize) (hwhole : declaredSize b ≤ mapSize)
    (armOffset : BitVec 32) :
    decodeMap (some b) mapSize armOffset
      = if checkHeader (viewOf b).header then
          if (viewOf b).header.streamSize
              < ((viewOf b).selected armOffset).streamByte.toNat then
            .error .unavailable
          else walkToTarget
            ((viewOf b).reader ((viewOf b).selected armOffset))
            (viewOf b).header.riceK ((viewOf b).selected armOffset)
            armOffset
        else .error .unavailable := by
  unfold decodeMap parseMap
  dsimp only
  rw [if_neg (by omega), decide_eq_false (show ¬ mapSize
    < (DeltaMapHeader.ofBytes b).totalSize.toNat from
      Nat.not_lt.mpr hwhole), Bool.or_false]
  by_cases hc : checkHeader (DeltaMapHeader.ofBytes b) = true
  · rw [hc, if_pos (show checkHeader (viewOf b).header = true from hc)]
    rfl
  · rw [if_neg (show ¬checkHeader (viewOf b).header = true from hc),
      Bool.eq_false_iff.mpr hc]
    rfl

/-- A map in memory that is whole and has a good header is parsed. -/
theorem parseMap_whole {b : Bytes} {mapSize : Nat}
    (hsize : headerSize ≤ mapSize) (hwhole : declaredSize b ≤ mapSize)
    (hc : checkHeader (viewOf b).header = true) :
    parseMap (some b) mapSize = some (viewOf b) := by
  unfold parseMap
  dsimp only
  rw [if_neg (by omega), decide_eq_false (show ¬ mapSize
    < (DeltaMapHeader.ofBytes b).totalSize.toNat from
      Nat.not_lt.mpr hwhole), Bool.or_false,
    show checkHeader (DeltaMapHeader.ofBytes b) = true from hc]
  rfl

/-- A map in memory that is cut short is not decoded. -/
theorem parseMap_short {b : Bytes} {mapSize : Nat}
    (hshort : mapSize < declaredSize b) :
    parseMap (some b) mapSize = none := by
  unfold parseMap
  dsimp only
  rw [decide_eq_true (show mapSize
    < (DeltaMapHeader.ofBytes b).totalSize.toNat from hshort),
    Bool.or_true, if_pos rfl, ite_self]

/-- An offset of a map, as the code forms the address of one. -/
theorem address_add (map : BitVec 64) (x : BitVec 32) (n : Nat) :
    map + x.setWidth 64 + BitVec.ofNat 64 n
      = map + BitVec.ofNat 64 (x.toNat + n) := by
  rw [BitVec.ofNat_add, ← BitVec.add_assoc, BitVec.ofNat_toNat]

variable {reader reader' : Reader} {frag : Fragment} {b : Bytes} {n : Nat}

/-- The read of a chunk, as the windowed decode makes it. -/
def fetchAt (reader : Reader) (map chunksOffset : BitVec 64) (i : Nat) :
    Option DeltaMapChunk :=
  (reader (map + chunksOffset + BitVec.ofNat 64 (i * chunkSize))
    chunkSize).map fun b => DeltaMapChunk.ofBytes b 0

/-- A process that serves a map serves its chunks. -/
theorem fetch_served (h : Serves reader frag.map b n)
    (hwhole : declaredSize b ≤ n)
    (hc : checkHeader (viewOf b).header = true) {i : Nat}
    (hi : i < (viewOf b).header.chunkCount.toNat) :
    fetchAt reader frag.map
      ((viewOf b).header.chunksOffset.setWidth 64) i
      = some ((viewOf b).chunk i) := by
  obtain ⟨-, hchunks, hstream, -⟩ := layout hc
  have hsize : (viewOf b).header.chunksOffset.toNat + i * chunkSize
      + chunkSize ≤ n := by
    have : (viewOf b).header.totalSize.toNat ≤ n := hwhole
    unfold chunkSize at hchunks ⊢
    omega
  obtain ⟨win, hwin, hbytes⟩ := h _ _ hsize
  unfold fetchAt
  rw [address_add, hwin, Option.map_some]
  congr 1
  apply DeltaMapChunk.ofBytes_congr
  intro j hj
  rw [Nat.zero_add, hbytes j hj]
  rfl

/-- The windowed decode picks the chunk that is picked in memory. -/
theorem chunkFor_served (h : Serves reader frag.map b n)
    (hsize : headerSize ≤ n) (hwhole : declaredSize b ≤ n)
    (hmap : frag.map ≠ 0) (hx86 : frag.x86Size ≠ 0) (armPc : BitVec 64) :
    chunkFor reader frag armPc
      = if checkHeader (viewOf b).header then
          if (viewOf b).header.streamSize
              < ((viewOf b).selected (frag.offsetOf armPc)).streamByte.toNat
          then none
          else some ((viewOf b).header,
            (viewOf b).selected (frag.offsetOf armPc))
        else none := by
  obtain ⟨win, hwin, hbytes⟩ := h 0 headerSize (by omega)
  rw [show frag.map + BitVec.ofNat 64 0 = frag.map from
    BitVec.add_zero _] at hwin
  have hheader : DeltaMapHeader.ofBytes win = (viewOf b).header := by
    apply DeltaMapHeader.ofBytes_congr
    intro i hi
    rw [hbytes i hi, Nat.zero_add]
  unfold chunkFor
  rw [if_neg (not_or.mpr ⟨hmap, hx86⟩), hwin]
  dsimp only
  rw [hheader]
  by_cases hc : checkHeader (viewOf b).header = true
  · obtain ⟨hcount, -⟩ := layout hc
    obtain ⟨i, hfind, hi⟩ := findChunk_lt hcount (viewOf b).chunk
      (frag.offsetOf armPc)
    have hremote : findChunk (viewOf b).header.chunkCount
        (frag.offsetOf armPc) (fetchAt reader frag.map
          ((viewOf b).header.chunksOffset.setWidth 64)) = some i := by
      rw [← hfind]
      apply bisect_congr
      intro j _ hj
      exact fetch_served h hwhole hc hj
    have hchunk : (viewOf b).selected (frag.offsetOf armPc)
        = (viewOf b).chunk i := by
      unfold MapView.selected
      rw [hfind]
      rfl
    have hfetch := fetch_served h hwhole hc hi
    unfold fetchAt at hremote hfetch
    rw [hc, if_pos rfl, hchunk]
    simp only [Bool.not_true, Bool.false_eq_true, if_false]
    rw [hremote]
    simp only [Option.bind_some]
    rw [hfetch]
  · rw [if_neg hc, Bool.eq_false_iff.mpr hc]
    rfl

/-- The last check of `resolveInFragment`, on a decoded point. -/
def Fragment.admits (frag : Fragment) (r : Except Status MapPoint) :
    Except Status MapPoint :=
  r.bind fun point =>
    if frag.x86Size < point.x86Offset then .error .unavailable
    else .ok point

/-- Over a process that serves a whole map, the windowed decode finds
what the decode in memory finds, up to the check of the x86 size. -/
theorem locate_served (h : Serves reader frag.map b n)
    (hsize : headerSize ≤ n) (hwhole : declaredSize b ≤ n)
    (hmap : frag.map ≠ 0) (hx86 : frag.x86Size ≠ 0) (armPc : BitVec 64) :
    locate reader frag armPc
      = frag.admits (decodeMap (some b) n (frag.offsetOf armPc)) := by
  rw [decodeMap_whole hsize hwhole]
  unfold locate
  rw [chunkFor_served h hsize hwhole hmap hx86]
  by_cases hc : checkHeader (viewOf b).header = true
  · rw [if_pos hc, if_pos hc]
    generalize hsel : (viewOf b).selected (frag.offsetOf armPc) = chunk
    by_cases hstart : (viewOf b).header.streamSize < chunk.streamByte.toNat
    · rw [if_pos hstart, if_pos hstart]
      rfl
    · rw [if_neg hstart, if_neg hstart]
      dsimp only
      obtain ⟨-, -, hstream, -⟩ := layout hc
      have htotal : (viewOf b).header.totalSize.toNat ≤ n := hwhole
      have hrel : Windowed ((viewOf b).reader chunk)
          { stream := .remote reader
              (frag.map + (viewOf b).header.streamOffset.setWidth 64)
            size := (viewOf b).header.streamSize
            pos := chunk.streamByte.toNat } := by
        refine ⟨rfl, rfl, rfl, _, _, _, rfl, rfl, ?_, ?_⟩
        · intro off len hlen
          dsimp only at hlen
          rw [address_add]
          obtain ⟨win, hwin, hbytes⟩ := h
            ((viewOf b).header.streamOffset.toNat + off) len (by omega)
          refine ⟨win, hwin, fun i hi => ?_⟩
          rw [hbytes i hi, Nat.add_assoc]
          rfl
        · intro i hlo hhi
          exact absurd hhi (by dsimp only; omega)
      rw [← windowed_lockstep.walkToTarget hrel]
      cases walkToTarget ((viewOf b).reader chunk) (viewOf b).header.riceK
        chunk (frag.offsetOf armPc) <;> rfl
  · rw [if_neg hc, if_neg hc]
    rfl

-- ===================================================== nothing outside it

/-- The decode in memory looks at no byte outside the declared size. -/
theorem decodeMap_congr {b b' : Bytes}
    (h : ∀ i, i < headerSize ∨ i < declaredSize b → b i = b' i)
    (mapSize : Nat) (armOffset : BitVec 32) :
    decodeMap (some b) mapSize armOffset
      = decodeMap (some b') mapSize armOffset := by
  have hheader : (viewOf b').header = (viewOf b).header :=
    (DeltaMapHeader.ofBytes_congr fun i hi => h i (.inl hi)).symm
  have hdeclared : declaredSize b' = declaredSize b :=
    congrArg (fun h : DeltaMapHeader => h.totalSize.toNat) hheader
  by_cases hsize : headerSize ≤ mapSize
  · by_cases hwhole : declaredSize b ≤ mapSize
    · rw [decodeMap_whole hsize hwhole,
        decodeMap_whole hsize (hdeclared ▸ hwhole), hheader]
      by_cases hc : checkHeader (viewOf b).header = true
      · obtain ⟨hcount, hchunks, hstream, -⟩ := layout hc
        have hchunk : ∀ i < (viewOf b).header.chunkCount.toNat,
            (viewOf b').chunk i = (viewOf b).chunk i := by
          intro i hi
          unfold viewOf
          dsimp only
          rw [show DeltaMapHeader.ofBytes b' = DeltaMapHeader.ofBytes b
            from hheader]
          apply DeltaMapChunk.ofBytes_congr
          intro j hj
          apply (h _ (.inr _)).symm
          unfold chunkSize at hchunks hj ⊢
          show (viewOf b).header.chunksOffset.toNat + i * 16 + j
            < (viewOf b).header.totalSize.toNat
          omega
        obtain ⟨i, hfind, hi⟩ := findChunk_lt hcount (viewOf b).chunk
          armOffset
        have hfind' : findChunk (viewOf b).header.chunkCount armOffset
            (fun i => some ((viewOf b').chunk i)) = some i := by
          rw [← hfind]
          apply bisect_congr
          intro j _ hj
          rw [hchunk j hj]
        have hsel : (viewOf b').selected armOffset
            = (viewOf b).selected armOffset := by
          unfold MapView.selected
          rw [hheader, hfind', hfind]
          exact hchunk i hi
        have hrel : SameMemory
            ((viewOf b).reader ((viewOf b).selected armOffset))
            ((viewOf b').reader ((viewOf b).selected armOffset)) := by
          refine ⟨(viewOf b).stream, (viewOf b').stream, rfl, ?_, ?_⟩
          · unfold MapView.reader
            rw [hheader]
          · intro i hi
            have hi' : i < (viewOf b).header.streamSize := hi
            unfold viewOf
            dsimp only
            rw [show DeltaMapHeader.ofBytes b' = DeltaMapHeader.ofBytes b
              from hheader]
            apply h _ (.inr _)
            show (viewOf b).header.streamOffset.toNat + i
              < (viewOf b).header.totalSize.toNat
            omega
        rw [hsel, sameMemory_lockstep.walkToTarget hrel]
      · rw [if_neg hc, if_neg hc]
    · unfold decodeMap
      rw [parseMap_short (Nat.not_le.mp hwhole),
        parseMap_short (hdeclared ▸ Nat.not_le.mp hwhole)]
  · unfold decodeMap parseMap
    dsimp only
    rw [if_pos (Nat.not_le.mp hsize), if_pos (Nat.not_le.mp hsize)]

/-- Fetches that agree on the chunks of the map pick the same one. -/
theorem pick_congr {fetch fetch' : Nat → Option DeltaMapChunk}
    {count : BitVec 32} (armOffset : BitVec 32) (hcount : 0 < count.toNat)
    (h : ∀ i < count.toNat, fetch i = fetch' i) :
    (findChunk count armOffset fetch).bind fetch
      = (findChunk count armOffset fetch').bind fetch' := by
  have hsame : findChunk count armOffset fetch
      = findChunk count armOffset fetch' :=
    bisect_congr fun i _ hi => h i hi
  rw [← hsame]
  cases hfind : findChunk count armOffset fetch with
  | none => rfl
  | some i => exact h i (bisect_lt hcount hfind)

/-- The windowed decode picks its chunk inside the declared size. -/
theorem chunkFor_congr
    (hheader : reader frag.map headerSize = reader' frag.map headerSize)
    (h : ∀ b, reader frag.map headerSize = some b →
      ∀ off len, off + len ≤ declaredSize b →
        reader (frag.map + BitVec.ofNat 64 off) len
          = reader' (frag.map + BitVec.ofNat 64 off) len)
    (armPc : BitVec 64) :
    chunkFor reader frag armPc = chunkFor reader' frag armPc := by
  unfold chunkFor
  rw [← hheader]
  by_cases hnone : frag.map = 0 ∨ frag.x86Size = 0
  · rw [if_pos hnone, if_pos hnone]
  rw [if_neg hnone, if_neg hnone]
  cases hread : reader frag.map headerSize with
  | none => rfl
  | some b =>
      dsimp only
      by_cases hc : checkHeader (DeltaMapHeader.ofBytes b) = true
      · obtain ⟨hcount, hchunks, hstream, -⟩ := layout hc
        have hfetch : ∀ i < (DeltaMapHeader.ofBytes b).chunkCount.toNat,
            fetchAt reader frag.map
                ((DeltaMapHeader.ofBytes b).chunksOffset.setWidth 64) i
              = fetchAt reader' frag.map
                ((DeltaMapHeader.ofBytes b).chunksOffset.setWidth 64) i := by
          intro i hi
          unfold fetchAt
          rw [address_add]
          congr 1
          apply h b hread
          unfold declaredSize
          unfold chunkSize at hchunks ⊢
          omega
        have hpick := pick_congr (frag.offsetOf armPc) hcount hfetch
        unfold fetchAt at hpick
        rw [hpick]
      · rw [Bool.eq_false_iff.mpr hc]
        rfl

/-- A chunk the windowed decode picks comes from a checked header. -/
theorem chunkFor_header {armPc : BitVec 64} {header : DeltaMapHeader}
    {chunk : DeltaMapChunk}
    (h : chunkFor reader frag armPc = some (header, chunk)) :
    ∃ b, reader frag.map headerSize = some b
      ∧ header = DeltaMapHeader.ofBytes b ∧ checkHeader header = true := by
  unfold chunkFor at h
  by_cases hnone : frag.map = 0 ∨ frag.x86Size = 0
  · rw [if_pos hnone] at h
    cases h
  rw [if_neg hnone] at h
  cases hread : reader frag.map headerSize with
  | none =>
      rw [hread] at h
      cases h
  | some b =>
      rw [hread] at h
      dsimp only at h
      by_cases hc : checkHeader (DeltaMapHeader.ofBytes b) = true
      · rw [hc] at h
        simp only [Bool.not_true, Bool.false_eq_true, if_false] at h
        split at h
        · cases h
        · split at h
          · cases h
          · cases h
            exact ⟨b, rfl, rfl, hc⟩
      · rw [Bool.eq_false_iff.mpr hc] at h
        cases h

/-- The windowed decode asks for no byte outside it. -/
theorem locate_congr
    (hheader : reader frag.map headerSize = reader' frag.map headerSize)
    (h : ∀ b, reader frag.map headerSize = some b →
      ∀ off len, off + len ≤ declaredSize b →
        reader (frag.map + BitVec.ofNat 64 off) len
          = reader' (frag.map + BitVec.ofNat 64 off) len)
    (armPc : BitVec 64) :
    locate reader frag armPc = locate reader' frag armPc := by
  unfold locate
  rw [← chunkFor_congr hheader h]
  cases hchunk : chunkFor reader frag armPc with
  | none => rfl
  | some p =>
      obtain ⟨header, chunk⟩ := p
      obtain ⟨b, hread, rfl, hc⟩ := chunkFor_header hchunk
      obtain ⟨-, -, hstream, -⟩ := layout hc
      dsimp only
      have hrel : SameRemote
          { stream := .remote reader (frag.map
              + (DeltaMapHeader.ofBytes b).streamOffset.setWidth 64)
            size := (DeltaMapHeader.ofBytes b).streamSize
            pos := chunk.streamByte.toNat }
          { stream := .remote reader' (frag.map
              + (DeltaMapHeader.ofBytes b).streamOffset.setWidth 64)
            size := (DeltaMapHeader.ofBytes b).streamSize
            pos := chunk.streamByte.toNat } := by
        refine ⟨_, _, _, rfl, rfl, ?_⟩
        intro off len hlen
        dsimp only at hlen
        rw [address_add]
        apply h b hread
        unfold declaredSize
        omega
      rw [sameRemote_lockstep.walkToTarget hrel]

-- ================================================= the walk and the list

/-- A boundary, seen from an ARM offset. -/
def MapPoint.seenFrom (p : MapPoint) (armOffset : BitVec 32) : MapPoint :=
  { p with exact := p.armOffset == armOffset }

/-- The boundaries at or before an offset. -/
def upTo (armOffset : BitVec 32) (l : List MapPoint) : List MapPoint :=
  l.filter fun p => decide (p.armOffset ≤ armOffset)

/-- What is listed comes after where the list starts. -/
theorem boundaries_after {riceK : Fin 4 → BitVec 8} {steps : Nat}
    {col : Column} {br br' : BitReader} {l : List MapPoint}
    (h : boundaries riceK steps col br = (some l, br')) :
    ∀ p ∈ l, col.arm < p.armOffset := by
  induction steps generalizing col br br' l with
  | zero =>
      cases h
      intro p hp
      cases hp
  | succ steps ih =>
      unfold boundaries at h
      rw [bind_apply] at h
      rcases hs : step riceK col br with ⟨o, t⟩
      rw [hs] at h
      cases o with
      | none => cases h
      | some next =>
          dsimp only at h
          by_cases hle : next.arm ≤ col.arm
          · rw [if_pos hle] at h
            cases h
          rw [if_neg hle, bind_apply] at h
          have hlt : col.arm < next.arm := BitVec.not_le.mp hle
          rcases hb : boundaries riceK steps next t with ⟨o, t'⟩
          rw [hb] at h
          cases o with
          | none => cases h
          | some rest =>
              cases h
              intro p hp
              rcases List.mem_cons.mp hp with rfl | hp
              · exact hlt
              · exact BitVec.lt_trans hlt (ih hb p hp)

/-- The walk stops at the last boundary listed that is not after the
offset. -/
theorem walk_last {riceK : Fin 4 → BitVec 8} {armOffset : BitVec 32}
    {steps : Nat} {col : Column} {br br' : BitReader} {l : List MapPoint}
    (hcol : col.arm ≤ armOffset)
    (h : boundaries riceK steps col br = (some l, br')) :
    ∃ q, (upTo armOffset (col.point col.arm :: l)).getLast? = some q
      ∧ (walk riceK armOffset steps col (col.point armOffset) br).1
        = some (q.seenFrom armOffset) := by
  have hstart : upTo armOffset (col.point col.arm :: l)
      = col.point col.arm :: upTo armOffset l :=
    List.filter_cons_of_pos (decide_eq_true hcol)
  rw [hstart]
  induction steps generalizing col br br' l with
  | zero =>
      cases h
      exact ⟨col.point col.arm, rfl, rfl⟩
  | succ steps ih =>
      unfold boundaries at h
      unfold walk
      rw [bind_apply] at h ⊢
      rcases hs : step riceK col br with ⟨o, t⟩
      rw [hs] at h
      cases o with
      | none => cases h
      | some next =>
          dsimp only at h ⊢
          by_cases hle : next.arm ≤ col.arm
          · rw [if_pos hle] at h
            cases h
          rw [if_neg hle, bind_apply] at h
          rw [if_neg hle]
          rcases hb : boundaries riceK steps next t with ⟨o, t'⟩
          rw [hb] at h
          cases o with
          | none => cases h
          | some rest =>
              cases h
              by_cases hpast : armOffset < next.arm
              · -- the list has passed the offset, and does not come back
                rw [if_pos hpast]
                have hnone : upTo armOffset
                    (next.point next.arm :: rest) = [] := by
                  apply List.filter_eq_nil_iff.mpr
                  intro p hp
                  have hlt : armOffset < p.armOffset := by
                    rcases List.mem_cons.mp hp with rfl | hp
                    · exact hpast
                    · exact BitVec.lt_trans hpast
                        (boundaries_after hb p hp)
                  simpa using BitVec.not_le.mpr hlt
                rw [hnone]
                exact ⟨col.point col.arm, rfl, rfl⟩
              · rw [if_neg hpast]
                have hnext : next.arm ≤ armOffset :=
                  BitVec.not_lt.mp hpast
                have hcons : upTo armOffset
                    (next.point next.arm :: rest)
                    = next.point next.arm :: upTo armOffset rest :=
                  List.filter_cons_of_pos (decide_eq_true hnext)
                rw [hcons, List.getLast?_cons_cons]
                exact ih hnext hb hcons

/-- The column a chunk starts from. -/
def DeltaMapChunk.start (chunk : DeltaMapChunk) : Column :=
  { x86 := chunk.x86Offset, arm := chunk.armOffset }

/-- A map that is parsed is whole. -/
theorem parseMap_some {b : Bytes} {mapSize : Nat} {v : MapView}
    (h : parseMap (some b) mapSize = some v) :
    v = viewOf b ∧ headerSize ≤ mapSize ∧ declaredSize b ≤ mapSize
      ∧ checkHeader (viewOf b).header = true := by
  unfold parseMap at h
  dsimp only at h
  by_cases hsize : mapSize < headerSize
  · rw [if_pos hsize] at h
    cases h
  rw [if_neg hsize] at h
  split at h
  · cases h
  · rename_i hc
    cases h
    simp only [Bool.or_eq_true, Bool.not_eq_true', decide_eq_true_eq,
      not_or, Bool.not_eq_false] at hc
    exact ⟨rfl, by omega, Nat.not_lt.mp hc.2, hc.1⟩

/-- What it takes to list a chunk. -/
theorem decodeMapChunk_some {b : Bytes} {mapSize i : Nat} {outMax : Int}
    {l : List MapPoint}
    (h : decodeMapChunk (some b) mapSize i outMax = some l) :
    headerSize ≤ mapSize ∧ declaredSize b ≤ mapSize
      ∧ checkHeader (viewOf b).header = true
      ∧ i < (viewOf b).header.chunkCount.toNat
      ∧ ((viewOf b).chunk i).streamByte.toNat
        ≤ (viewOf b).header.streamSize
      ∧ ∃ rest br, boundaries (viewOf b).header.riceK
          ((viewOf b).chunk i).insnCount.toNat ((viewOf b).chunk i).start
          ((viewOf b).reader ((viewOf b).chunk i)) = (some rest, br)
        ∧ l = ((viewOf b).chunk i).start.point
          ((viewOf b).chunk i).armOffset :: rest := by
  unfold decodeMapChunk at h
  cases hv : parseMap (some b) mapSize with
  | none =>
      rw [hv] at h
      cases h
  | some v =>
      obtain ⟨rfl, hsize, hwhole, hc⟩ := parseMap_some hv
      rw [hv] at h
      dsimp only at h
      by_cases hi : (viewOf b).header.chunkCount.toNat ≤ i
      · rw [if_pos hi] at h
        cases h
      rw [if_neg hi] at h
      split at h
      · cases h
      by_cases hstart : (viewOf b).header.streamSize
          < ((viewOf b).chunk i).streamByte.toNat
      · rw [if_pos hstart] at h
        cases h
      rw [if_neg hstart, bind_apply] at h
      refine ⟨hsize, hwhole, hc, by omega, by omega, ?_⟩
      rcases hb : boundaries (viewOf b).header.riceK
          ((viewOf b).chunk i).insnCount.toNat ((viewOf b).chunk i).start
          ((viewOf b).reader ((viewOf b).chunk i)) with ⟨o, t⟩
      rw [show boundaries (viewOf b).header.riceK
          ((viewOf b).chunk i).insnCount.toNat
          { x86 := ((viewOf b).chunk i).x86Offset
            arm := ((viewOf b).chunk i).armOffset }
          ((viewOf b).reader ((viewOf b).chunk i)) = (o, t) from hb] at h
      cases o with
      | none => cases h
      | some rest =>
          refine ⟨rest, t, rfl, ?_⟩
          dsimp only at h
          rw [bind_apply] at h
          rcases he : endsAt _ t with ⟨o, t'⟩
          rw [he] at h
          cases o with
          | none => cases h
          | some u =>
              cases h
              rfl

/-- The chunks are in the order of their ARM offsets. -/
def MapView.Sorted (v : MapView) : Prop :=
  ∀ i j, i < j → j < v.header.chunkCount.toNat →
    (v.chunk i).armOffset ≤ (v.chunk j).armOffset

/-- `i` is the last chunk that is not after an offset. -/
def MapView.IsLast (v : MapView) (armOffset : BitVec 32) (i : Nat) : Prop :=
  i < v.header.chunkCount.toNat ∧ (v.chunk i).armOffset ≤ armOffset
    ∧ ∀ j, i < j → j < v.header.chunkCount.toNat →
      armOffset < (v.chunk j).armOffset

/-- Over sorted chunks the bisection ends at the last one that is not
after the offset, if there is one, and else at the first. -/
theorem findChunk_last {v : MapView} (hs : v.Sorted)
    (hcount : 0 < v.header.chunkCount.toNat) (armOffset : BitVec 32) :
    ∃ i, findChunk v.header.chunkCount armOffset
        (fun i => some (v.chunk i)) = some i
      ∧ (v.IsLast armOffset i ∨ i = 0 ∧ armOffset < (v.chunk 0).armOffset) := by
  obtain ⟨i, hfind, -, hi, harm, hnext⟩ :=
    bisect_between v.chunk armOffset hcount
      (Nat.zero_add v.header.chunkCount.toNat).ge
  refine ⟨i, hfind, ?_⟩
  by_cases hle : (v.chunk i).armOffset ≤ armOffset
  · refine .inl ⟨hi, hle, fun j hij hj => ?_⟩
    rcases hnext with hend | hnext
    · omega
    · by_cases hj' : j = i + 1
      · rw [hj']
        exact hnext
      · exact Nat.lt_of_lt_of_le hnext (hs (i + 1) j (by omega) hj)
  · rcases harm with rfl | harm
    · exact .inr ⟨rfl, BitVec.not_le.mp hle⟩
    · exact absurd harm hle

/-- There is one last chunk at most. -/
theorem MapView.IsLast.unique {v : MapView} {armOffset : BitVec 32}
    {i j : Nat} (hi : v.IsLast armOffset i) (hj : v.IsLast armOffset j) :
    i = j := by
  rcases Nat.lt_trichotomy i j with h | h | h
  · exact absurd hj.2.1 (BitVec.not_le.mpr (hi.2.2 j h hj.1))
  · exact h
  · exact absurd hi.2.1 (BitVec.not_le.mpr (hj.2.2 i h hi.1))

/-- Over sorted chunks that can all be listed, the point of an offset is
the last boundary listed at or before it in the last chunk that is not
after it. -/
theorem decodeMap_last {b : Bytes} {mapSize : Nat}
    (hs : (viewOf b).Sorted) (lists : Nat → List MapPoint)
    (h : ∀ i < (viewOf b).header.chunkCount.toNat, ∃ outMax,
      decodeMapChunk (some b) mapSize i outMax = some (lists i))
    (hcount : 0 < (viewOf b).header.chunkCount.toNat)
    (armOffset : BitVec 32) :
    (armOffset < ((viewOf b).chunk 0).armOffset →
        decodeMap (some b) mapSize armOffset = .error .notTranslated)
      ∧ ∀ i, (viewOf b).IsLast armOffset i →
        ∃ q, (upTo armOffset (lists i)).getLast? = some q
          ∧ decodeMap (some b) mapSize armOffset
            = .ok (q.seenFrom armOffset) := by
  obtain ⟨i, hfind, hlast⟩ := findChunk_last hs hcount armOffset
  have hi : i < (viewOf b).header.chunkCount.toNat := by
    rcases hlast with hlast | ⟨rfl, -⟩
    · exact hlast.1
    · exact hcount
  obtain ⟨outMax, hlist⟩ := h i hi
  obtain ⟨hsize, hwhole, hc, -, hstart, rest, br, hb, hl⟩ :=
    decodeMapChunk_some hlist
  have hsel : (viewOf b).selected armOffset = (viewOf b).chunk i := by
    unfold MapView.selected
    rw [hfind]
    rfl
  rw [decodeMap_whole hsize hwhole, if_pos hc, hsel,
    if_neg (Nat.not_lt.mpr hstart)]
  unfold walkToTarget
  rcases hlast with hlast | ⟨rfl, hbefore⟩
  · constructor
    · intro hbefore
      have hzero : ¬ i = 0 := by
        rintro rfl
        exact absurd hlast.2.1 (BitVec.not_le.mpr hbefore)
      have hle := hs 0 i (by omega) hi
      exact absurd (BitVec.le_trans hle hlast.2.1)
        (BitVec.not_le.mpr hbefore)
    · intro j hj
      obtain rfl := hlast.unique hj
      rw [if_neg (BitVec.not_lt.mpr hlast.2.1)]
      obtain ⟨q, hq, hwalk⟩ := walk_last hlast.2.1 hb
      refine ⟨q, ?_, ?_⟩
      · rw [hl]
        exact hq
      · unfold DeltaMapChunk.start at hwalk
        dsimp only
        rw [hwalk]
  · rw [if_pos hbefore]
    refine ⟨fun _ => rfl, fun j hj => ?_⟩
    have hle : ((viewOf b).chunk 0).armOffset ≤ armOffset := by
      by_cases hj0 : j = 0
      · rw [← hj0]
        exact hj.2.1
      · exact BitVec.le_trans (hs 0 j (by omega) hj.1) hj.2.1
    exact absurd hle (BitVec.not_le.mpr hbefore)

end X87Sidecar.GuestPc
