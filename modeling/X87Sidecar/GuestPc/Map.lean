/-
The delta-coded offset map of a translated fragment, as the loader
decodes it (`rosetta_loader/src/guest_pc_map.{hpp,cpp}`).

A map is a header, an array of chunks and a bit stream. Each chunk is a
restart point: a pair of offsets and the byte of the stream its steps
begin at. A step advances the x86 column by bytes and the ARM column by
whole instructions, Golomb-Rice coded. The same decoder runs over a map
in memory (`decodeMap`, `decodeMapChunk`) and over another process's,
where the stream is pulled in windows through a `Reader`.
-/
import X87Sidecar.Lib.Keep
import Mathlib.Data.BitVec

namespace X87Sidecar.GuestPc

open Lib

-- ======================================================== bytes and reads

/-- A buffer, by its bytes in order. -/
abbrev Bytes := Nat → BitVec 8

/-- `Reader`: the bytes of the inspected process at an address, or
nothing when the read fails. -/
abbrev Reader := BitVec 64 → Nat → Option Bytes

/-- The `n` bytes of a buffer from `off`, least significant first. -/
def Bytes.le (b : Bytes) (off : Nat) : (n : Nat) → BitVec (8 * n)
  | 0 => 0
  | n + 1 => (Bytes.le b (off + 1) n ++ b off : BitVec (8 * n + 8))

/-- A `uint32_t` field. -/
def Bytes.u32 (b : Bytes) (off : Nat) : BitVec 32 := b.le off 4

/-- A `uint64_t` field. -/
def Bytes.u64 (b : Bytes) (off : Nat) : BitVec 64 := b.le off 8

/-- `Status`. -/
inductive Status
  | resolved | notTranslated | unavailable
  deriving DecidableEq, Repr

-- ========================================================= the bit reader

/-- `kStreamWindow`. -/
def kStreamWindow : Nat := 256

/-- `kMaxFragmentSize`. -/
def kMaxFragmentSize : BitVec 32 := 64 <<< 20

/-- `kMaxChunkCount`. -/
def kMaxChunkCount : BitVec 32 := 1 <<< 20

/-- Where a `BitReader` takes its bytes from. -/
inductive Stream
  | memory (data : Bytes)
  | remote (reader : Reader) (addr : BitVec 64)

/-- `BitReader`: a least-significant-bit-first reader over the stream. -/
structure BitReader where
  stream : Stream
  size : Nat
  pos : Nat
  bit : Nat := 0
  win : Bytes := fun _ => 0
  winStart : Nat := 0
  winLen : Nat := 0

/-- Decoding: a read past the stream or a failed remote read fails. -/
abbrev Bits (α : Type) := Keep BitReader α

/-- The bits the stream still holds. -/
def BitReader.bitsLeft (br : BitReader) : Nat :=
  8 * (br.size - br.pos) - br.bit

/-- `byteAt`: byte `idx` of the stream, pulling a window in when reading
remotely. -/
def byteAt (idx : Nat) : Bits (BitVec 8) := fun br =>
  if br.size ≤ idx then (none, br)
  else match br.stream with
    | .memory data => (some (data idx), br)
    | .remote reader addr =>
        if idx < br.winStart ∨ br.winStart + br.winLen ≤ idx then
          let want := if br.size - idx < kStreamWindow then br.size - idx
                      else kStreamWindow
          match reader (addr + BitVec.ofNat 64 idx) want with
          | none => (none, br)
          | some win =>
              (some (win 0), { br with win, winStart := idx, winLen := want })
        else (some (br.win (idx - br.winStart)), br)

/-- The bit after this one. -/
def BitReader.next (br : BitReader) : BitReader :=
  if br.bit + 1 = 8 then { br with bit := 0, pos := br.pos + 1 }
  else { br with bit := br.bit + 1 }

/-- `readBit`. -/
def readBit : Bits (BitVec 32) := do
  let br ← Keep.get
  let byte ← byteAt br.pos
  Keep.modify BitReader.next
  pure ((byte >>> br.bit &&& 1).setWidth 32)

/-- The loop that adds `n` more bits to `v`, from bit `i` up. -/
def readBits : (n : Nat) → (i : Nat) → BitVec 32 → Bits (BitVec 32)
  | 0, _, v => pure v
  | n + 1, i, v => do
      let bit ← readBit
      readBits n (i + 1) (v ||| bit <<< i)

/-- The unary prefix of a Golomb-Rice code, counted up from `q`. Every
turn takes a bit, so the bits left bound the turns. -/
def unary (k : Nat) : (turns : Nat) → BitVec 32 → Bits (BitVec 32)
  | 0, _ => Keep.fail
  | turns + 1, q => do
      let bit ← readBit
      if bit = 0 then pure q
      else if 0xFFFFFFFF#32 >>> k < q + 1 then Keep.fail
      else unary k turns (q + 1)

/-- `rice`: a unary prefix `q`, then `k` bits. -/
def rice (k : Nat) : Bits (BitVec 32) := do
  let br ← Keep.get
  let q ← unary k (br.bitsLeft + 1) 0
  readBits k 0 (q <<< k)

/-- `raw32`. -/
def raw32 : Bits (BitVec 32) := readBits 32 0 0

/-- The bits up to byte `nextByte` are all zero. -/
def zerosTo (nextByte : Nat) : (turns : Nat) → Bits Unit
  | 0 => pure ()
  | turns + 1 => do
      let br ← Keep.get
      if br.pos < nextByte then do
        let bit ← readBit
        if bit = 0 then zerosTo nextByte turns else Keep.fail
      else pure ()

/-- `endsAt`: the decode ended where the next chunk starts reading, bar
the padding to a 32-bit word. -/
def endsAt (nextByte : Nat) : Bits Unit := do
  let br ← Keep.get
  if nextByte < br.pos ∨ 4 < nextByte - br.pos then Keep.fail
  else zerosTo nextByte (8 * (nextByte - br.pos))

-- ============================================================== one step

/-- Where a step of the delta stream is: the two columns and the flags
of the last boundary. -/
structure Column where
  x86 : BitVec 32
  arm : BitVec 32
  flags : BitVec 32 := 0
  deriving DecidableEq

/-- The flags a selector stands for. -/
def stepFlags (k2 : Nat) (selector : BitVec 32) : Bits (BitVec 32) :=
  match selector.toNat with
  | 1 => pure 1
  | 2 => do
      let extra ← rice k2
      pure (extra <<< 8 &&& 0xFF00 ||| 1)
  | 3 => pure 2
  | 4 => pure 3
  | _ => pure 0

/-- Two raw columns. -/
def rawDeltas : Bits (BitVec 32 × BitVec 32) := do
  let dArm ← raw32
  let dX86 ← raw32
  pure (dArm, dX86)

/-- A step's ARM delta, x86 delta and flags. -/
def stepDeltas (k1 k2 : Nat) :
    Bits (BitVec 32 × BitVec 32 × BitVec 32) := do
  let a ← rice k2
  if a ≠ 0 then do
    let dX86 ← rice k1
    pure (a, dX86, 0)
  else do
    let selector ← rice k2
    if selector &&& 0xFF = 0 then do
      let d ← rawDeltas
      pure (d.1, d.2, 0)
    else do
      let flag ← stepFlags k2 (selector &&& 0xFF)
      let a2 ← rice k2
      if a2 ≠ 0 then do
        let dX86 ← rice k1
        pure (a2, dX86, flag)
      else do
        let d ← rawDeltas
        pure (d.1, d.2, flag)

/-- `step`: one advance along the delta stream. -/
def step (riceK : Fin 4 → BitVec 8) (col : Column) : Bits Column := do
  let (dArm, dX86, flag) ← stepDeltas (riceK 1).toNat (riceK 2).toNat
  if dArm = 0 ∨ kMaxFragmentSize / 4 < dArm then Keep.fail
  else pure { x86 := col.x86 + dX86, arm := col.arm + dArm * 4, flags := flag }

-- ======================================================= header and chunks

/-- `DeltaMapHeader`. -/
structure DeltaMapHeader where
  riceK : Fin 4 → BitVec 8
  field04 : BitVec 32
  field08 : BitVec 32
  field0C : BitVec 32
  totalSize : BitVec 32
  chunkCount : BitVec 32
  chunksOffset : BitVec 32
  streamOffset : BitVec 32

/-- `sizeof(DeltaMapHeader)`. -/
def headerSize : Nat := 0x20

/-- `DeltaMapChunk`. -/
structure DeltaMapChunk where
  x86Offset : BitVec 32
  armOffset : BitVec 32
  streamByte : BitVec 32
  insnCount : BitVec 32
  deriving DecidableEq

/-- `sizeof(DeltaMapChunk)`. -/
def chunkSize : Nat := 16

/-- The header at the start of a buffer. -/
def DeltaMapHeader.ofBytes (b : Bytes) : DeltaMapHeader where
  riceK i := b i
  field04 := b.u32 0x04
  field08 := b.u32 0x08
  field0C := b.u32 0x0C
  totalSize := b.u32 0x10
  chunkCount := b.u32 0x14
  chunksOffset := b.u32 0x18
  streamOffset := b.u32 0x1C

/-- The chunk at an offset of a buffer. -/
def DeltaMapChunk.ofBytes (b : Bytes) (off : Nat) : DeltaMapChunk where
  x86Offset := b.u32 off
  armOffset := b.u32 (off + 4)
  streamByte := b.u32 (off + 8)
  insnCount := b.u32 (off + 12)

/-- `checkHeader`: structural validation, independent of where the map
is stored. -/
def checkHeader (h : DeltaMapHeader) : Bool :=
  !(h.riceK 3 != 0 || h.field08 != 0 || h.field0C != 0)
    && !(decide (31 < h.riceK 1) || decide (31 < h.riceK 2))
    && !(decide (h.totalSize.toNat < headerSize) || h.chunkCount == 0
      || decide (kMaxChunkCount < h.chunkCount))
    && !(decide (h.chunksOffset.toNat < headerSize)
      || decide (h.totalSize < h.streamOffset)
      || decide (h.streamOffset < h.chunksOffset))
    && decide (h.chunksOffset.toNat + h.chunkCount.toNat * chunkSize
      ≤ h.streamOffset.toNat)

/-- The bytes of the stream. -/
def DeltaMapHeader.streamSize (h : DeltaMapHeader) : Nat :=
  (h.totalSize - h.streamOffset).toNat

-- ========================================================== the chunk walk

/-- `MapPoint`: a boundary of a map. -/
structure MapPoint where
  x86Offset : BitVec 32 := 0
  armOffset : BitVec 32 := 0
  flags : BitVec 32 := 0
  exact : Bool := false
  deriving DecidableEq

/-- The bisection of `findChunk`: `lo` is at or before the offset, `hi`
after it. -/
def bisect (fetch : Nat → Option DeltaMapChunk) (armOffset : BitVec 32) :
    (turns lo hi : Nat) → Option Nat
  | 0, lo, _ => some lo
  | turns + 1, lo, hi =>
      if 1 < hi - lo then
        let mid := lo + (hi - lo) / 2
        match fetch mid with
        | none => none
        | some c =>
            if c.armOffset ≤ armOffset then bisect fetch armOffset turns mid hi
            else bisect fetch armOffset turns lo mid
      else some lo

/-- `findChunk`: the last chunk whose ARM offset is at or before
`armOffset`. -/
def findChunk (chunkCount : BitVec 32) (armOffset : BitVec 32)
    (fetch : Nat → Option DeltaMapChunk) : Option Nat :=
  bisect fetch armOffset chunkCount.toNat 0 chunkCount.toNat

/-- A column as a boundary, seen from an ARM offset. -/
def Column.point (c : Column) (armOffset : BitVec 32) : MapPoint :=
  { x86Offset := c.x86, armOffset := c.arm, flags := c.flags,
    exact := c.arm == armOffset }

/-- The steps of a chunk up to `armOffset`, keeping the last boundary at
or before it. -/
def walk (riceK : Fin 4 → BitVec 8) (armOffset : BitVec 32) :
    (steps : Nat) → Column → MapPoint → Bits MapPoint
  | 0, _, best => pure best
  | steps + 1, col, best => do
      let next ← step riceK col
      if next.arm ≤ col.arm then Keep.fail
      else if armOffset < next.arm then pure best
      else walk riceK armOffset steps next (next.point armOffset)

/-- `walkToTarget`. -/
def walkToTarget (br : BitReader) (riceK : Fin 4 → BitVec 8)
    (chunk : DeltaMapChunk) (armOffset : BitVec 32) :
    Except Status MapPoint :=
  if armOffset < chunk.armOffset then .error .notTranslated
  else
    let start : Column := { x86 := chunk.x86Offset, arm := chunk.armOffset }
    match (walk riceK armOffset chunk.insnCount.toNat start
        (start.point armOffset) br).1 with
    | some point => .ok point
    | none => .error .unavailable

-- ====================================================== a map in memory

/-- `MapView`: a validated map and where its parts lie. -/
structure MapView where
  header : DeltaMapHeader
  chunk : Nat → DeltaMapChunk
  stream : Bytes

/-- `parseMap`. -/
def parseMap (map : Option Bytes) (mapSize : Nat) : Option MapView :=
  match map with
  | none => none
  | some b =>
      if mapSize < headerSize then none
      else
        let h := DeltaMapHeader.ofBytes b
        if !checkHeader h || decide (mapSize < h.totalSize.toNat) then none
        else some
          { header := h
            chunk := fun i =>
              DeltaMapChunk.ofBytes b (h.chunksOffset.toNat + i * chunkSize)
            stream := fun i => b (h.streamOffset.toNat + i) }

/-- A bit reader over a map in memory. -/
def MapView.reader (v : MapView) (chunk : DeltaMapChunk) : BitReader :=
  { stream := .memory v.stream, size := v.header.streamSize
    pos := chunk.streamByte.toNat }

/-- `decodeMap`. -/
def decodeMap (map : Option Bytes) (mapSize : Nat)
    (armOffset : BitVec 32) : Except Status MapPoint :=
  match parseMap map mapSize with
  | none => .error .unavailable
  | some v =>
      let index :=
        (findChunk v.header.chunkCount armOffset fun i => some (v.chunk i))
          |>.getD 0
      let chunk := v.chunk index
      if v.header.streamSize < chunk.streamByte.toNat then
        .error .unavailable
      else walkToTarget (v.reader chunk) v.header.riceK chunk armOffset

/-- Every boundary of a chunk after the column it starts from. -/
def boundaries (riceK : Fin 4 → BitVec 8) :
    (steps : Nat) → Column → Bits (List MapPoint)
  | 0, _ => pure []
  | steps + 1, col => do
      let next ← step riceK col
      if next.arm ≤ col.arm then Keep.fail
      else do
        let rest ← boundaries riceK steps next
        pure (next.point next.arm :: rest)

/-- `decodeMapChunk`: the boundaries of one chunk, or nothing where the
code returns -1. -/
def decodeMapChunk (map : Option Bytes) (mapSize chunkIndex : Nat)
    (outMax : Int) : Option (List MapPoint) :=
  match parseMap map mapSize with
  | none => none
  | some v =>
      let chunk := v.chunk chunkIndex
      if v.header.chunkCount.toNat ≤ chunkIndex then none
      -- `outMax` is cast to uint64_t, a negative one to a huge bound
      else if (BitVec.ofInt 64 outMax).toNat < chunk.insnCount.toNat + 1 then
        none
      else if v.header.streamSize < chunk.streamByte.toNat then none
      else
        let nextByte :=
          if chunkIndex + 1 < v.header.chunkCount.toNat
          then (v.chunk (chunkIndex + 1)).streamByte.toNat
          else v.header.streamSize
        let start : Column := { x86 := chunk.x86Offset, arm := chunk.armOffset }
        let decode : Bits (List MapPoint) := do
          let rest ← boundaries v.header.riceK chunk.insnCount.toNat start
          endsAt nextByte
          pure (start.point start.arm :: rest)
        (decode (v.reader chunk)).1

end X87Sidecar.GuestPc
