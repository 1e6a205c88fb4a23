/-
The encoding that the delta decoder reads back.

The loader never writes a map, the runtime it inspects does. This is the
format of `rosetta_loader/src/guest_pc_map.{hpp,cpp}` from the writer's
side: Golomb-Rice codes and escapes for the steps of a chunk, chunks
padded to 32-bit words, records and a header in front. Where a step may
be written either way, Rice coded or raw, the writer chooses.
-/
import X87Sidecar.GuestPc.Map

namespace X87Sidecar.GuestPc

-- ================================================================= numbers

/-- `n` bits of a number, from bit `i` up. -/
def bitsOf (x : BitVec 32) (i n : Nat) : List Bool :=
  (List.range' i n).map x.getLsbD

/-- The Golomb-Rice code of a number. -/
def riceBits (k : Nat) (x : BitVec 32) : List Bool :=
  List.replicate (x.toNat >>> k) true ++ [false] ++ bitsOf x 0 k

/-- The two columns of a step, raw. -/
def rawBits (dArm dX86 : BitVec 32) : List Bool :=
  bitsOf dArm 0 32 ++ bitsOf dX86 0 32

-- =================================================================== steps

/-- The flags that a step can carry: one of 0 to 3, or 1 with a second
byte. -/
def Encodable (flags : BitVec 32) : Prop :=
  flags = 0 ∨ flags = 2 ∨ flags = 3 ∨ flags &&& 0xFFFF00FF = 1

instance (flags : BitVec 32) : Decidable (Encodable flags) :=
  inferInstanceAs (Decidable (_ ∨ _))

/-- The selector of a step's flags, with what follows it. -/
def selectorBits (k2 : Nat) (flags : BitVec 32) : List Bool :=
  if flags = 1 then riceBits k2 1
  else if flags = 2 then riceBits k2 3
  else if flags = 3 then riceBits k2 4
  else riceBits k2 2 ++ riceBits k2 (flags >>> 8)

/-- The columns of a step that carries flags: raw ones follow a zero. -/
def columnBits (k1 k2 : Nat) (raw : Bool) (dArm dX86 : BitVec 32) :
    List Bool :=
  if raw then riceBits k2 0 ++ rawBits dArm dX86
  else riceBits k2 dArm ++ riceBits k1 dX86

/-- A step. -/
def stepBits (k1 k2 : Nat) (raw : Bool) (dArm dX86 flags : BitVec 32) :
    List Bool :=
  if flags = 0 then
    if raw then riceBits k2 0 ++ (riceBits k2 0 ++ rawBits dArm dX86)
    else riceBits k2 dArm ++ riceBits k1 dX86
  else riceBits k2 0
    ++ (selectorBits k2 flags ++ columnBits k1 k2 raw dArm dX86)

/-- The steps from one boundary along a list of them. -/
def stepsBits (k1 k2 : Nat) (raw : MapPoint → Bool) :
    MapPoint → List MapPoint → List Bool
  | _, [] => []
  | p, q :: rest =>
      stepBits k1 k2 (raw q) ((q.armOffset - p.armOffset) >>> 2)
          (q.x86Offset - p.x86Offset) q.flags
        ++ stepsBits k1 k2 raw q rest

/-- A list of boundaries that has an encoding, from the one before it:
the ARM column goes up, by whole instructions and by no more than a
fragment holds. -/
def Increasing : MapPoint → List MapPoint → Prop
  | _, [] => True
  | p, q :: rest =>
      p.armOffset < q.armOffset
        ∧ 4 ∣ (q.armOffset - p.armOffset).toNat
        ∧ q.armOffset - p.armOffset ≤ kMaxFragmentSize
        ∧ Encodable q.flags ∧ q.exact = true ∧ Increasing q rest

-- ================================================================== chunks

/-- The boundaries of a chunk: the one it starts from and those that
steps lead to. -/
structure ChunkList where
  first : MapPoint
  rest : List MapPoint

/-- All of them. -/
def ChunkList.all (c : ChunkList) : List MapPoint := c.first :: c.rest

/-- A chunk's list has an encoding. -/
structure ChunkList.Fits (c : ChunkList) : Prop where
  flags : c.first.flags = 0
  exact : c.first.exact = true
  increasing : Increasing c.first c.rest
  count : c.rest.length < 2 ^ 32

/-- The zero bits that fill a 32-bit word up. -/
def padding (n : Nat) : Nat := (32 - n % 32) % 32

/-- The stream of one chunk. -/
def chunkBits (k1 k2 : Nat) (raw : MapPoint → Bool) (c : ChunkList) :
    List Bool :=
  let steps := stepsBits k1 k2 raw c.first c.rest
  steps ++ List.replicate (padding steps.length) false

/-- The stream of a map. -/
def streamBits (k1 k2 : Nat) (raw : MapPoint → Bool)
    (chunks : List ChunkList) : List Bool :=
  chunks.flatMap (chunkBits k1 k2 raw)

-- =================================================================== bytes

/-- A `uint32_t`, least significant byte first. -/
def le32 (x : BitVec 32) : List (BitVec 8) :=
  [x.setWidth 8, (x >>> 8).setWidth 8, (x >>> 16).setWidth 8,
    (x >>> 24).setWidth 8]

/-- A byte of a bit stream, least significant bit first. -/
def packByte (bits : List Bool) (i : Nat) : BitVec 8 :=
  BitVec.ofBoolListLE ((List.range 8).map fun j =>
    bits.getD (8 * i + j) false)

/-- Bits as bytes. -/
def packBits (bits : List Bool) : List (BitVec 8) :=
  (List.range (bits.length / 8)).map (packByte bits)

/-- A chunk's record. -/
def recordBytes (c : ChunkList) (streamByte : Nat) : List (BitVec 8) :=
  le32 c.first.x86Offset ++ le32 c.first.armOffset
    ++ le32 (BitVec.ofNat 32 streamByte)
    ++ le32 (BitVec.ofNat 32 c.rest.length)

/-- The records of the chunks, the first one's stream at a byte. -/
def recordsBytes (k1 k2 : Nat) (raw : MapPoint → Bool) :
    Nat → List ChunkList → List (BitVec 8)
  | _, [] => []
  | streamByte, c :: rest =>
      recordBytes c streamByte
        ++ recordsBytes k1 k2 raw
          (streamByte + (chunkBits k1 k2 raw c).length / 8) rest

/-- Where the stream of a map begins. -/
def streamStart (chunks : List ChunkList) : Nat :=
  headerSize + chunks.length * chunkSize

/-- The size of a map. -/
def mapLength (k1 k2 : Nat) (raw : MapPoint → Bool)
    (chunks : List ChunkList) : Nat :=
  streamStart chunks + (streamBits k1 k2 raw chunks).length / 8

/-- The records and the stream of a map. -/
def bodyBytes (k1 k2 : Nat) (raw : MapPoint → Bool)
    (chunks : List ChunkList) : List (BitVec 8) :=
  recordsBytes k1 k2 raw 0 chunks ++ packBits (streamBits k1 k2 raw chunks)

/-- A map: its header and what follows it. -/
def encodeMap (k1 k2 : BitVec 8) (raw : MapPoint → Bool)
    (chunks : List ChunkList) : List (BitVec 8) :=
  [0, k1, k2, 0] ++ (le32 0 ++ (le32 0 ++ (le32 0
    ++ (le32 (BitVec.ofNat 32 (mapLength k1.toNat k2.toNat raw chunks))
    ++ (le32 (BitVec.ofNat 32 chunks.length)
    ++ (le32 (BitVec.ofNat 32 headerSize)
    ++ (le32 (BitVec.ofNat 32 (streamStart chunks))
    ++ bodyBytes k1.toNat k2.toNat raw chunks)))))))

/-- The chunks have an encoding that a header can describe. -/
structure MapFits (k1 k2 : BitVec 8) (raw : MapPoint → Bool)
    (chunks : List ChunkList) : Prop where
  rice1 : k1.toNat ≤ 31
  rice2 : k2.toNat ≤ 31
  nonempty : 0 < chunks.length
  count : chunks.length ≤ 2 ^ 20
  size : mapLength k1.toNat k2.toNat raw chunks < 2 ^ 32
  fits : ∀ c ∈ chunks, c.Fits

/-- A list of bytes as a buffer. -/
def bufferOf (l : List (BitVec 8)) : Bytes := fun i => l.getD i 0

end X87Sidecar.GuestPc
