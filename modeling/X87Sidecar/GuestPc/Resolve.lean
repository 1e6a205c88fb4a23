/-
From an ARM pc to a guest pc: the fragment tree, the map of a fragment,
and the cache in front of both
(`rosetta_loader/src/guest_pc_map.{hpp,cpp}`).

The runtime keeps one node per translated fragment in a binary search
tree keyed on the ARM interval. `lookupFragment` walks it,
`resolveInFragment` decodes the pc against the fragment's map, `resolve`
is the two in turn. The overload with a `Cache` first looks for an entry
covering the pc; `select` finds it or the entry to replace.

Left out: the cache's statistics, which no lookup reads.
-/
import X87Sidecar.GuestPc.Map

namespace X87Sidecar.GuestPc

open Lib

-- ================================================================= nodes

/-- `NoGuestReason`. -/
inductive NoGuestReason
  | unknown | noFragment | runtimeRoutines | beforeFirstBoundary
  deriving DecidableEq, Repr

/-- `node::kWindowBegin`. -/
def kWindowBegin : Nat := 0x30

/-- `kNodeWindow`. -/
def kNodeWindow : Nat := 0xA0 - kWindowBegin

/-- `FragmentKind::Translated`. -/
def kTranslated : BitVec 8 := 4

/-- `Fragment`: the fields of a node that a lookup needs. -/
structure Fragment where
  node : BitVec 64 := 0
  x86Begin : BitVec 64 := 0
  armBegin : BitVec 64 := 0
  map : BitVec 64 := 0
  x86Size : BitVec 32 := 0
  armSize : BitVec 32 := 0
  kind : BitVec 8 := 0
  deriving DecidableEq

/-- `parseNode`: a fragment from a window read at `kWindowBegin`. -/
def parseNode (win : Bytes) (nodeAddr : BitVec 64) : Fragment where
  node := nodeAddr
  armBegin := win.u64 (0x58 - kWindowBegin)
  armSize := win.u32 (0x9c - kWindowBegin)
  x86Begin := win.u64 (0x48 - kWindowBegin)
  map := win.u64 (0x80 - kWindowBegin)
  x86Size := win.u32 (0x98 - kWindowBegin)
  kind := win (0x78 - kWindowBegin)

/-- The left child, `node::kArmLeft`. -/
def armLeft (win : Bytes) : BitVec 64 := win.u64 (0x30 - kWindowBegin)

/-- The right child, `node::kArmRight`. -/
def armRight (win : Bytes) : BitVec 64 := win.u64 (0x38 - kWindowBegin)

/-- `arm_begin + arm_size`, as the code adds them. -/
def Fragment.armEnd (frag : Fragment) : BitVec 64 :=
  frag.armBegin + frag.armSize.setWidth 64

/-- `contains`. -/
def contains (frag : Fragment) (armPc : BitVec 64) : Bool :=
  frag.node != 0 && decide (frag.armBegin ≤ armPc)
    && decide (armPc < frag.armEnd)

-- ============================================================== the lookup

/-- What is inspected: the process, its runtime's base and the offset of
the tree's root within it (`g_armTreeRootOffset`, 0 when not found). -/
structure Target where
  reader : Reader
  runtimeBase : BitVec 64
  armTreeRootOffset : BitVec 64

/-- `Resolution`, the out parameter of a lookup. -/
structure Resolution where
  x86Pc : BitVec 64 := 0
  fragment : Fragment := {}
  armOffset : BitVec 32 := 0
  point : MapPoint := {}
  reason : NoGuestReason := .unknown
  deriving DecidableEq

/-- `kMaxTreeDepth`. -/
def kMaxTreeDepth : Nat := 4096

/-- The read of one node, at the window a lookup needs. -/
def readNode (reader : Reader) (nodeAddr : BitVec 64) : Option Bytes :=
  reader (nodeAddr + BitVec.ofNat 64 kWindowBegin) kNodeWindow

/-- The walk of `lookupFragment` from a node, with the levels left. -/
def descend (reader : Reader) (armPc : BitVec 64) :
    (levels : Nat) → BitVec 64 → Except Status Fragment
  | 0, _ => .error .unavailable
  | levels + 1, nodeAddr =>
      if nodeAddr = 0 then .error .notTranslated
      else if nodeAddr < 0x1000 ∨ nodeAddr &&& 7 ≠ 0 then
        .error .unavailable
      else match readNode reader nodeAddr with
        | none => .error .unavailable
        | some win =>
            let frag := parseNode win nodeAddr
            if frag.armSize = 0 ∨ kMaxFragmentSize < frag.armSize then
              .error .unavailable
            else if armPc < frag.armBegin then
              descend reader armPc levels (armLeft win)
            else if frag.armEnd ≤ armPc then
              descend reader armPc levels (armRight win)
            else .ok frag

/-- The root of the tree. -/
def Target.root (t : Target) : Option (BitVec 64) :=
  if t.armTreeRootOffset = 0 then none
  else (t.reader (t.runtimeBase + t.armTreeRootOffset) 8).map
    fun b => b.u64 0

/-- `lookupFragment`. -/
def lookupFragment (t : Target) (armPc : BitVec 64) :
    Except Status Fragment :=
  match t.root with
  | none => .error .unavailable
  | some nodeAddr => descend t.reader armPc kMaxTreeDepth nodeAddr

/-- `armPc - frag.arm_begin`, as the code narrows it. -/
def Fragment.offsetOf (frag : Fragment) (armPc : BitVec 64) : BitVec 32 :=
  (armPc - frag.armBegin).setWidth 32

/-- The first half of `resolveInFragment`'s decode: the map's header and
the chunk to decode an ARM pc from. -/
def chunkFor (reader : Reader) (frag : Fragment) (armPc : BitVec 64) :
    Option (DeltaMapHeader × DeltaMapChunk) :=
  if frag.map = 0 ∨ frag.x86Size = 0 then none
  else match reader frag.map headerSize with
    | none => none
    | some b =>
        let header := DeltaMapHeader.ofBytes b
        if !checkHeader header then none
        else
          let chunksAddr := frag.map + header.chunksOffset.setWidth 64
          let fetch := fun i : Nat =>
            (reader (chunksAddr + BitVec.ofNat 64 (i * chunkSize))
              chunkSize).map fun b => DeltaMapChunk.ofBytes b 0
          match (findChunk header.chunkCount (frag.offsetOf armPc) fetch).bind
              fetch with
          | none => none
          | some chunk =>
              if header.streamSize < chunk.streamByte.toNat then none
              else some (header, chunk)

/-- The decode of `resolveInFragment`: the boundary an ARM pc of a
translated fragment falls on. -/
def locate (reader : Reader) (frag : Fragment) (armPc : BitVec 64) :
    Except Status MapPoint :=
  match chunkFor reader frag armPc with
  | none => .error .unavailable
  | some (header, chunk) =>
      let br : BitReader :=
        { stream := .remote reader
            (frag.map + header.streamOffset.setWidth 64)
          size := header.streamSize
          pos := chunk.streamByte.toNat }
      match walkToTarget br header.riceK chunk (frag.offsetOf armPc) with
      | .error s => .error s
      | .ok point =>
          if frag.x86Size < point.x86Offset then .error .unavailable
          else .ok point

/-- The out parameter of a pc resolved to a boundary. -/
def Resolution.found (out : Resolution) (frag : Fragment)
    (armPc x86Pc : BitVec 64) (point : MapPoint) : Resolution :=
  { out with
    fragment := frag
    armOffset := frag.offsetOf armPc
    point := point
    x86Pc := x86Pc }

/-- `resolveInFragment`. -/
def resolveInFragment (reader : Reader) (frag : Fragment)
    (armPc : BitVec 64) (out : Resolution) : Status × Resolution :=
  if frag.kind ≠ kTranslated then
    (.notTranslated, { out with reason := .runtimeRoutines })
  else match locate reader frag armPc with
    | .ok point =>
        (.resolved, out.found frag armPc
          (frag.x86Begin + point.x86Offset.setWidth 64) point)
    | .error .notTranslated =>
        (.notTranslated, { out with reason := .beforeFirstBoundary })
    | .error s => (s, out)

/-- `resolve`. -/
def resolve (t : Target) (armPc : BitVec 64) (out : Resolution) :
    Status × Resolution :=
  match lookupFragment t armPc with
  | .ok frag => resolveInFragment t.reader frag armPc out
  | .error .notTranslated =>
      (.notTranslated, { out with reason := .noFragment })
  | .error s => (s, out)

-- =============================================================== the cache

/-- `Cache::kSets`. -/
def kSets : Nat := 256

/-- `Cache::kWays`. -/
def kWays : Nat := 8

/-- `Cache::kNegativeRecheck`. -/
def kNegativeRecheck : BitVec 32 := 64

/-- `Cache::Entry`. A node of 0 marks a negative entry. -/
structure Entry where
  fragment : Fragment := {}
  armPc : BitVec 64 := 0
  x86Pc : BitVec 64 := 0
  point : MapPoint := {}
  stamp : BitVec 64 := 0
  recheck : BitVec 32 := 0
  used : Bool := false

/-- `Cache`. -/
structure Cache where
  entries : Fin kSets → Fin kWays → Entry := fun _ _ => {}
  clock : BitVec 64 := 0

/-- The set of an ARM pc, chosen by its page. -/
def setOf (armPc : BitVec 64) : Fin kSets :=
  ⟨(armPc >>> 12).toNat % kSets, Nat.mod_lt _ (by decide)⟩

/-- An entry covers a pc. -/
def Entry.covers (e : Entry) (armPc : BitVec 64) : Bool :=
  e.used && if e.fragment.node ≠ 0 then contains e.fragment armPc
            else e.armPc == armPc

/-- The entry of a set at one of its ways. -/
def Cache.put (c : Cache) (s : Fin kSets) (w : Fin kWays) (e : Entry) :
    Cache :=
  { c with entries := fun s' w' =>
      if s' = s ∧ w' = w then e else c.entries s' w' }

/-- The scan of a set: the first way covering the pc, with `true`, or
the way to replace. -/
def scan (ways : Fin kWays → Entry) (armPc : BitVec 64) :
    List (Fin kWays) → Fin kWays → Bool × Fin kWays
  | [], victim => (false, victim)
  | w :: rest, victim =>
      if (ways w).covers armPc then (true, w)
      else if !(ways w).used || decide ((ways w).stamp < (ways victim).stamp)
      then scan ways armPc rest w
      else scan ways armPc rest victim

/-- `Cache::select`: whether an entry covers the pc, which way of its
set it is or will be, and the cache with that entry stamped. -/
def Cache.select (c : Cache) (armPc : BitVec 64) :
    Bool × Fin kWays × Cache :=
  let c := { c with clock := c.clock + 1 }
  let s := setOf armPc
  let (hit, w) := scan (c.entries s) armPc (List.finRange kWays) ⟨0, by decide⟩
  (hit, w, c.put s w { c.entries s w with stamp := c.clock })

/-- `nodeUnchanged`: the one read that proves a cached fragment is still
the fragment it was. -/
def nodeUnchanged (reader : Reader) (cached : Fragment) : Bool :=
  match readNode reader cached.node with
  | none => false
  | some win => parseNode win cached.node == cached

/-- The entry that a cold lookup leaves when it answers. -/
def Entry.answered (e : Entry) (frag : Fragment) (armPc x86Pc : BitVec 64)
    (point : MapPoint) : Entry :=
  { fragment := frag, armPc := armPc, x86Pc := x86Pc, point := point,
    stamp := e.stamp, used := true }

/-- The cold half of the cached `resolve`, from its miss on. -/
def resolveCold (t : Target) (armPc : BitVec 64) (out : Resolution)
    (c : Cache) (w : Fin kWays) : (Status × Resolution) × Cache :=
  let s := setOf armPc
  let e := c.entries s w
  match lookupFragment t armPc with
  | .error .notTranslated =>
      ((.notTranslated, { out with reason := .noFragment }),
        c.put s w (e.answered {} armPc 0 {}))
  | .error status => ((status, out), c)
  | .ok frag =>
      let (status, out) := resolveInFragment t.reader frag armPc out
      if status ≠ .unavailable then
        ((status, out), c.put s w (e.answered frag armPc
          (if status = .resolved then out.x86Pc else 0) out.point))
      else ((status, out), c)

/-- `resolve` with a cache: the answer and the cache afterwards. -/
def resolveCached (t : Target) (armPc : BitVec 64) (out : Resolution)
    (c : Cache) : (Status × Resolution) × Cache :=
  let (hit, w, c) := c.select armPc
  let s := setOf armPc
  let e := c.entries s w
  if hit && e.fragment.node != 0 then
    if nodeUnchanged t.reader e.fragment then
      if e.fragment.kind ≠ kTranslated then
        ((.notTranslated, { out with reason := .runtimeRoutines }), c)
      else if e.armPc = armPc then
        ((.resolved, out.found e.fragment armPc e.x86Pc e.point), c)
      else
        let (status, out) := resolveInFragment t.reader e.fragment armPc out
        if status ≠ .unavailable then
          ((status, out), c.put s w
            { e with armPc := armPc, x86Pc := out.x86Pc, point := out.point })
        else resolveCold t armPc out c w
    else resolveCold t armPc out (c.put s w {}) w
  else if hit && decide (e.recheck < kNegativeRecheck) then
    ((.notTranslated, { out with reason := .noFragment }),
      c.put s w { e with recheck := e.recheck + 1 })
  else resolveCold t armPc out c w

end X87Sidecar.GuestPc
