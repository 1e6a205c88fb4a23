/-
The cache in front of the fragment lookup.

With a memory that does not change and fragments that do not overlap,
what an entry holds stays true: its fragment is the one the tree gives
for each of its pcs, and a pc no fragment holds stays in none (`Sound`).
Every lookup keeps that. So a lookup with the cache answers as one
without it, but for one kind: a translated fragment's entry remembers
the pc it last answered without remembering whether it had an answer,
and answers the same pc again from its guest pc (`RepeatsUnmapped`).
-/
import X87Sidecar.GuestPc.Resolve
import X87Sidecar.Lib.Visits

namespace X87Sidecar.GuestPc

open Lib

variable {t : Target}

-- ===================================================== the fragment tree

/-- The nodes of the fragment tree, from the root by child pointers. -/
inductive Target.Reaches (t : Target) : BitVec 64 → Prop
  | root {a : BitVec 64} (h : t.root = some a) : t.Reaches a
  | left {a : BitVec 64} {win : Bytes} (h : t.Reaches a)
      (hr : readNode t.reader a = some win) : t.Reaches (armLeft win)
  | right {a : BitVec 64} {win : Bytes} (h : t.Reaches a)
      (hr : readNode t.reader a = some win) : t.Reaches (armRight win)

/-- A node of the tree and the fragment it holds. -/
def Target.Holds (t : Target) (frag : Fragment) : Prop :=
  t.Reaches frag.node ∧
    ∃ win, readNode t.reader frag.node = some win
      ∧ parseNode win frag.node = frag

/-- A pc lies in a fragment's ARM interval. -/
def Fragment.Spans (frag : Fragment) (pc : Nat) : Prop :=
  frag.armBegin.toNat ≤ pc
    ∧ pc < frag.armBegin.toNat + frag.armSize.toNat

/-- The intervals of the tree's fragments are disjoint. -/
def Target.Disjoint (t : Target) : Prop :=
  ∀ f g, t.Holds f → t.Holds g → f.node ≠ g.node →
    ∀ pc, ¬(f.Spans pc ∧ g.Spans pc)

/-- The end of an interval, when it lies above a pc of the fragment, is
where the addition says. -/
theorem Fragment.spans_of_lt {frag : Fragment} {pc : BitVec 64}
    (hb : frag.armBegin ≤ pc) (he : pc < frag.armEnd) :
    frag.Spans pc.toNat := by
  have h1 : frag.armBegin.toNat ≤ pc.toNat := hb
  have h2 : pc.toNat < frag.armEnd.toNat := he
  have hs : frag.armSize.toNat < 2 ^ 32 := frag.armSize.isLt
  unfold Fragment.armEnd at h2
  simp only [BitVec.toNat_add, BitVec.toNat_setWidth] at h2
  constructor
  · exact h1
  · omega

theorem contains_iff {frag : Fragment} {pc : BitVec 64} :
    contains frag pc = true
      ↔ frag.node ≠ 0 ∧ frag.armBegin ≤ pc ∧ pc < frag.armEnd := by
  simp [contains, and_assoc]

theorem spans_of_contains {frag : Fragment} {pc : BitVec 64}
    (h : contains frag pc = true) : frag.Spans pc.toNat :=
  let h := contains_iff.mp h
  Fragment.spans_of_lt h.2.1 h.2.2

-- ============================================================ the descent

/-- What a walk that finds a fragment found. -/
theorem descend_holds {pc : BitVec 64} {levels : Nat} {a : BitVec 64}
    {frag : Fragment} (ha : t.Reaches a)
    (h : descend t.reader pc levels a = .ok frag) :
    t.Holds frag ∧ contains frag pc = true := by
  induction levels generalizing a with
  | zero => cases h
  | succ levels ih =>
      unfold descend at h
      split at h
      · cases h
      rename_i hne
      split at h
      · cases h
      split at h
      · cases h
      rename_i win hwin
      simp only at h
      split at h
      · cases h
      split at h
      · exact ih (ha.left hwin) h
      rename_i hlo
      split at h
      · exact ih (ha.right hwin) h
      rename_i hhi
      cases h
      refine ⟨⟨ha, win, hwin, rfl⟩, ?_⟩
      apply contains_iff.mpr
      exact ⟨hne, BitVec.not_lt.mp hlo, BitVec.not_le.mp hhi⟩

/-- Two pcs of one fragment go the same way at every other node. -/
theorem same_side {f g : Fragment} {pc pc' : BitVec 64}
    (hd : ∀ x, ¬(f.Spans x ∧ g.Spans x)) (hsize : f.armSize ≠ 0)
    (hg : contains g pc = true) (hg' : contains g pc' = true) :
    (pc < f.armBegin ↔ pc' < f.armBegin) := by
  have hs := spans_of_contains hg
  have hs' := spans_of_contains hg'
  have hpos : 0 < f.armSize.toNat := by
    rcases Nat.eq_zero_or_pos f.armSize.toNat with h | h
    · exact absurd (BitVec.eq_of_toNat_eq h) hsize
    · exact h
  -- the first address of `f` would lie between the two pcs, in `g`
  have hbegin := hd f.armBegin.toNat
  have hin : f.Spans f.armBegin.toNat := ⟨Nat.le_refl _, by omega⟩
  have hout : ¬g.Spans f.armBegin.toNat := fun h => hbegin ⟨hin, h⟩
  unfold Fragment.Spans at hs hs' hout
  rw [BitVec.lt_def, BitVec.lt_def]
  constructor
  · intro h
    by_contra h'
    exact hout ⟨by omega, by omega⟩
  · intro h
    by_contra h'
    exact hout ⟨by omega, by omega⟩

/-- The walk finds a fragment for each of its pcs when it finds it for
one. -/
theorem descend_same (hd : t.Disjoint) {pc pc' : BitVec 64} {levels : Nat}
    {a : BitVec 64} {frag : Fragment} (ha : t.Reaches a)
    (h : descend t.reader pc levels a = .ok frag)
    (hc : contains frag pc' = true) :
    descend t.reader pc' levels a = .ok frag := by
  obtain ⟨hholds, hin⟩ := descend_holds ha h
  induction levels generalizing a with
  | zero => cases h
  | succ levels ih =>
      unfold descend at h ⊢
      split at h
      · cases h
      rename_i hne
      rw [if_neg hne]
      split at h
      · cases h
      rename_i hok
      rw [if_neg hok]
      cases hwin : readNode t.reader a with
      | none =>
          rw [hwin] at h
          cases h
      | some win =>
          rw [hwin] at h
          simp only at h ⊢
          split at h
          · cases h
          rename_i hsize
          rw [if_neg hsize]
          by_cases hnode : a = frag.node
          · -- the node of the fragment itself: both walks stop here
            have hfrag : parseNode win a = frag := by
              obtain ⟨-, win', hwin', hp⟩ := hholds
              rw [hnode] at hwin ⊢
              rw [hwin] at hwin'
              cases hwin'
              exact hp
            have hc' := contains_iff.mp hc
            rw [hfrag, if_neg (BitVec.not_lt.mpr hc'.2.1),
              if_neg (BitVec.not_le.mpr hc'.2.2)]
          · have hpos : (parseNode win a).armSize ≠ 0 :=
              fun h0 => hsize (Or.inl h0)
            have hapart : ∀ x, ¬((parseNode win a).Spans x ∧ frag.Spans x) :=
              hd _ _ ⟨ha, win, hwin, rfl⟩ hholds hnode
            have hside := same_side hapart hpos hin hc
            split at h
            · rename_i hlt
              rw [if_pos (hside.mp hlt)]
              exact ih (ha.left hwin) h
            rename_i hge
            rw [if_neg fun hlt => hge (hside.mpr hlt)]
            have hge' : ¬pc' < (parseNode win a).armBegin :=
              fun hlt => hge (hside.mpr hlt)
            have hend : (parseNode win a).armEnd ≤ pc' := by
              apply BitVec.not_lt.mp
              intro hlt
              exact hapart pc'.toNat
                ⟨Fragment.spans_of_lt (BitVec.not_lt.mp hge') hlt,
                  spans_of_contains hc⟩
            rw [if_pos hend]
            split at h
            · exact ih (ha.right hwin) h
            · rename_i hend'
              cases h
              exact absurd rfl hnode

/-- `lookupFragment` gives a fragment for each of its pcs when it gives
it for one. -/
theorem lookupFragment_same (hd : t.Disjoint) {pc pc' : BitVec 64}
    {frag : Fragment} (h : lookupFragment t pc = .ok frag)
    (hc : contains frag pc' = true) :
    lookupFragment t pc' = .ok frag := by
  unfold lookupFragment at h ⊢
  cases hroot : t.root with
  | none =>
      rw [hroot] at h
      cases h
  | some a =>
      rw [hroot] at h
      exact descend_same hd (.root hroot) h hc

/-- A fragment that `lookupFragment` gives is a node's, and holds the
pc. -/
theorem lookupFragment_holds {pc : BitVec 64} {frag : Fragment}
    (h : lookupFragment t pc = .ok frag) :
    t.Holds frag ∧ contains frag pc = true := by
  unfold lookupFragment at h
  cases hroot : t.root with
  | none =>
      rw [hroot] at h
      cases h
  | some a =>
      rw [hroot] at h
      exact descend_holds (.root hroot) h

/-- While memory stays as it is, a node of the tree validates. -/
theorem nodeUnchanged_of_holds {frag : Fragment} (h : t.Holds frag) :
    nodeUnchanged t.reader frag = true := by
  obtain ⟨-, win, hwin, hp⟩ := h
  unfold nodeUnchanged
  rw [hwin]
  simp [hp]

-- ============================================================ the decoder

/-- A pc lies before the first boundary of its fragment's map. -/
def BeforeBoundary (reader : Reader) (frag : Fragment) (pc : BitVec 64) :
    Prop :=
  ∃ header chunk, chunkFor reader frag pc = some (header, chunk)
    ∧ frag.offsetOf pc < chunk.armOffset

/-- A walk from a chunk that starts at or before the pc does not answer
that the pc is not translated, and never that an error resolved it. -/
theorem walkToTarget_error {br : BitReader} {riceK : Fin 4 → BitVec 8}
    {chunk : DeltaMapChunk} {armOffset : BitVec 32} {s : Status}
    (h : walkToTarget br riceK chunk armOffset = .error s) :
    s = if armOffset < chunk.armOffset then .notTranslated
        else .unavailable := by
  unfold walkToTarget at h
  split at h
  · rename_i hlt
    rw [if_pos hlt]
    cases h
    rfl
  · rename_i hge
    rw [if_neg hge]
    simp only at h
    split at h
    · cases h
    · cases h
      rfl

/-- The three ways a pc of a translated fragment can go. -/
theorem locate_cases (reader : Reader) (frag : Fragment) (pc : BitVec 64) :
    (∃ point, locate reader frag pc = .ok point)
        ∧ ¬BeforeBoundary reader frag pc
      ∨ locate reader frag pc = .error .notTranslated
        ∧ BeforeBoundary reader frag pc
      ∨ locate reader frag pc = .error .unavailable
        ∧ ¬BeforeBoundary reader frag pc := by
  unfold locate BeforeBoundary
  cases hc : chunkFor reader frag pc with
  | none =>
      refine Or.inr (Or.inr ⟨rfl, ?_⟩)
      intro ⟨_, _, h, _⟩
      cases h
  | some hchunk =>
      obtain ⟨header, chunk⟩ := hchunk
      by_cases hlt : frag.offsetOf pc < chunk.armOffset
      · have hbefore : ∃ header' chunk',
            some (header, chunk) = some (header', chunk')
              ∧ frag.offsetOf pc < chunk'.armOffset := ⟨_, _, rfl, hlt⟩
        refine Or.inr (Or.inl ⟨?_, hbefore⟩)
        dsimp only
        unfold walkToTarget
        rw [if_pos hlt]
      · have hafter : ¬∃ header' chunk',
            some (header, chunk) = some (header', chunk')
              ∧ frag.offsetOf pc < chunk'.armOffset := by
          intro ⟨_, _, h, h'⟩
          cases h
          exact hlt h'
        dsimp only
        split
        · rename_i s hs
          have hs' := walkToTarget_error hs
          rw [if_neg hlt] at hs'
          rw [hs']
          exact Or.inr (Or.inr ⟨rfl, hafter⟩)
        · rename_i point _
          split
          · exact Or.inr (Or.inr ⟨rfl, hafter⟩)
          · exact Or.inl ⟨⟨point, rfl⟩, hafter⟩

/-- What `resolveInFragment` answers, by what `locate` gives. -/
theorem resolveInFragment_ok {reader : Reader} {frag : Fragment}
    {pc : BitVec 64} {out : Resolution} {point : MapPoint}
    (hk : frag.kind = kTranslated)
    (h : locate reader frag pc = .ok point) :
    resolveInFragment reader frag pc out
      = (.resolved, out.found frag pc
          (frag.x86Begin + point.x86Offset.setWidth 64) point) := by
  unfold resolveInFragment
  rw [if_neg (not_not.mpr hk), h]

theorem resolveInFragment_before {reader : Reader} {frag : Fragment}
    {pc : BitVec 64} {out : Resolution}
    (hk : frag.kind = kTranslated)
    (h : locate reader frag pc = .error .notTranslated) :
    resolveInFragment reader frag pc out
      = (.notTranslated, { out with reason := .beforeFirstBoundary }) := by
  unfold resolveInFragment
  rw [if_neg (not_not.mpr hk), h]

theorem resolveInFragment_unavailable {reader : Reader} {frag : Fragment}
    {pc : BitVec 64} {out : Resolution}
    (hk : frag.kind = kTranslated)
    (h : locate reader frag pc = .error .unavailable) :
    resolveInFragment reader frag pc out = (.unavailable, out) := by
  unfold resolveInFragment
  rw [if_neg (not_not.mpr hk), h]

theorem resolveInFragment_routines {reader : Reader} {frag : Fragment}
    {pc : BitVec 64} {out : Resolution} (hk : frag.kind ≠ kTranslated) :
    resolveInFragment reader frag pc out
      = (.notTranslated, { out with reason := .runtimeRoutines }) := by
  unfold resolveInFragment
  rw [if_pos hk]

-- =============================================================== the cache

/-- What an entry holds is true of the memory. -/
structure Entry.Sound (t : Target) (e : Entry) : Prop where
  /-- a negative entry's pc lies in no fragment -/
  absent : e.used = true → e.fragment.node = 0 →
    lookupFragment t e.armPc = .error .notTranslated
  /-- a fragment is a node's -/
  holds : e.used = true → e.fragment.node ≠ 0 → t.Holds e.fragment
  /-- and the one the tree gives for each of its pcs -/
  found : e.used = true → e.fragment.node ≠ 0 →
    ∀ pc, contains e.fragment pc = true →
      lookupFragment t pc = .ok e.fragment
  /-- the entry's pc has an answer in it -/
  answered : e.used = true → e.fragment.node ≠ 0 →
    e.fragment.kind = kTranslated →
      locate t.reader e.fragment e.armPc ≠ .error .unavailable
  /-- and where that is a boundary, the entry holds it -/
  boundary : e.used = true → e.fragment.node ≠ 0 →
    e.fragment.kind = kTranslated →
      ∀ point, locate t.reader e.fragment e.armPc = .ok point →
        e.point = point
          ∧ e.x86Pc = e.fragment.x86Begin + point.x86Offset.setWidth 64

/-- What the entries of a cache hold is true of the memory. -/
def Cache.Sound (t : Target) (c : Cache) : Prop :=
  ∀ s w, (c.entries s w).Sound t

theorem Entry.Sound.blank : ({} : Entry).Sound t :=
  ⟨nofun, nofun, nofun, nofun, nofun⟩

theorem Cache.Sound.blank : ({} : Cache).Sound t :=
  fun _ _ => Entry.Sound.blank

/-- The stamp and the count of hits say nothing about the memory. -/
theorem Entry.Sound.restamp {e : Entry} (h : e.Sound t)
    (stamp : BitVec 64) (recheck : BitVec 32) :
    { e with stamp := stamp, recheck := recheck }.Sound t :=
  ⟨h.absent, h.holds, h.found, h.answered, h.boundary⟩

theorem Cache.Sound.put {c : Cache} (h : c.Sound t) {s : Fin kSets}
    {w : Fin kWays} {e : Entry} (he : e.Sound t) : (c.put s w e).Sound t := by
  intro s' w'
  unfold Cache.put
  dsimp only
  split
  · exact he
  · exact h s' w'

@[simp] theorem Cache.entries_put (c : Cache) (s : Fin kSets)
    (w : Fin kWays) (e : Entry) : (c.put s w e).entries s w = e := by
  simp [Cache.put]

/-- A hit of the scan covers the pc. -/
theorem covers_of_scan {ways : Fin kWays → Entry} {pc : BitVec 64}
    {ws : List (Fin kWays)} {victim w : Fin kWays}
    (h : scan ways pc ws victim = (true, w)) :
    (ways w).covers pc = true := by
  induction ws generalizing victim with
  | nil => cases h
  | cons w' ws ih =>
      unfold scan at h
      split at h
      · rename_i hc
        cases h
        exact hc
      · split at h
        · exact ih h
        · exact ih h

/-- What `select` gives: a sound cache, whose entry covers the pc on a
hit. -/
theorem select_sound {c c' : Cache} (hc : c.Sound t) {pc : BitVec 64}
    {hit : Bool} {w : Fin kWays} (h : c.select pc = (hit, w, c')) :
    c'.Sound t ∧ (hit = true →
      (c'.entries (setOf pc) w).covers pc = true) := by
  unfold Cache.select at h
  simp only [Prod.mk.injEq] at h
  obtain ⟨hhit, hw, hc'⟩ := h
  rw [hw] at hc'
  have he : c'.entries (setOf pc) w
      = { c.entries (setOf pc) w with stamp := c.clock + 1 } := by
    rw [← hc']
    exact Cache.entries_put _ _ _ _
  constructor
  · rw [← hc']
    exact Cache.Sound.put (fun s w => hc s w)
      ((hc (setOf pc) w).restamp _ _)
  · intro hh
    rw [he]
    exact covers_of_scan (Prod.ext (hhit.trans hh) hw)

-- ============================================================ one lookup

/-- The entry that a lookup's answer in a fragment leaves. -/
theorem Entry.Sound.ofFragment (hd : t.Disjoint) {e : Entry}
    {frag : Fragment} {pc : BitVec 64}
    (hf : lookupFragment t pc = .ok frag)
    (hfrag : e.fragment = frag) (hpc : e.armPc = pc)
    (hans : frag.kind = kTranslated →
      locate t.reader frag pc ≠ .error .unavailable)
    (hpoint : frag.kind = kTranslated →
      ∀ point, locate t.reader frag pc = .ok point → e.point = point
        ∧ e.x86Pc = frag.x86Begin + point.x86Offset.setWidth 64) :
    e.Sound t := by
  obtain ⟨hholds, hin⟩ := lookupFragment_holds hf
  have hne : e.fragment.node ≠ 0 := by
    rw [hfrag]
    exact (contains_iff.mp hin).1
  subst hfrag
  subst hpc
  constructor
  · intro _ h0
    exact absurd h0 hne
  · intro _ _
    exact hholds
  · intro _ _ pc' hc
    exact lookupFragment_same hd hf hc
  · intro _ _ hk
    exact hans hk
  · intro _ _ hk
    exact hpoint hk

/-- A cold lookup answers as one without a cache. -/
theorem resolveCold_answer (t : Target) (pc : BitVec 64) (out : Resolution)
    (c : Cache) (w : Fin kWays) :
    (resolveCold t pc out c w).1 = resolve t pc out := by
  unfold resolveCold resolve
  cases hf : lookupFragment t pc with
  | error s => cases s <;> rfl
  | ok frag =>
      dsimp only
      split <;> rfl

/-- A cold lookup leaves a sound cache. -/
theorem resolveCold_sound (hd : t.Disjoint) {c : Cache} (hc : c.Sound t)
    (pc : BitVec 64) (out : Resolution) (w : Fin kWays) :
    (resolveCold t pc out c w).2.Sound t := by
  unfold resolveCold
  cases hf : lookupFragment t pc with
  | error s =>
      cases s with
      | resolved => exact hc
      | unavailable => exact hc
      | notTranslated =>
          apply hc.put
          exact ⟨fun _ _ => hf, fun _ h => absurd rfl h,
            fun _ h => absurd rfl h, fun _ h => absurd rfl h,
            fun _ h => absurd rfl h⟩
  | ok frag =>
      dsimp only
      split
      · rename_i hs
        apply hc.put
        apply Entry.Sound.ofFragment hd hf rfl rfl
        · intro hk hu
          rw [resolveInFragment_unavailable hk hu] at hs
          exact hs rfl
        · intro hk point hp
          rw [resolveInFragment_ok hk hp]
          exact ⟨rfl, rfl⟩
      · exact hc

/-- Two answers say the same, as far as the status gives the fields a
meaning. -/
structure Agrees (a b : Status × Resolution) : Prop where
  status : a.1 = b.1
  /-- a resolved pc: where it is -/
  resolved : b.1 = .resolved →
    a.2.x86Pc = b.2.x86Pc ∧ a.2.armOffset = b.2.armOffset
      ∧ a.2.point = b.2.point ∧ a.2.fragment = b.2.fragment
  /-- one in no guest code: why -/
  reason : b.1 = .notTranslated → a.2.reason = b.2.reason

theorem Agrees.refl (a : Status × Resolution) : Agrees a a :=
  ⟨rfl, fun _ => ⟨rfl, rfl, rfl, rfl⟩, fun _ => rfl⟩

theorem Agrees.of_eq {a b : Status × Resolution} (h : a = b) :
    Agrees a b := h ▸ Agrees.refl a

/-- The lookup asks again for the pc that a translated fragment's entry
answered last, and that pc lies before the fragment's first boundary. -/
def RepeatsUnmapped (t : Target) (c : Cache) (pc : BitVec 64) : Prop :=
  ∃ w c', c.select pc = (true, w, c') ∧
    let e := c'.entries (setOf pc) w
    e.fragment.node ≠ 0 ∧ e.fragment.kind = kTranslated ∧ e.armPc = pc
      ∧ BeforeBoundary t.reader e.fragment pc

/-- What a covering entry of a fragment says of the pc. -/
theorem Entry.Sound.covered {e : Entry} (h : e.Sound t) {pc : BitVec 64}
    (hc : e.covers pc = true) (hn : e.fragment.node ≠ 0) :
    e.used = true ∧ contains e.fragment pc = true
      ∧ lookupFragment t pc = .ok e.fragment := by
  unfold Entry.covers at hc
  rw [if_pos hn, Bool.and_eq_true] at hc
  exact ⟨hc.1, hc.2, h.found hc.1 hn pc hc.2⟩

/-- What a covering entry of no fragment says of the pc. -/
theorem Entry.Sound.uncovered {e : Entry} (h : e.Sound t) {pc : BitVec 64}
    (hc : e.covers pc = true) (hn : e.fragment.node = 0) :
    lookupFragment t pc = .error .notTranslated := by
  unfold Entry.covers at hc
  rw [if_neg (not_not.mpr hn), Bool.and_eq_true, beq_iff_eq] at hc
  rw [← hc.2]
  exact h.absent hc.1 hn

/-- One lookup: the cache stays sound, and the answer is the uncached
one unless it repeats a pc before its fragment's first boundary. -/
theorem resolveCached_step (hd : t.Disjoint) {c : Cache} (hc : c.Sound t)
    (pc : BitVec 64) (out : Resolution) :
    (resolveCached t pc out c).2.Sound t
      ∧ (Agrees (resolveCached t pc out c).1 (resolve t pc out)
        ↔ ¬RepeatsUnmapped t c pc) := by
  rcases hsel : c.select pc with ⟨hit, w, c'⟩
  obtain ⟨hc', hcov⟩ := select_sound hc hsel
  have hcold : ∀ d : Cache, d.Sound t →
      ¬RepeatsUnmapped t c pc →
      (resolveCold t pc out d w).2.Sound t
        ∧ (Agrees (resolveCold t pc out d w).1 (resolve t pc out)
          ↔ ¬RepeatsUnmapped t c pc) := by
    intro d hdc hno
    refine ⟨resolveCold_sound hd hdc pc out w, ?_⟩
    rw [resolveCold_answer]
    exact ⟨fun _ => hno, fun _ => Agrees.refl _⟩
  have hrep : RepeatsUnmapped t c pc ↔ hit = true ∧
      let e := c'.entries (setOf pc) w
      e.fragment.node ≠ 0 ∧ e.fragment.kind = kTranslated ∧ e.armPc = pc
        ∧ BeforeBoundary t.reader e.fragment pc := by
    constructor
    · rintro ⟨w', c'', h, hrest⟩
      rw [hsel] at h
      cases h
      exact ⟨rfl, hrest⟩
    · rintro ⟨hhit, hrest⟩
      exact ⟨w, c', hhit ▸ hsel, hrest⟩
  unfold resolveCached
  rw [hsel]
  dsimp only
  generalize he : c'.entries (setOf pc) w = e at hcov hrep
  have hsound : e.Sound t := he ▸ hc' (setOf pc) w
  split
  · -- an entry of a fragment covers the pc
    rename_i h
    simp only [Bool.and_eq_true, bne_iff_ne] at h
    obtain ⟨hhit, hn⟩ := h
    obtain ⟨hused, hin, hfound⟩ := hsound.covered (hcov hhit) hn
    rw [if_pos (nodeUnchanged_of_holds (hsound.holds hused hn))]
    have hres : resolve t pc out
        = resolveInFragment t.reader e.fragment pc out := by
      unfold resolve
      rw [hfound]
    split
    · rename_i hk
      refine ⟨hc', ?_⟩
      rw [hres, resolveInFragment_routines hk]
      exact ⟨fun _ h => hk (hrep.mp h).2.2.1, fun _ => Agrees.refl _⟩
    rename_i hk
    have hk := not_not.mp hk
    split
    · rename_i hpc
      refine ⟨hc', ?_⟩
      rw [hres]
      rcases locate_cases t.reader e.fragment pc with
        ⟨⟨point, hp⟩, hafter⟩ | ⟨hbefore, hb⟩ | ⟨hun, -⟩
      · -- the entry holds the boundary the decoder gives
        obtain ⟨hpt, hx⟩ := hsound.boundary hused hn hk point (hpc ▸ hp)
        rw [resolveInFragment_ok hk hp, ← hx, ← hpt]
        refine ⟨fun _ h => ?_, fun _ => Agrees.refl _⟩
        exact hafter (hrep.mp h).2.2.2.2
      · rw [resolveInFragment_before hk hbefore]
        constructor
        · intro h
          cases h.status
        · intro h
          exact absurd (hrep.mpr ⟨hhit, hn, hk, hpc, hb⟩) h
      · exact absurd (hpc ▸ hun) (hsound.answered hused hn hk)
    · -- the same fragment at another pc: the decoder answers
      rename_i hpc
      have hno : ¬RepeatsUnmapped t c pc :=
        fun h => hpc (hrep.mp h).2.2.2.1
      rcases locate_cases t.reader e.fragment pc with
        ⟨⟨point, hp⟩, -⟩ | ⟨hbefore, -⟩ | ⟨hun, -⟩
      · rw [hres, resolveInFragment_ok hk hp]
        refine ⟨?_, fun _ => hno, fun _ => Agrees.refl _⟩
        apply hc'.put
        refine Entry.Sound.ofFragment hd hfound rfl rfl ?_ ?_
        · intro _ hu
          rw [hp] at hu
          cases hu
        · intro _ point' hp'
          rw [hp] at hp'
          cases hp'
          exact ⟨rfl, rfl⟩
      · rw [hres, resolveInFragment_before hk hbefore]
        refine ⟨?_, fun _ => hno, fun _ => Agrees.refl _⟩
        apply hc'.put
        refine Entry.Sound.ofFragment hd hfound rfl rfl ?_ ?_
        · intro _ hu
          rw [hbefore] at hu
          cases hu
        · intro _ point' hp'
          rw [hbefore] at hp'
          cases hp'
      · rw [resolveInFragment_unavailable hk hun]
        exact hcold c' hc' hno
  · rename_i h
    have hno : ¬RepeatsUnmapped t c pc := by
      intro hr
      obtain ⟨hhit, hn, -⟩ := hrep.mp hr
      exact h (by simpa [hhit] using hn)
    split
    · -- a pc in no fragment, remembered as such
      rename_i hneg
      rw [Bool.and_eq_true] at hneg
      have hn : e.fragment.node = 0 := by
        by_contra hn
        exact h (by simpa [hneg.1] using hn)
      refine ⟨hc'.put (hsound.restamp _ _), fun _ => hno, fun _ => ?_⟩
      apply Agrees.of_eq
      unfold resolve
      rw [hsound.uncovered (hcov hneg.1) hn]
    · exact hcold c' hc' hno

-- ======================================================= a run of lookups

/-- A lookup: the pc, and the out parameter as the caller passes it. -/
abbrev Query := BitVec 64 × Resolution

/-- The cache after a lookup. -/
def Cache.after (t : Target) (c : Cache) (q : Query) : Cache :=
  (resolveCached t q.1 q.2 c).2

/-- A lookup answers with the cache as it would without. -/
def SameAnswer (t : Target) (c : Cache) (q : Query) : Prop :=
  Agrees (resolveCached t q.1 q.2 c).1 (resolve t q.1 q.2)

/-- Every lookup of a sequence through one cache does. -/
def Transparent (t : Target) (queries : List Query) : Prop :=
  ∀ v ∈ visits (Cache.after t) {} queries, SameAnswer t v.1 v.2

/-- The cache is transparent on exactly the sequences that never ask
again for a pc before its fragment's first boundary while the fragment's
entry still has it as the pc it answered last. -/
theorem transparent_iff (t : Target) (hd : t.Disjoint)
    (queries : List Query) :
    Transparent t queries
      ↔ ∀ v ∈ visits (Cache.after t) {} queries,
          ¬RepeatsUnmapped t v.1 v.2.1 := by
  unfold Transparent
  refine visits_iff (Cache.Sound t) (SameAnswer t)
    (fun c q => ¬RepeatsUnmapped t c q.1) ?_ ?_ ?_ queries
  · intro c q hc
    exact (resolveCached_step hd hc q.1 q.2).1
  · intro c q hc
    exact (resolveCached_step hd hc q.1 q.2).2
  · exact Cache.Sound.blank

/-- The bytes of 8-byte fields at given offsets, zero elsewhere. -/
def fieldBytes (fields : List (Nat × BitVec 64)) : Bytes := fun i =>
  (fields.findSome? fun f : Nat × BitVec 64 =>
    if f.1 ≤ i ∧ i < f.1 + 8 then
      some ((f.2 >>> (8 * (i - f.1))).setWidth 8)
    else none).getD 0

/-- The node of a fragment of 32 ARM bytes at 0x500000, translated from
16 bytes at 0x400000, with its map at 0x30000 and no children. -/
def oneNode : Bytes :=
  fieldBytes [(0x48 - kWindowBegin, 0x400000), (0x58 - kWindowBegin, 0x500000),
    (0x78 - kWindowBegin, 4), (0x80 - kWindowBegin, 0x30000),
    (0x98 - kWindowBegin, 0x2000000010)]

/-- A runtime with this one fragment, whose map has one boundary, at ARM
offset 8. -/
def oneFragment : Target where
  runtimeBase := 0x10000
  armTreeRootOffset := 0x100
  reader addr len :=
    match addr.toNat, len with
    | 0x10100, 8 => some (fieldBytes [(0, 0x20000)])
    | 0x20030, 0x70 => some oneNode
    | 0x30000, 32 =>
        some (fieldBytes [(0x10, 0x100000030), (0x18, 0x3000000020)])
    | 0x30020, 16 => some (fieldBytes [(0, 0x800000000)])
    | _, _ => none

theorem oneFragment_reaches {a : BitVec 64} (h : oneFragment.Reaches a) :
    a = 0x20000 ∨ a = 0 := by
  have hkids : ∀ {a : BitVec 64} {win : Bytes}, a = 0x20000 ∨ a = 0 →
      readNode oneFragment.reader a = some win → win = oneNode := by
    intro a win ha hr
    rcases ha with rfl | rfl
    · exact (Option.some.inj hr).symm
    · cases hr
  induction h with
  | root h =>
      have hroot : oneFragment.root = some 0x20000 := by decide
      rw [hroot] at h
      exact Or.inl (Option.some.inj h).symm
  | left _ hr ih =>
      rw [hkids ih hr]
      exact Or.inr (by decide)
  | right _ hr ih =>
      rw [hkids ih hr]
      exact Or.inr (by decide)

theorem oneFragment_disjoint : oneFragment.Disjoint := by
  have hone : ∀ f, oneFragment.Holds f → f.node = 0x20000 := by
    intro f hf
    obtain ⟨hr, win, hwin, -⟩ := hf
    rcases oneFragment_reaches hr with h | h
    · exact h
    · rw [h] at hwin
      cases hwin
  intro f g hf hg hne
  exact absurd ((hone f hf).trans (hone g hg).symm) hne

/-- At work on two pcs of the fragment, one before its boundary. -/
theorem transparent_iff_twoPcs :
    Transparent oneFragment [(0x500004, {}), (0x500010, {})]
      ↔ ∀ v ∈ visits (Cache.after oneFragment) {}
            [(0x500004, {}), (0x500010, {})],
          ¬RepeatsUnmapped oneFragment v.1 v.2.1 :=
  transparent_iff oneFragment oneFragment_disjoint _

/-- A pc before the fragment's boundary, asked for twice: the second
answer is a resolved one. -/
theorem not_transparent_repeated :
    oneFragment.Disjoint
      ∧ ¬Transparent oneFragment [(0x500004, {}), (0x500004, {})] := by
  refine ⟨oneFragment_disjoint, ?_⟩
  intro h
  have h2 := h _ (List.mem_cons_of_mem _ List.mem_cons_self)
  have hs := h2.status
  revert hs
  decide

end X87Sidecar.GuestPc
