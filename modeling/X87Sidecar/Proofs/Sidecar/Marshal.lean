/-
A reply is appended to the tracee's buffers or leaves them as they were.

Every failure comes before the translation result is written back, so a
declined or failed request leaves its pointers alone, and every write
goes past the end of a buffer or to a new allocation
(`append_or_nothing`). The run cache is another matter: it is stored
before that last write, so when the write fails the thread keeps a cache
for code the tracee never received (`not_correct_lastWrite`); otherwise
it does not (`answers_correct_iff`).
-/
import X87Sidecar.Sidecar.Marshal
import X87Sidecar.Translate.Run

namespace X87Sidecar

/-- The cache holds registers, owes memory an update or has a run. -/
def X87Cache.Claims (c : X87Cache) : Prop :=
  c.active = true ∨ c.gprsValid = true ∨ c.topDirty = true
    ∨ c.tagPushPending = true ∨ 0 < c.deferredPopCount
    ∨ c.permDirty = true

theorem X87Cache.not_claims_invalidate (c : X87Cache) :
    ¬c.invalidate.Claims := by
  unfold Claims invalidate active
  simp

end X87Sidecar

namespace X87Sidecar.Sidecar

open Lib

variable {ρ ι : Type}

-- ================================================ what a request promises

/-- The tracee's buffers and list pointers are as they were, and so is
every live byte. -/
structure Untouched (addr : Nat) (s s' : SidecarState ρ) : Prop where
  bufs : (s'.world.tr addr).bufs = (s.world.tr addr).bufs
  bytes : ∀ j, ∀ i < ((s.world.tr addr).bufs j).live,
    s'.world.remote.byte (((s.world.tr addr).bufs j).base + i)
      = s.world.remote.byte (((s.world.tr addr).bufs j).base + i)

/-- The tracee has the translator's output: each buffer its old bytes and
then the new ones, in place or relocated. -/
def Received (x : Exchange ρ ι) (v : BitVec 64)
    (s s' : SidecarState ρ) : Prop :=
  let tr := s.world.tr x.trAddr
  ∃ ir, x.inputs = some ir ∧
    let out := x.output tr (s.caches x.trAddr) ir
    out.result = some v
      ∧ Buffer.AllAppended s.world.remote s'.world.remote tr.bufs
          (s'.world.tr x.trAddr).bufs (out.tails (tr.bufs insnBuf).live)
          (List.finRange 7)

/-- A reply has been received, and a request not answered leaves the
tracee untouched. -/
def AppendOrNothing (x : Exchange ρ ι) (s : SidecarState ρ) : Prop :=
  match processTranslateRequest x s with
  | (some v, s') => Received x v s s'
  | (none, s') => Untouched x.trAddr s s'

/-- After a request not answered the thread's cache claims nothing but
what it claimed before. -/
def CacheKept (x : Exchange ρ ι) (s : SidecarState ρ) : Prop :=
  match processTranslateRequest x s with
  | (some _, _) => True
  | (none, s') =>
      (s'.caches x.trAddr).Claims →
        s'.caches x.trAddr = s.caches x.trAddr

/-- The last write of a request succeeds, or the cache the translator
left claims nothing new: so too when the translator declined. -/
def LastWriteSafe (x : Exchange ρ ι) (s : SidecarState ρ) : Prop :=
  ∀ tr w ir tr' w', x.admitted = true →
    readTr x.trAddr s.world = (some tr, w) → x.inputs = some ir →
    x.stockHit ir = false →
    let out := x.output tr (s.caches x.trAddr) ir
    writeBack tr out w = (some tr', w') →
    out.result = none ∨ (writeTr x.trAddr tr' w').1 = none →
    out.cache.Claims → out.cache = s.caches x.trAddr

-- ============================================================== the steps

/-- A read of the translation result changes no byte. -/
theorem readTr_spec {addr : Nat} {w w' : World ρ}
    {o : Option (TranslationResult ρ)} (h : readTr addr w = (o, w')) :
    w'.tr = w.tr ∧ (w'.remote.byte = w.remote.byte
        ∧ w'.remote.mapped = w.remote.mapped)
      ∧ ∀ tr, o = some tr → tr = w.tr addr := by
  unfold readTr onRemote at h
  rcases hn : Remote.next w.remote with ⟨_ | f, r⟩
  · rw [hn] at h
    cases h
    exact ⟨rfl, Remote.next_same hn, nofun⟩
  · rw [hn] at h
    cases h
    refine ⟨rfl, Remote.next_same hn, ?_⟩
    intro tr htr
    cases htr
    rfl

/-- A write of the translation result changes that alone, when it
succeeds. -/
theorem writeTr_spec {addr : Nat} {tr : TranslationResult ρ}
    {w w' : World ρ} {o : Option Unit} (h : writeTr addr tr w = (o, w')) :
    (w'.remote.byte = w.remote.byte ∧ w'.remote.mapped = w.remote.mapped)
      ∧ w'.tr addr = if o = none then w.tr addr else tr := by
  unfold writeTr onRemote at h
  rcases hn : Remote.next w.remote with ⟨_ | f, r⟩
  · rw [hn] at h
    cases h
    exact ⟨Remote.next_same hn, rfl⟩
  · rw [hn] at h
    cases h
    refine ⟨Remote.next_same hn, ?_⟩
    rw [if_neg nofun]
    exact Function.update_self _ _ _

/-- The appends of a reply. -/
theorem writeBack_spec {tr : TranslationResult ρ}
    {out : TranslatorOutput ρ} {w w' : World ρ}
    {o : Option (TranslationResult ρ)}
    (hfam : Buffer.Family w.remote tr.bufs)
    (h : writeBack tr out w = (o, w')) :
    w'.tr = w.tr
      ∧ Remote.Keeps (Buffer.AnySlack tr.bufs) w.remote w'.remote
      ∧ ∀ tr', o = some tr' →
          (out.result = none → tr'.bufs = tr.bufs)
            ∧ (out.result ≠ none →
                Buffer.AllAppended w.remote w'.remote tr.bufs tr'.bufs
                  (out.tails (tr.bufs insnBuf).live) (List.finRange 7)) := by
  unfold writeBack at h
  cases hres : out.result with
  | none =>
      rw [hres] at h
      cases h
      refine ⟨rfl, .refl, ?_⟩
      intro tr' htr
      cases htr
      exact ⟨fun _ => rfl, fun h => absurd rfl h⟩
  | some v =>
      rw [hres] at h
      dsimp only at h
      rw [Keep.bind_apply] at h
      unfold onRemote at h
      rcases happ : Buffer.appendAll (out.tails (tr.bufs insnBuf).live)
        (List.finRange 7) tr.bufs w.remote with ⟨o1, r⟩
      obtain ⟨hk, hspec⟩ :=
        Buffer.appendAll_spec (List.nodup_finRange 7) hfam happ
      rw [happ] at h
      cases o1 with
      | none =>
          cases h
          exact ⟨rfl, hk, nofun⟩
      | some bufs =>
          cases h
          refine ⟨rfl, hk, ?_⟩
          intro tr' htr
          cases htr
          exact ⟨nofun, fun _ => hspec bufs rfl⟩

/-- What kept every mapped byte outside the slack kept the live ones. -/
theorem Untouched.of_keeps {addr : Nat} {s s' : SidecarState ρ}
    (hfam : Buffer.Family s.world.remote (s.world.tr addr).bufs)
    (hbufs : (s'.world.tr addr).bufs = (s.world.tr addr).bufs)
    (hk : Remote.Keeps (Buffer.AnySlack (s.world.tr addr).bufs)
      s.world.remote s'.world.remote) : Untouched addr s s' := by
  refine ⟨hbufs, ?_⟩
  intro j i hi
  apply hk.byte
  · exact (hfam.owned j).mapped i
      (Nat.lt_of_lt_of_le hi (hfam.owned j).fits)
  · intro ⟨k, hs⟩
    exact hfam.live_not_slack hi hs

-- =========================================================== the request

/-- The last half: what comes of the translator's output. -/
theorem answer_spec {addr : Nat} {tr : TranslationResult ρ}
    {out : TranslatorOutput ρ} {s s' : SidecarState ρ}
    {o : Option (BitVec 64)} (htr : s.world.tr addr = tr)
    (hfam : Buffer.Family s.world.remote tr.bufs)
    (h : answer addr tr out s = (o, s')) :
    (o = none → Untouched addr s s')
      ∧ (∀ v, o = some v → out.result = some v
          ∧ Buffer.AllAppended s.world.remote s'.world.remote tr.bufs
              (s'.world.tr addr).bufs (out.tails (tr.bufs insnBuf).live)
              (List.finRange 7))
      ∧ (o = none → s'.caches addr = s.caches addr
          ∨ s'.caches addr = out.cache
            ∧ ∃ tr' w', writeBack tr out s.world = (some tr', w')
              ∧ (out.result = none ∨ (writeTr addr tr' w').1 = none))
      ∧ (∀ tr' w', writeBack tr out s.world = (some tr', w') →
          out.result = none ∨ (writeTr addr tr' w').1 = none →
          o = none ∧ s'.caches addr = out.cache) := by
  subst htr
  unfold answer at h
  rcases hwb : writeBack (s.world.tr addr) out s.world with ⟨otr, w⟩
  obtain ⟨htr, hk, hspec⟩ := writeBack_spec hfam hwb
  rw [hwb] at h
  cases otr with
  | none =>
      cases h
      refine ⟨fun _ => ?_, nofun, fun _ => Or.inl rfl, nofun⟩
      exact Untouched.of_keeps hfam (by rw [htr]) hk
  | some tr' =>
      obtain ⟨hnone, hsome⟩ := hspec tr' rfl
      dsimp only at h
      rcases hwt : writeTr addr tr' w with ⟨ow, w2⟩
      obtain ⟨hsame, haddr⟩ := writeTr_spec hwt
      have hk2 : Remote.Keeps (Buffer.AnySlack (s.world.tr addr).bufs)
          s.world.remote w2.remote := hk.trans (.of_same hsame)
      rw [hwt] at h
      cases ow with
      | none =>
          cases h
          rw [if_pos rfl] at haddr
          refine ⟨fun _ => ?_, nofun, fun _ => Or.inr ⟨?_, tr', w, rfl, ?_⟩,
            fun _ _ _ _ => ⟨rfl, Function.update_self _ _ _⟩⟩
          · exact Untouched.of_keeps hfam (by rw [haddr, htr]) hk2
          · exact Function.update_self _ _ _
          · rw [hwt]
            exact Or.inr rfl
      | some _ =>
          cases h
          rw [if_neg nofun] at haddr
          refine ⟨?_, ?_, ?_, ?_⟩
          · intro hres
            apply Untouched.of_keeps hfam _ hk2
            rw [haddr, hnone hres]
          · intro v hv
            refine ⟨hv, ?_⟩
            have hall := hsome (by rw [hv]; nofun)
            rw [haddr]
            obtain ⟨hb, hm⟩ := hsame
            obtain ⟨⟨hown, hapart⟩, hin, hout⟩ := hall
            have howned : ∀ j, (tr'.bufs j).Owned w2.remote := fun j =>
              ⟨(hown j).fits, fun i hi => by
                rw [hm]
                exact (hown j).mapped i hi⟩
            refine ⟨⟨howned, hapart⟩, ?_, ?_⟩
            · intro j hj
              obtain ⟨hlive, -, hold, hnew⟩ := hin j hj
              refine ⟨hlive, howned j, ?_, ?_⟩
              · intro i hi
                rw [hb]
                exact hold i hi
              · intro i hi
                rw [hb]
                exact hnew i hi
            · intro j hj
              exact absurd (List.mem_finRange j) hj
          · intro hres
            exact Or.inr ⟨Function.update_self _ _ _, tr', w, rfl,
              Or.inl hres⟩
          · intro tr'' w'' heq hbad
            cases heq
            rw [hwt] at hbad
            rcases hbad with hres | hw
            · exact ⟨hres, Function.update_self _ _ _⟩
            · cases hw

/-- A request that runs the translator is its last half, after a read of
the translation result. -/
theorem request_cases (x : Exchange ρ ι) (s : SidecarState ρ)
    (hfam : Buffer.Family s.world.remote (s.world.tr x.trAddr).bufs) :
    (∃ w ir, x.admitted = true
        ∧ readTr x.trAddr s.world = (some (s.world.tr x.trAddr), w)
        ∧ x.inputs = some ir ∧ x.stockHit ir = false
        ∧ w.tr = s.world.tr ∧ w.remote.byte = s.world.remote.byte
        ∧ Buffer.Family w.remote (s.world.tr x.trAddr).bufs
        ∧ processTranslateRequest x s
          = answer x.trAddr (s.world.tr x.trAddr)
              (x.output (s.world.tr x.trAddr) (s.caches x.trAddr) ir)
              { s with world := w })
      ∨ LastWriteSafe x s ∧ ∃ s', processTranslateRequest x s = (none, s')
        ∧ Untouched x.trAddr s s'
        ∧ (s'.caches = s.caches
          ∨ s'.caches = bypass s.caches x.trAddr) := by
  unfold processTranslateRequest
  cases hadm : x.admitted with
  | false =>
      refine Or.inr ⟨?_, s, rfl, ⟨rfl, fun _ _ _ => rfl⟩, Or.inl rfl⟩
      intro _ _ _ _ _ h
      rw [hadm] at h
      cases h
  | true =>
      rcases hr : readTr x.trAddr s.world with ⟨_ | tr, w⟩
      · obtain ⟨htr, ⟨hb, -⟩, -⟩ := readTr_spec hr
        refine Or.inr ⟨?_, _, rfl, ⟨?_, fun _ _ _ => ?_⟩, Or.inl rfl⟩
        · intro _ _ _ _ _ _ h
          rw [hr] at h
          cases h
        · show (w.tr _).bufs = _
          rw [htr]
        · show w.remote.byte _ = _
          rw [hb]
      obtain ⟨htr, ⟨hb, hm⟩, hval⟩ := readTr_spec hr
      have htr' : tr = s.world.tr x.trAddr := hval tr rfl
      subst htr'
      have huntouched : ∀ (w' : World ρ) caches,
          (w'.tr x.trAddr).bufs = (s.world.tr x.trAddr).bufs →
          w'.remote.byte = s.world.remote.byte →
          Untouched x.trAddr s { world := w', caches := caches } := by
        intro w' caches h1 h2
        refine ⟨h1, fun _ _ _ => ?_⟩
        show w'.remote.byte _ = _
        rw [h2]
      cases hin : x.inputs with
      | none =>
          refine Or.inr ⟨?_, _, rfl, huntouched w _ ?_ hb, Or.inr rfl⟩
          · intro _ _ _ _ _ _ _ h
            rw [hin] at h
            cases h
          · rw [htr]
      | some ir =>
          cases hstock : x.stockHit ir with
          | true =>
              dsimp only
              rw [if_neg (by simp), if_pos hstock]
              refine Or.inr ⟨?_, _, rfl, huntouched _ _ ?_ ?_, Or.inr rfl⟩
              · intro _ _ _ _ _ _ _ h hno
                rw [hin] at h
                cases h
                rw [hstock] at hno
                cases hno
              · rcases hwt : writeTr x.trAddr (s.world.tr x.trAddr) w
                  with ⟨o, w'⟩
                obtain ⟨-, haddr⟩ := writeTr_spec hwt
                rw [haddr]
                split
                · rw [htr]
                · rfl
              · rcases hwt : writeTr x.trAddr (s.world.tr x.trAddr) w
                  with ⟨o, w'⟩
                obtain ⟨⟨hb', -⟩, -⟩ := writeTr_spec hwt
                exact hb'.trans hb
          | false =>
              dsimp only
              rw [if_neg (by simp), if_neg (by rw [hstock]; nofun)]
              refine Or.inl ⟨w, ir, rfl, rfl, rfl, hstock, htr, hb, ?_, rfl⟩
              refine ⟨fun j => ⟨(hfam.owned j).fits, fun i hi => ?_⟩,
                hfam.apart⟩
              rw [hm]
              exact (hfam.owned j).mapped i hi

/-- Every request that is answered appends the translator's output to the
tracee's buffers, and every one that is not leaves them untouched. -/
theorem append_or_nothing (x : Exchange ρ ι) (s : SidecarState ρ)
    (hfam : Buffer.Family s.world.remote (s.world.tr x.trAddr).bufs) :
    AppendOrNothing x s := by
  unfold AppendOrNothing
  rcases request_cases x s hfam with
    ⟨w, ir, -, -, hin, -, htr, hb, hfamw, heq⟩ | ⟨-, s', heq, hun, -⟩
  · rw [heq]
    have htr' : w.tr x.trAddr = s.world.tr x.trAddr := by rw [htr]
    rcases hans : answer x.trAddr (s.world.tr x.trAddr)
      (x.output (s.world.tr x.trAddr) (s.caches x.trAddr) ir)
      { s with world := w } with ⟨o, s'⟩
    obtain ⟨hnone, hsome, -, -⟩ :=
      answer_spec (s := { s with world := w }) htr' hfamw hans
    cases o with
    | none =>
        obtain ⟨hbufs, hbytes⟩ := hnone rfl
        refine ⟨hbufs.trans (congrArg _ htr'), ?_⟩
        intro j i hi
        have hbyte := hbytes j i
        dsimp only at hbyte
        rw [htr', hb] at hbyte
        exact hbyte hi
    | some v =>
        obtain ⟨hv, hfamily, hinside, -⟩ := hsome v rfl
        refine ⟨ir, hin, hv, hfamily, ?_, ?_⟩
        · intro j hj
          obtain ⟨hlive, hown, hold, hnew⟩ := hinside j hj
          refine ⟨hlive, hown, ?_, hnew⟩
          intro i hi
          rw [hold i hi]
          show w.remote.byte _ = _
          rw [hb]
        · intro j hj
          exact absurd (List.mem_finRange j) hj
  · rw [heq]
    exact hun

/-- The thread's cache is kept as it should be exactly when the last
write is safe. -/
theorem cacheKept_iff (x : Exchange ρ ι) (s : SidecarState ρ)
    (hfam : Buffer.Family s.world.remote (s.world.tr x.trAddr).bufs) :
    CacheKept x s ↔ LastWriteSafe x s := by
  unfold CacheKept
  rcases request_cases x s hfam with
    ⟨w, ir, hadm, hr, hin, hstock, htr, -, hfamw, heq⟩
      | ⟨hsafe, s', heq, -, hcaches⟩
  · rw [heq]
    have htr' : w.tr x.trAddr = s.world.tr x.trAddr := by rw [htr]
    rcases hans : answer x.trAddr (s.world.tr x.trAddr)
      (x.output (s.world.tr x.trAddr) (s.caches x.trAddr) ir)
      { s with world := w } with ⟨o, s'⟩
    obtain ⟨-, -, hkept, hlate⟩ :=
      answer_spec (s := { s with world := w }) htr' hfamw hans
    constructor
    · intro h tr w2 ir2 tr' w' _ hr2 hin2 _ out hwb hbad hclaims
      rw [hr] at hr2
      cases hr2
      rw [hin] at hin2
      cases hin2
      obtain ⟨ho, hcache⟩ := hlate tr' w' hwb hbad
      subst ho
      have h := h (hcache ▸ hclaims)
      rw [hcache] at h
      exact h
    · intro h
      cases o with
      | some _ => trivial
      | none =>
          intro hclaims
          rcases hkept rfl with hsame | ⟨hcache, tr', w', hwb, hbad⟩
          · exact hsame
          · rw [hcache] at hclaims ⊢
            exact h _ w ir tr' w' hadm hr hin hstock hwb hbad hclaims
  · rw [heq]
    refine ⟨fun _ => hsafe, fun _ hclaims => ?_⟩
    rcases hcaches with h | h
    · rw [h]
    · rw [h] at hclaims
      unfold bypass at hclaims
      rw [Function.update_self] at hclaims
      exact absurd hclaims (X87Cache.not_claims_invalidate _)

/-- A request appends or does nothing, and keeps no cache for code that
was not received, exactly when its last write is safe. -/
theorem answers_correct_iff (x : Exchange ρ ι) (s : SidecarState ρ)
    (hfam : Buffer.Family s.world.remote (s.world.tr x.trAddr).bufs) :
    (AppendOrNothing x s ∧ CacheKept x s) ↔ LastWriteSafe x s :=
  ⟨fun h => (cacheKept_iff x s hfam).mp h.2,
    fun h => ⟨append_or_nothing x s hfam, (cacheKept_iff x s hfam).mpr h⟩⟩

-- =========================================================== the last write

/-- `fxch st(1)`, then `fnstsw ax`. -/
def exchangeStatus : List Call :=
  [⟨{ opcode := .fxch, numOperands := 2, op0 := .st 0, op1 := .st 1 }, false⟩,
    ⟨{ opcode := .fstsw, numOperands := 1, op0 := ⟨.register, .s16, 0x20, 0,
      0, 0, 0, 0, 0⟩ }, false⟩]

/-- A request whose translator covers that run, its cache as the run
leaves it, and emits four bytes. -/
def statusRequest : Exchange Unit Unit where
  trAddr := 0
  inputs := some ()
  translate _ _ _ _ :=
    { result := some 2, emitted := 4, insnGrew := false, buf := fun _ => 1
      pushedBytes := fun _ => 0, pushed := fun _ _ => 0, rest := ()
      cache := (runCalls .blank exchangeStatus
        (X87Cache.freshRun false false (fun _ => .native) exchangeStatus,
          .blank 0)).1 }

/-- A tracee with room for sixteen instruction bytes and no fixups, whose
operations go as `fates` says. -/
def smallTracee (fates : List (Option Nat)) : SidecarState Unit where
  world :=
    { remote :=
        { byte := fun _ => 0
          mapped := fun x => decide (0x1000 ≤ x ∧ x < 0x1010)
          fates := fates }
      tr := fun _ =>
        { bufs := fun j => if j = insnBuf then ⟨0x1000, 0, 16⟩ else ⟨0, 0, 0⟩
          rest := () } }
  caches := fun _ => {}

theorem smallTracee_family (fates : List (Option Nat)) :
    Buffer.Family (smallTracee fates).world.remote
      ((smallTracee fates).world.tr 0).bufs := by
  constructor
  · intro j
    by_cases hj : j = insnBuf
    · subst hj
      refine ⟨Nat.zero_le _, ?_⟩
      intro i hi
      show decide (0x1000 ≤ 0x1000 + i ∧ 0x1000 + i < 0x1010) = true
      have hi' : i < 16 := hi
      exact decide_eq_true ⟨by omega, by omega⟩
    · have hempty : ((smallTracee fates).world.tr 0).bufs j = ⟨0, 0, 0⟩ :=
        if_neg hj
      rw [hempty]
      exact ⟨Nat.le_refl _, fun i hi => absurd hi (Nat.not_lt_zero i)⟩
  · intro i j hij a ha b hb
    by_cases hi : i = insnBuf
    · have hj : ((smallTracee fates).world.tr 0).bufs j = ⟨0, 0, 0⟩ :=
        if_neg fun h => hij (hi.trans h.symm)
      rw [hj] at hb
      exact absurd hb (Nat.not_lt_zero b)
    · have hj : ((smallTracee fates).world.tr 0).bufs i = ⟨0, 0, 0⟩ :=
        if_neg hi
      rw [hj] at ha
      exact absurd ha (Nat.not_lt_zero a)

/-- At work on a request all of whose operations succeed. -/
theorem answers_correct_iff_allSucceed :
    (AppendOrNothing statusRequest (smallTracee [some 0, some 0, some 0])
        ∧ CacheKept statusRequest (smallTracee [some 0, some 0, some 0]))
      ↔ LastWriteSafe statusRequest
          (smallTracee [some 0, some 0, some 0]) :=
  answers_correct_iff _ _ (smallTracee_family _)

/-- The last of three operations fails: the translation result is not
written, the request not answered, and the thread is left with the
cache of the run, its exchange pending. -/
theorem not_correct_lastWrite :
    ¬(AppendOrNothing statusRequest (smallTracee [some 0, some 0, none])
      ∧ CacheKept statusRequest (smallTracee [some 0, some 0, none])) := by
  intro h
  have hkept := h.2
  unfold CacheKept at hkept
  rcases hreq : processTranslateRequest statusRequest
    (smallTracee [some 0, some 0, none]) with ⟨o, s'⟩
  have ho : (processTranslateRequest statusRequest
      (smallTracee [some 0, some 0, none])).1 = none := by decide
  have hperm : ((processTranslateRequest statusRequest
      (smallTracee [some 0, some 0, none])).2.caches 0).permDirty
        = true := by decide
  rw [hreq] at hkept ho hperm
  cases ho
  have heq := hkept
    (Or.inr (Or.inr (Or.inr (Or.inr (Or.inr hperm)))))
  have hclean := congrArg X87Cache.permDirty heq
  rw [show (s'.caches statusRequest.trAddr).permDirty = true from hperm]
    at hclean
  cases hclean

end X87Sidecar.Sidecar
