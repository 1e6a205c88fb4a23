/-
Replies under precise faults: what keeps a fault restartable.

The code of a probe touches only bytes of the access it is for and reads,
and for a store writes, on every page of it, whatever the address
(`probes`). A reply covers no memory access but its first instruction's,
whether the IR, a fusion or single emitters cover it and however the
counter runs: the counter of its run never exceeds what is left of the
window (`turn_within`). Both only as far as the access is through an
operand that the window and the probe look for.
-/
import X87Sidecar.Proofs.Build.Wf
import X87Sidecar.Proofs.Translate.Counter
import X87Sidecar.Translate.Precise

namespace X87Sidecar

-- ============================================================= the pages

/-- The 4 KiB page of an address. -/
def pageOf (a : BitVec 64) : BitVec 64 := a >>> 12

theorem pageOf_toNat (a : BitVec 64) : (pageOf a).toNat = a.toNat / 4096 := by
  unfold pageOf
  rw [BitVec.toNat_ushiftRight, Nat.shiftRight_eq_div_pow]

variable {a : BitVec 64} {n : Nat}

/-- An access of at most a page lies on the pages of its ends. -/
theorem pageOf_accessed (hn : n ≤ 4096) {k : Nat} (hk : k < n) :
    pageOf (a + BitVec.ofNat 64 k) = pageOf a
      ∨ pageOf (a + BitVec.ofNat 64 k)
          = pageOf (a + BitVec.ofNat 64 (n - 1)) := by
  have ha := a.isLt
  rw [← BitVec.toNat_inj, ← BitVec.toNat_inj]
  simp only [pageOf_toNat, BitVec.toNat_add, BitVec.toNat_ofNat]
  omega

/-- An access on one page is written back at its start. -/
theorem writeBackAddr_one
    (h : pageOf (a + BitVec.ofNat 64 (n - 1)) = pageOf a) :
    writeBackAddr n a = a := by
  unfold pageOf at h
  unfold writeBackAddr
  dsimp only
  rw [h]
  simp

/-- One that crosses pages, at the boundary. -/
theorem writeBackAddr_two (hn : n ≤ 4096)
    (h : pageOf (a + BitVec.ofNat 64 (n - 1)) ≠ pageOf a) :
    ∃ k, k + 1 < n ∧ writeBackAddr n a = a + BitVec.ofNat 64 k
      ∧ pageOf (a + BitVec.ofNat 64 k) = pageOf a
      ∧ pageOf (a + BitVec.ofNat 64 (k + 1))
          = pageOf (a + BitVec.ofNat 64 (n - 1)) := by
  have ha := a.isLt
  have hne : (a + BitVec.ofNat 64 (n - 1)).toNat / 4096 ≠ a.toNat / 4096 := by
    intro he
    refine h (BitVec.eq_of_toNat_eq ?_)
    rw [pageOf_toNat, pageOf_toNat, he]
  simp only [BitVec.toNat_add, BitVec.toNat_ofNat] at hne
  -- the bytes of the access before the boundary
  let k := 4095 - a.toNat % 4096
  have hk : k + 1 < n := by omega
  have hdist : ((a + BitVec.ofNat 64 (n - 1)) >>> 12) <<< 12 - a - 1
      = BitVec.ofNat 64 k := by
    apply BitVec.eq_of_toNat_eq
    simp only [BitVec.toNat_sub, BitVec.toNat_shiftLeft,
      BitVec.toNat_ushiftRight, BitVec.toNat_add, BitVec.toNat_ofNat,
      Nat.shiftRight_eq_div_pow, Nat.shiftLeft_eq]
    have hone : (1 : BitVec 64).toNat = 1 := rfl
    omega
  have hmask : BitVec.ofNat 64 k &&& ((0 : BitVec 64)
        - ((a + BitVec.ofNat 64 (n - 1)) >>> 12 - a >>> 12))
      = BitVec.ofNat 64 k := by
    -- the mask is all ones, or 52 of them where the access wraps around
    have hones : ((0 : BitVec 64) - ((a + BitVec.ofNat 64 (n - 1)) >>> 12
          - a >>> 12)).toNat = 2 ^ 64 - 1
        ∨ ((0 : BitVec 64) - ((a + BitVec.ofNat 64 (n - 1)) >>> 12
          - a >>> 12)).toNat = 2 ^ 52 - 1 := by
      have hzero : (0 : BitVec 64).toNat = 0 := rfl
      simp only [BitVec.toNat_sub, BitVec.toNat_ushiftRight,
        BitVec.toNat_add, BitVec.toNat_ofNat, Nat.shiftRight_eq_div_pow]
      omega
    apply BitVec.eq_of_toNat_eq
    rw [BitVec.toNat_and]
    rcases hones with h | h
    · rw [h, Nat.and_two_pow_sub_one_eq_mod, BitVec.toNat_ofNat]
      omega
    · rw [h, Nat.and_two_pow_sub_one_eq_mod, BitVec.toNat_ofNat]
      omega
  refine ⟨k, hk, ?_, ?_, ?_⟩
  · unfold writeBackAddr
    dsimp only
    rw [hdist, hmask]
  · apply BitVec.eq_of_toNat_eq
    simp only [pageOf_toNat, BitVec.toNat_add, BitVec.toNat_ofNat]
    omega
  · apply BitVec.eq_of_toNat_eq
    simp only [pageOf_toNat, BitVec.toNat_add, BitVec.toNat_ofNat]
    omega

-- ============================================================= the probe

/-- The bytes of an access. -/
def Accessed (a : BitVec 64) (bytes : Nat) (b : BitVec 64) : Prop :=
  ∃ k < bytes, b = a + BitVec.ofNat 64 k

/-- What a probe is for: it touches bytes of the access only, and reads,
and for a store writes, on every page of it. Pages may be larger than
4 KiB. -/
structure Probes (bytes : Nat) (store : Bool) (a : BitVec 64)
    (code : List ProbeStep) : Prop where
  within : ∀ s ∈ code, ∀ b, s.reads b ∨ s.writes b → Accessed a bytes b
  read : ∀ bits, 12 ≤ bits → ∀ b, Accessed a bytes b →
    ∃ s ∈ code, ∃ b', s.reads b' ∧ b' >>> bits = b >>> bits
  written : store = true → ∀ bits, 12 ≤ bits → ∀ b, Accessed a bytes b →
    ∃ s ∈ code, ∃ b', s.writes b' ∧ b' >>> bits = b >>> bits

/-- Addresses on one 4 KiB page are on one page of any size. -/
theorem samePage {a b : BitVec 64} (h : pageOf a = pageOf b) {bits : Nat}
    (hbits : 12 ≤ bits) : a >>> bits = b >>> bits := by
  have hsplit : ∀ x : BitVec 64, x >>> bits = pageOf x >>> (bits - 12) := by
    intro x
    unfold pageOf
    rw [← BitVec.shiftRight_add]
    congr 1
    omega
  rw [hsplit, hsplit, h]

/-- It is enough to look at the two ends of an access. -/
theorem Probes.of_ends {store : Bool} {code : List ProbeStep}
    (hn : n ≤ 4096)
    (within : ∀ s ∈ code, ∀ b, s.reads b → Accessed a n b)
    (ends : ∀ e, e = a ∨ e = a + BitVec.ofNat 64 (n - 1) →
      ∃ s ∈ code, ∃ b, s.reads b ∧ (store = true → s.writes b)
        ∧ pageOf b = pageOf e) :
    Probes n store a code := by
  have hwritten : ∀ (s : ProbeStep) b, s.writes b → s.reads b := by
    intro s b h
    cases s with
    | load _ _ => exact h.elim
    | writeBack _ _ => exact h
  have hpage : ∀ b, Accessed a n b →
      ∃ s ∈ code, ∃ b', s.reads b' ∧ (store = true → s.writes b')
        ∧ pageOf b' = pageOf b := by
    intro b hb
    obtain ⟨k, hk, rfl⟩ := hb
    rcases pageOf_accessed (a := a) hn hk with hp | hp
    · rw [hp]
      exact ends a (.inl rfl)
    · rw [hp]
      exact ends _ (.inr rfl)
  refine ⟨fun s hs b hb => within s hs b (hb.elim id (hwritten s b)),
    fun bits hbits b hb => ?_, fun hst bits hbits b hb => ?_⟩
  · obtain ⟨s, hs, b', hr, -, hp⟩ := hpage b hb
    exact ⟨s, hs, b', hr, samePage hp hbits⟩
  · obtain ⟨s, hs, b', -, hw, hp⟩ := hpage b hb
    exact ⟨s, hs, b', hw hst, samePage hp hbits⟩

/-- The probe of an access, at every address. -/
theorem probes (bytes : Nat) (hpos : 0 < bytes) (hle : bytes ≤ 4096)
    (store : Bool) (a : BitVec 64) :
    Probes bytes store a (probeCode bytes store a) := by
  have hzero : a = a + BitVec.ofNat 64 0 := by simp
  unfold probeCode
  by_cases hfull : bytes = 2 ∨ bytes = 4 ∨ bytes = 8
  · rw [if_pos hfull]
    refine .of_ends hle ?_ ?_
    · intro s hs b hb
      obtain rfl := List.mem_singleton.mp hs
      cases store with
      | true => exact hb
      | false => exact hb
    · intro e he
      have hacc : Accessed a bytes e := by
        rcases he with rfl | rfl
        · exact ⟨0, hpos, hzero⟩
        · exact ⟨bytes - 1, by omega, rfl⟩
      refine ⟨_, List.mem_cons_self, e, ?_, ?_, rfl⟩
      · cases store with
        | true => exact hacc
        | false => exact hacc
      · intro hst
        rw [hst]
        exact hacc
  rw [if_neg hfull]
  by_cases hback : store ∧ 1 < bytes
  · rw [if_pos hback]
    by_cases hone : pageOf (a + BitVec.ofNat 64 (bytes - 1)) = pageOf a
    · rw [writeBackAddr_one hone]
      refine .of_ends hle ?_ ?_
      · intro s hs b hb
        obtain rfl := List.mem_singleton.mp hs
        obtain ⟨k, hk, rfl⟩ := hb
        exact ⟨k, by omega, rfl⟩
      · intro e he
        refine ⟨_, List.mem_cons_self, a, ⟨0, by omega, hzero⟩,
          fun _ => ⟨0, by omega, hzero⟩, ?_⟩
        rcases he with rfl | rfl
        · rfl
        · exact hone.symm
    · obtain ⟨k, hk, haddr, hlow, hhigh⟩ := writeBackAddr_two hle hone
      have hnext : a + BitVec.ofNat 64 (k + 1)
          = a + BitVec.ofNat 64 k + BitVec.ofNat 64 1 := by
        rw [BitVec.add_assoc, ← BitVec.ofNat_add]
      rw [haddr]
      refine .of_ends hle ?_ ?_
      · intro s hs b hb
        obtain rfl := List.mem_singleton.mp hs
        obtain ⟨j, hj, rfl⟩ := hb
        refine ⟨k + j, by omega, ?_⟩
        rw [BitVec.add_assoc, ← BitVec.ofNat_add]
      · intro e he
        rcases he with rfl | rfl
        · refine ⟨_, List.mem_cons_self, e + BitVec.ofNat 64 k,
            ⟨0, by omega, by simp⟩, fun _ => ⟨0, by omega, by simp⟩, hlow⟩
        · exact ⟨_, List.mem_cons_self, _, ⟨1, by omega, hnext⟩,
            fun _ => ⟨1, by omega, hnext⟩, hhigh⟩
  · rw [if_neg hback]
    -- the last byte, unless it is the first, and the first byte
    have hfirst : ∀ b, (if store then ProbeStep.writeBack a 1
        else .load a 1).reads b ↔ b = a := by
      intro b
      have hone : (∃ k < 1, b = a + BitVec.ofNat 64 k) ↔ b = a := by
        constructor
        · rintro ⟨k, hk, rfl⟩
          rw [show k = 0 by omega]
          simp
        · intro hb
          exact ⟨0, by omega, by simp [hb]⟩
      cases store with
      | true => exact hone
      | false => exact hone
    have hwrites : store = true → (if store then ProbeStep.writeBack a 1
        else .load a 1).writes a := by
      intro hst
      rw [hst]
      exact ⟨0, by omega, by simp⟩
    refine .of_ends hle ?_ ?_
    · intro s hs b hb
      rcases List.mem_append.mp hs with hs | hs
      · split at hs
        · rename_i hmany
          obtain rfl := List.mem_singleton.mp hs
          obtain ⟨k, hk, rfl⟩ := hb
          refine ⟨bytes - 1 + k, by omega, ?_⟩
          rw [BitVec.add_assoc, ← BitVec.ofNat_add]
        · cases hs
      · obtain rfl := List.mem_singleton.mp hs
        rw [(hfirst b).mp hb]
        exact ⟨0, hpos, hzero⟩
    · intro e he
      by_cases he' : e = a
      · rw [he']
        exact ⟨_, List.mem_append_right _ List.mem_cons_self, a,
          (hfirst a).mpr rfl, hwrites, rfl⟩
      · have hmany : 1 < bytes := by
          by_contra hnot
          rcases he with he | he
          · exact he' he
          · rw [show bytes - 1 = 0 by omega] at he
            exact he' (by simpa using he)
        have hload : store = false := by
          cases store with
          | false => rfl
          | true => exact absurd ⟨rfl, hmany⟩ hback
        rcases he with he | he
        · exact absurd he he'
        · rw [if_pos hmany]
          refine ⟨_, List.mem_append_left _ List.mem_cons_self, e,
            ⟨0, by omega, by simp [he]⟩, ?_, rfl⟩
          intro hst
          rw [hload] at hst
          cases hst

/-- What may be read and written, page by page. -/
structure Protection where
  bits : Nat
  atLeast4K : 12 ≤ bits
  readable : BitVec 64 → Bool
  writable : BitVec 64 → Bool
  pagewise : ∀ a b : BitVec 64, a >>> bits = b >>> bits →
    readable a = readable b ∧ writable a = writable b

namespace Protection

/-- An access faults. -/
def accessFaults (prot : Protection) (bytes : Nat) (store : Bool)
    (a : BitVec 64) : Prop :=
  ∃ b, Accessed a bytes b
    ∧ (if store then prot.writable b else prot.readable b) = false

/-- Code of a probe faults. -/
def probeFaults (prot : Protection) (code : List ProbeStep) : Prop :=
  ∃ s ∈ code, ∃ b, s.reads b ∧ prot.readable b = false
    ∨ s.writes b ∧ prot.writable b = false

end Protection

/-- A probe faults whenever its access would. -/
theorem Probes.faults {bytes : Nat} {store : Bool} {a : BitVec 64}
    {code : List ProbeStep} (h : Probes bytes store a code)
    (prot : Protection) (hf : prot.accessFaults bytes store a) :
    prot.probeFaults code := by
  obtain ⟨b, hb, hprot⟩ := hf
  cases hst : store with
  | true =>
      obtain ⟨s, hs, b', hw, hpage⟩ :=
        h.written hst prot.bits prot.atLeast4K b hb
      rw [hst, if_pos rfl] at hprot
      refine ⟨s, hs, b', .inr ⟨hw, ?_⟩⟩
      rw [(prot.pagewise b' b hpage).2, hprot]
  | false =>
      obtain ⟨s, hs, b', hr, hpage⟩ := h.read prot.bits prot.atLeast4K b hb
      rw [hst, if_neg Bool.false_ne_true] at hprot
      refine ⟨s, hs, b', .inl ⟨hr, ?_⟩⟩
      rw [(prot.pagewise b' b hpage).1, hprot]

-- ================================================ what a script goes on with

/-- The counter does not grow and the layout stays. -/
structure Onward (c c' : X87Cache) : Prop where
  run : c'.runRemaining ≤ c.runRemaining
  slots : c'.nativeSlots = c.nativeSlots
  transport : c'.nativeTransport = c.nativeTransport

theorem Onward.refl (c : X87Cache) : Onward c c :=
  ⟨Nat.le_refl _, rfl, rfl⟩

theorem Onward.trans {c c' c'' : X87Cache} (h : Onward c c')
    (h' : Onward c' c'') : Onward c c'' where
  run := h'.run.trans h.run
  slots := h'.slots.trans h.slots
  transport := h'.transport.trans h.transport

theorem onward_of_counted {c c' : X87Cache}
    (h : Counter.Counted c c') : Onward c c' :=
  ⟨Nat.le_of_eq h.run, h.slots, h.transport⟩

theorem onward_act (a : Act) : a.emit.Keeps Onward := by
  intro c
  cases ha : a.shortens with
  | false => exact onward_of_counted (Counter.counted_act a ha c)
  | true =>
      cases a with
      | shorten => exact ⟨Nat.sub_le _ _, rfl, rfl⟩
      | _ => cases ha

theorem onward_script (s : Script) : s.emit.Keeps Onward := by
  refine Lib.Emit.Keeps.all (R := Onward) Onward.refl Onward.trans ?_
  intro e he
  obtain ⟨a, -, rfl⟩ := List.mem_map.mp he
  exact onward_act a

theorem onward_convertSlots (x : Choice) (c : X87Cache) :
    Onward c (convertSlots x c) := by
  unfold convertSlots
  split
  · exact ⟨Nat.le_refl _, rfl, rfl⟩
  · exact ⟨Nat.le_refl _, rfl, rfl⟩

-- ============================================================ the window

/-- An x87 instruction without an access that the window looks for. -/
def quiet (i : IRInstr) : Bool :=
  isHandledX87 i.opcode && !x87_accesses_memory i

/-- The instructions of a window after the first access no memory. -/
theorem quiet_window (instrs : List IRInstr) (limit : Nat) :
    ((instrs.take (precise_window instrs limit)).drop 1).all
      (fun i => !x87_accesses_memory i) = true := by
  unfold precise_window
  rw [List.drop_take, Nat.add_sub_cancel_left]
  have hprefix := List.prefix_iff_eq_take.mp
    ((List.takeWhile_prefix (fun i => !x87_accesses_memory i)).trans
      (List.take_prefix (limit - 1) (instrs.drop 1)))
  rw [← hprefix]
  exact List.all_takeWhile

theorem precise_window_le (instrs : List IRInstr) {limit : Nat}
    (h : 0 < limit) : precise_window instrs limit ≤ limit := by
  have hlen := (List.takeWhile_prefix (l := (instrs.drop 1).take
    (limit - 1)) (fun i => !x87_accesses_memory i)).length_le
  rw [List.length_take] at hlen
  unfold precise_window
  omega

/-- The instructions that `lookahead` counts are x87 instructions. -/
theorem handled_lookahead (instrs : List IRInstr) :
    handledTo instrs (lookahead instrs) = true := by
  unfold handledTo
  induction instrs with
  | nil => rfl
  | cons i rest ih =>
      unfold lookahead
      split
      · rename_i hh
        rw [List.take_succ_cons, List.all_cons, hh, ih]
        rfl
      · rfl

theorem handledTo_of_le {instrs : List IRInstr} {m n : Nat} (h : m ≤ n)
    (hn : handledTo instrs n = true) : handledTo instrs m = true := by
  unfold handledTo at hn ⊢
  rw [List.all_eq_true] at hn ⊢
  exact fun i hi => hn i (List.take_subset_take_left instrs h hi)

-- ============================================================== one turn

section
variable {cfg : TranslatorConfig} {c : X87Cache} {instrs : List IRInstr}
  {x : Choice}

theorem handled_of_single {env : Env} {i : IRInstr} {s : Script}
    (h : single env c i = some s) : isHandledX87 i.opcode = true := by
  unfold single at h
  generalize i.opcode = o at h ⊢
  cases o
  all_goals first
    | rfl
    | cases h

theorem handled_of_singleNative {env : Env} {i : IRInstr} {s : Script}
    (h : singleNative env c i = some s) :
    isHandledX87 i.opcode = true := by
  unfold singleNative at h
  generalize i.opcode = o at h ⊢
  cases o
  all_goals first
    | rfl
    | cases h

/-- A chosen emitter covers x87 instructions, and more than one of them
only within the window of the fusions. -/
theorem chosen_within {f : Fused} (hsplit : split cfg c = true)
    (h : chosen cfg instrs x c = some f) :
    1 ≤ f.count ∧ f.count ≤ precise_window instrs 8
      ∧ handledTo instrs f.count = true := by
  have hone : 1 ≤ precise_window instrs 8 := Nat.le_add_right _ _
  unfold chosen at h
  rcases Option.or_eq_some_iff.mp h with h | ⟨-, h⟩
  · have hwindow : fusionWindow cfg instrs c
        = instrs.take (precise_window instrs 8) := by
      unfold fusionWindow
      rw [if_pos hsplit]
    rw [hwindow] at h
    obtain ⟨htwo, hlen, hh⟩ := fused_within cfg.env _ c h
    rw [List.length_take] at hlen
    refine ⟨by omega, by omega, ?_⟩
    unfold handledTo at hh ⊢
    rwa [List.take_take, Nat.min_eq_left (by omega)] at hh
  · obtain ⟨i, hi, h⟩ := Option.bind_eq_some_iff.mp h
    obtain ⟨s, hs, rfl⟩ := Option.map_eq_some_iff.mp h
    refine ⟨Nat.le_refl 1, hone, ?_⟩
    obtain ⟨rest, rfl⟩ := List.head?_eq_some_iff.mp hi
    have hh : isHandledX87 i.opcode = true := by
      unfold singleEmitter at hs
      rcases Option.or_eq_some_iff.mp hs with hs | ⟨-, hs⟩
      · split at hs
        · exact handled_of_singleNative hs
        · cases hs
      · exact handled_of_single hs
    simp [handledTo, hh]

theorem bridgePending_of_split (hsplit : split cfg c = true) :
    bridgePending cfg c instrs x = 0 := by
  unfold bridgePending
  rw [hsplit]
  simp

/-- A turn of a reply that is cut before memory accesses: it covers what
the counter still holds, or x87 instructions within the window of the
fusions; the counter does not grow. -/
theorem turn_within {t : Turn} (hsplit : split cfg c = true)
    (ht : turn cfg c instrs x = some t) :
    Onward (setUpRun cfg c instrs) t.cache ∧ 1 ≤ t.count
      ∧ (t.count ≤ (setUpRun cfg c instrs).runRemaining
        ∨ t.count ≤ precise_window instrs 8
          ∧ handledTo instrs t.count = true) := by
  have hbridge : afterBridge cfg c instrs x = setUpRun cfg c instrs
      ∧ (bridgedAttempt cfg instrs x (bridgePending cfg c instrs x)
        (setUpRun cfg c instrs)).2 = none := by
    unfold afterBridge
    rw [bridgePending_of_split hsplit]
    unfold bridgedAttempt
    simp
  unfold turn irTurn at ht
  rw [hbridge.2, hbridge.1] at ht
  rcases Counter.irAttempt_cases cfg instrs x (setUpRun cfg c instrs) with
    ⟨c', hc', hir⟩ | ⟨c', n, hc', htwo, hn, hir⟩
  · rw [hir] at ht
    obtain ⟨f, hf, rfl⟩ := Option.map_eq_some_iff.mp ht
    have hat : atEmitter cfg c instrs x = convertSlots x c' := by
      unfold atEmitter
      rw [hbridge.1, hir]
    rw [hat] at hf ⊢
    have honward : Onward (setUpRun cfg c instrs) (convertSlots x c') :=
      Onward.trans ⟨Nat.le_of_eq hc'.run, hc'.slots, hc'.transport⟩
        (onward_convertSlots x c')
    have hsplit' : split cfg (convertSlots x c') = true := by
      unfold split at hsplit ⊢
      rw [honward.slots, (Counter.setUpRun_layout cfg c instrs).1]
      exact hsplit
    obtain ⟨hone, hwithin⟩ := chosen_within hsplit' hf
    exact ⟨honward.trans (onward_script f.script _), hone, .inr hwithin⟩
  · rw [hir] at ht
    cases ht
    exact ⟨⟨Nat.le_of_eq hc'.run, hc'.slots, hc'.transport⟩,
      (Nat.le_succ 1).trans htwo, .inl hn⟩

end

-- ============================================================= the reply

section
variable {cfg : TranslatorConfig} {w : Walk} {x : Choice}

/-- In a reply that goes on: its run is cut before memory accesses, and
what the counter still holds is quiet. -/
structure GoesOn (cfg : TranslatorConfig) (w : Walk) : Prop where
  active : w.cache.active = true
  split : split cfg w.cache = true
  quiet : (w.rest.take w.cache.runRemaining).all quiet = true

/-- The counter after a turn that does not end the run. -/
theorem step_active {t : Turn} (ht : w.turn cfg x = some t)
    (ha : (w.step cfg x).cache.active = true) :
    (w.step cfg x).cache
        = { t.cache with runRemaining := t.cache.runRemaining - t.count }
      ∧ t.count < t.cache.runRemaining
      ∧ (w.step cfg x).rest = w.rest.drop t.count := by
  have hcache : (w.step cfg x).cache = t.cache.ticks t.count := by
    unfold Walk.step Walk.uncounted
    rw [ht]
  have hrest : (w.step cfg x).rest = w.rest.drop t.count := by
    unfold Walk.step Walk.covered
    rw [ht]
  have hlt : t.count < t.cache.runRemaining := by
    have hpos : 0 < (w.step cfg x).cache.runRemaining :=
      of_decide_eq_true ha
    rw [hcache, Counter.ticks_run] at hpos
    omega
  exact ⟨hcache.trans (Counter.ticks_of_lt hlt), hlt, hrest⟩

theorem quiet_take {instrs : List IRInstr} {m n : Nat} (h : m ≤ n)
    (hn : (instrs.take n).all quiet = true) :
    (instrs.take m).all quiet = true := by
  rw [List.all_eq_true] at hn ⊢
  exact fun i hi => hn i (List.take_subset_take_left instrs h hi)

/-- What is left of a quiet stretch is quiet. -/
theorem quiet_drop {instrs : List IRInstr} {k m n : Nat} (h : k + m ≤ n)
    (hn : (instrs.take n).all quiet = true) :
    ((instrs.drop k).take m).all quiet = true := by
  have hsub := quiet_take h hn
  rw [List.take_add, List.all_append, Bool.and_eq_true] at hsub
  exact hsub.2

/-- A turn within the window is quiet after its first instruction. -/
theorem quiet_tail {instrs : List IRInstr} {n limit : Nat}
    (hn : n ≤ precise_window instrs limit)
    (hh : handledTo instrs n = true) :
    ((instrs.take n).drop 1).all quiet = true := by
  rw [List.all_eq_true]
  intro i hi
  have hacc := List.all_eq_true.mp
    (quiet_window instrs limit) i (by
      refine List.Sublist.subset ?_ hi
      exact (List.take_sublist_take_left hn).drop 1)
  unfold quiet
  rw [Bool.and_eq_true]
  refine ⟨?_, hacc⟩
  exact List.all_eq_true.mp hh i (List.drop_subset 1 _ hi)

theorem split_of_slots {c c' : X87Cache}
    (h : c'.nativeSlots = c.nativeSlots)
    (hsplit : split cfg c = true) : split cfg c' = true := by
  unfold split at hsplit ⊢
  rw [h]
  exact hsplit

/-- A turn in a reply that goes on covers quiet instructions, and leaves a
reply that goes on, if it does. -/
theorem GoesOn.turn {t : Turn} (h : GoesOn cfg w)
    (ht : w.turn cfg x = some t) :
    (w.rest.take t.count).all X87Sidecar.quiet = true
      ∧ ((w.step cfg x).cache.active = true →
          GoesOn cfg (w.step cfg x)) := by
  have hfound : w.found cfg = w.cache := if_pos h.active
  have hset : setUpRun cfg w.cache w.rest = w.cache := by
    unfold setUpRun starts
    rw [h.active]
    rfl
  obtain ⟨honward, -, hcount⟩ : Onward w.cache t.cache ∧ 1 ≤ t.count
      ∧ (t.count ≤ w.cache.runRemaining
        ∨ t.count ≤ precise_window w.rest 8
          ∧ handledTo w.rest t.count = true) := by
    have hturn : X87Sidecar.turn cfg w.cache w.rest x = some t := by
      rw [← hfound]
      exact ht
    have hwithin := turn_within h.split hturn
    rwa [hset] at hwithin
  have hpos : 1 ≤ w.cache.runRemaining := of_decide_eq_true h.active
  refine ⟨?_, fun ha => ?_⟩
  · rcases hcount with hle | ⟨hle, hh⟩
    · exact quiet_take hle h.quiet
    · rw [← List.take_append_drop 1 (w.rest.take t.count),
        List.all_append, Bool.and_eq_true]
      refine ⟨?_, quiet_tail hle hh⟩
      rw [List.take_take]
      exact quiet_take ((Nat.min_le_left _ _).trans hpos) h.quiet
  · obtain ⟨hcache, hlt, hrest⟩ := step_active ht ha
    refine ⟨ha, ?_, ?_⟩
    · rw [hcache]
      exact split_of_slots honward.slots h.split
    · rw [hcache, hrest]
      have hrun := honward.run
      refine quiet_drop (n := w.cache.runRemaining) ?_ h.quiet
      show t.count + (t.cache.runRemaining - t.count) ≤ _
      omega

/-- The turns of a reply that goes on cover quiet instructions only. -/
theorem GoesOn.reply (h : GoesOn cfg w) (xs : List Choice) :
    (w.rest.take (w.reply cfg xs)).all X87Sidecar.quiet = true := by
  induction xs generalizing w with
  | nil => rfl
  | cons x xs ih =>
      unfold Walk.reply
      split
      · rfl
      · rename_i t ht
        obtain ⟨hquiet, hgo⟩ := h.turn ht
        rw [List.take_add, List.all_append, Bool.and_eq_true]
        refine ⟨hquiet, ?_⟩
        split
        · rename_i ha
          have hrest := (step_active ht ha).2.2
          rw [← hrest]
          exact ih (hgo ha)
        · rfl

/-- The run that a request starts, where it is cut before accesses. -/
theorem setUp_within {c : X87Cache} (instrs : List IRInstr)
    (hidle : c.runRemaining = 0) (hsplit : split cfg c = true)
    (hlayout : c.nativeTransport = false) :
    ∃ k, (setUpRun cfg c instrs).runRemaining ≤ k
      ∧ handledTo instrs k = true
      ∧ ((instrs.take k).drop 1).all X87Sidecar.quiet = true := by
  by_cases hs : starts cfg c = true
  swap
  · refine ⟨0, ?_, rfl, rfl⟩
    unfold setUpRun
    rw [if_neg hs]
    exact Nat.le_of_eq hidle
  have hlen : runLength cfg c instrs
      = precise_window instrs (lookahead instrs) := by
    unfold runLength
    rw [hsplit, hlayout]
    rfl
  obtain ⟨u, hset⟩ := Counter.setUpRun_of_starts instrs hs
  rw [hset, Counter.setRun_run, hlen]
  by_cases hrun : 2 ≤ precise_window instrs (lookahead instrs)
  · have hpos : 0 < lookahead instrs := by
      by_contra hz
      rw [show lookahead instrs = 0 by omega] at hrun
      simp [precise_window] at hrun
    have hh := handledTo_of_le (precise_window_le instrs hpos)
      (handled_lookahead instrs)
    refine ⟨precise_window instrs (lookahead instrs), ?_, hh,
      quiet_tail (Nat.le_refl _) hh⟩
    rw [if_pos hrun]
    exact Counter.int16Count_le _
  · refine ⟨0, ?_, rfl, rfl⟩
    rw [if_neg hrun]
    exact Nat.le_of_eq hidle

/-- The first turn of a reply. -/
theorem request_turn {t : Turn} (hidle : w.cache.active = false)
    (hsplit : split cfg (w.found cfg) = true)
    (hlayout : (w.found cfg).nativeTransport = false)
    (ht : w.turn cfg x = some t) :
    1 ≤ t.count ∧ handledTo w.rest t.count = true
      ∧ ((w.rest.take t.count).drop 1).all X87Sidecar.quiet = true
      ∧ ((w.step cfg x).cache.active = true →
          GoesOn cfg (w.step cfg x)) := by
  have hzero : (w.found cfg).runRemaining = 0 := by
    have hn : ¬0 < w.cache.runRemaining := of_decide_eq_false hidle
    rw [show (w.found cfg).runRemaining = w.cache.runRemaining from
      (Counter.eased_entered w.cache w.rest).run]
    omega
  obtain ⟨k, hrun, hhandled, hquiet⟩ :=
    setUp_within w.rest hzero hsplit hlayout
  obtain ⟨honward, hone, hcount⟩ := turn_within hsplit ht
  refine ⟨hone, ?_, ?_, fun ha => ?_⟩
  · rcases hcount with hle | ⟨-, hh⟩
    · exact handledTo_of_le (hle.trans hrun) hhandled
    · exact hh
  · rcases hcount with hle | ⟨hle, hh⟩
    · rw [List.drop_take] at hquiet ⊢
      exact quiet_take (by omega) hquiet
    · exact quiet_tail hle hh
  · obtain ⟨hcache, hlt, hrest⟩ := step_active ht ha
    refine ⟨ha, ?_, ?_⟩
    · rw [hcache]
      refine split_of_slots (honward.slots.trans ?_) hsplit
      exact (Counter.setUpRun_layout cfg _ _).1
    · rw [hcache, hrest]
      rw [List.drop_take] at hquiet
      have hle := honward.run
      have hdrop : w.rest.drop t.count
          = (w.rest.drop 1).drop (t.count - 1) := by
        rw [List.drop_drop]
        congr 1
        omega
      rw [hdrop]
      refine quiet_drop (n := k - 1) ?_ hquiet
      show t.count - 1 + (t.cache.runRemaining - t.count) ≤ _
      omega

/-- The instructions a reply covers are x87 instructions, and after the
first one they are quiet. -/
theorem reply_quiet (hidle : w.cache.active = false)
    (hsplit : split cfg (w.found cfg) = true)
    (hlayout : (w.found cfg).nativeTransport = false)
    (xs : List Choice) :
    handledTo w.rest (w.reply cfg xs) = true
      ∧ ((w.rest.take (w.reply cfg xs)).drop 1).all X87Sidecar.quiet
        = true := by
  cases xs with
  | nil => exact ⟨rfl, rfl⟩
  | cons x xs =>
      unfold Walk.reply
      split
      · exact ⟨rfl, rfl⟩
      · rename_i t ht
        obtain ⟨hone, hh, hquiet, hgo⟩ :=
          request_turn hidle hsplit hlayout ht
        have hrest : ((w.rest.drop t.count).take
            (if (w.step cfg x).cache.active then
              (w.step cfg x).reply cfg xs else 0)).all X87Sidecar.quiet
            = true := by
          split
          · rename_i ha
            rw [← (step_active ht ha).2.2]
            exact (hgo ha).reply xs
          · rfl
        have hsplitAt := List.take_add (l := w.rest) (i := t.count)
          (j := if (w.step cfg x).cache.active then
              (w.step cfg x).reply cfg xs else 0)
        constructor
        · unfold handledTo
          rw [hsplitAt, List.all_append, Bool.and_eq_true]
          refine ⟨hh, ?_⟩
          rw [List.all_eq_true] at hrest ⊢
          intro i hi
          have hq := hrest i hi
          unfold X87Sidecar.quiet at hq
          exact (Bool.and_eq_true _ _ ▸ hq).1
        · rw [hsplitAt, List.drop_append, List.all_append,
            Bool.and_eq_true]
          refine ⟨hquiet, ?_⟩
          rw [List.all_eq_true] at hrest ⊢
          exact fun i hi => hrest i (List.drop_subset _ _ hi)

theorem length_le_takeWhile {α : Type} {p : α → Bool} {l : List α} {n : Nat}
    (hn : n ≤ l.length) (h : (l.take n).all p = true) :
    n ≤ (l.takeWhile p).length := by
  have happ := @List.takeWhile_append_of_pos _ p (l.take n) (l.drop n)
    (List.all_eq_true.mp h)
  rw [List.take_append_drop] at happ
  rw [happ, List.length_append, List.length_take]
  omega

/-- Instructions that are all x87 are within the lookahead. -/
theorem le_lookahead {instrs : List IRInstr} {n : Nat}
    (hn : n ≤ instrs.length) (h : handledTo instrs n = true) :
    n ≤ lookahead instrs := by
  unfold handledTo at h
  induction instrs generalizing n with
  | nil => exact hn
  | cons i rest ih =>
      cases n with
      | zero => exact Nat.zero_le _
      | succ n =>
          rw [List.take_succ_cons, List.all_cons, Bool.and_eq_true] at h
          unfold lookahead
          rw [if_pos h.1]
          exact Nat.succ_le_succ (ih (Nat.le_of_succ_le_succ hn) h.2)

/-- A reply stays within the window. -/
theorem reply_within (hidle : w.cache.active = false)
    (hsplit : split cfg (w.found cfg) = true)
    (hlayout : (w.found cfg).nativeTransport = false)
    (xs : List Choice) :
    ∀ i ∈ w.rest.take (w.reply cfg xs),
      i ∈ w.rest.take (precise_window w.rest (lookahead w.rest)) := by
  obtain ⟨hh, hquiet⟩ := reply_quiet hidle hsplit hlayout xs
  generalize w.reply cfg xs = n at hh hquiet
  -- as many as there are
  let m := min n w.rest.length
  have htake : w.rest.take n = w.rest.take m := List.take_eq_take_min
  rw [htake] at hquiet ⊢
  have hm : m ≤ w.rest.length := Nat.min_le_right _ _
  have hlook : m ≤ lookahead w.rest :=
    le_lookahead hm (handledTo_of_le (Nat.min_le_left _ _) hh)
  have hwindow : m ≤ precise_window w.rest (lookahead w.rest) := by
    unfold precise_window
    have hle : m - 1 ≤ (((w.rest.drop 1).take
        (lookahead w.rest - 1)).takeWhile
          fun i => !x87_accesses_memory i).length := by
      refine length_le_takeWhile ?_ ?_
      · rw [List.length_take, List.length_drop]
        omega
      · rw [List.take_take, Nat.min_eq_left (by omega), ← List.drop_take]
        rw [List.all_eq_true] at hquiet ⊢
        intro i hi
        have hq := hquiet i hi
        unfold quiet at hq
        exact (Bool.and_eq_true _ _ ▸ hq).2
    omega
  exact fun i hi => List.take_subset_take_left w.rest hwindow hi

end

-- ========================================================= restartable

/-- The access of an instruction is through an operand that neither the
window nor the probe looks for. -/
def hidesAccess (i : IRInstr) : Bool :=
  i.usesMemory && !x87_accesses_memory i

/-- No x87 instruction of the window of a request hides its access. -/
def NothingHidden (w : Walk) : Prop :=
  ∀ i ∈ w.rest.take (precise_window w.rest (lookahead w.rest)),
    isHandledX87 i.opcode = true → hidesAccess i = false

/-- What a fault meets in a reply: only its first instruction accesses
memory, and that access has been probed first. At every address the probe
touches the bytes of the access only, on every page of it, and faults
where the access would. -/
structure Restartable (cfg : TranslatorConfig) (w : Walk)
    (xs : List Choice) : Prop where
  alone : ∀ i ∈ (w.rest.take (w.reply cfg xs)).drop 1,
    i.usesMemory = false
  probed : ∀ i, (w.rest.take (w.reply cfg xs)).head? = some i →
    i.usesMemory = true →
    ∃ op ∈ i.operands, op.isAddress = true ∧ ∃ code,
      w.probe cfg = some (op, code) ∧
        ∀ a, Probes (x87_access_bytes i op)
            (x87_writes_memory i.opcode) a (code a)
          ∧ ∀ prot : Protection,
            prot.accessFaults (x87_access_bytes i op)
              (x87_writes_memory i.opcode) a → prot.probeFaults (code a)

theorem x87_access_bytes_range (i : IRInstr) (op : IROperand) :
    0 < x87_access_bytes i op ∧ x87_access_bytes i op ≤ 4096 := by
  unfold x87_access_bytes
  split
  · omega
  · omega
  · omega
  · omega
  · split
    all_goals omega

/-- An access that is not hidden is probed. -/
theorem probed_of_not_hidden {i : IRInstr} (hmem : i.usesMemory = true)
    (hhid : hidesAccess i = false) :
    ∃ op ∈ i.operands, op.isAddress = true ∧ ∃ code,
      emit_fault_probe i = some (op, code) ∧
        ∀ a, Probes (x87_access_bytes i op)
            (x87_writes_memory i.opcode) a (code a)
          ∧ ∀ prot : Protection,
            prot.accessFaults (x87_access_bytes i op)
              (x87_writes_memory i.opcode) a →
                prot.probeFaults (code a) := by
  have hacc : x87_accesses_memory i = true := by
    unfold hidesAccess at hhid
    rw [hmem] at hhid
    simpa using hhid
  have hsome : (probedOperand i).isSome := by
    unfold probedOperand
    rw [List.find?_isSome]
    unfold x87_accesses_memory at hacc
    obtain ⟨op, hop, hkind⟩ := List.any_eq_true.mp hacc
    exact ⟨op, hop, hkind⟩
  obtain ⟨op, hop⟩ := Option.isSome_iff_exists.mp hsome
  have hfind := hop
  unfold probedOperand at hfind
  have hkind := List.find?_some hfind
  simp only [decide_eq_true_iff] at hkind
  refine ⟨op, List.mem_of_find?_eq_some hfind, ?_,
    probeCode (x87_access_bytes i op) (x87_writes_memory i.opcode), ?_,
    fun a => ?_⟩
  · unfold IROperand.isAddress
    rcases hkind with h | h
    · simp [h]
    · simp [h]
  · unfold emit_fault_probe
    rw [hop]
    rfl
  · obtain ⟨hpos, hle⟩ := x87_access_bytes_range i op
    have h := probes (x87_access_bytes i op) hpos hle
      (x87_writes_memory i.opcode) a
    exact ⟨h, h.faults⟩

/-- A request that is no transport request works on native slots. -/
theorem entered_slots {cfg : TranslatorConfig} {c : X87Cache}
    {instrs : List IRInstr} (hidle : c.active = false)
    (hslots : cfg.nativeSlots = true)
    (hlayout : (c.entered cfg instrs).nativeTransport = false) :
    (c.entered cfg instrs).nativeSlots = true := by
  unfold X87Cache.entered at hlayout ⊢
  rw [hidle] at hlayout ⊢
  cases htransport : cfg.nativeTransport && isNativeTransportRun instrs with
  | true => simp [hslots, htransport] at hlayout
  | false => simp [hslots]

/-- With native slots and a split before each access, in every run of
requests every reply that is no transport reply is restartable, if the
window of its own request hides no access. -/
theorem replies_restartable (cfg : TranslatorConfig)
    (hslots : cfg.nativeSlots = true)
    (hfaults : cfg.fusion.preciseFaults = true)
    (hsplit : cfg.fusion.preciseSplit = true)
    (block : List IRInstr) (xs : List Choice) :
    ∀ v ∈ Lib.visits (Walk.step cfg) (Walk.start block) xs,
      v.1.cache.active = false → (v.1.found cfg).nativeTransport = false →
      NothingHidden v.1 → ∀ ys, Restartable cfg v.1 ys := by
  intro v _ hidle hlayout hwindow ys
  have hfound : split cfg (v.1.found cfg) = true := by
    have hentered : (v.1.found cfg).nativeSlots = true :=
      entered_slots hidle hslots hlayout
    unfold split
    rw [hentered, hsplit]
    rfl
  have hwithin := reply_within hidle hfound hlayout ys
  obtain ⟨hhandled, hquiet⟩ := reply_quiet hidle hfound hlayout ys
  -- the reply takes x87 instructions only, so none of its own is hidden
  have hhid : ∀ i ∈ v.1.rest.take (v.1.reply cfg ys),
      hidesAccess i = false := fun i hi =>
    hwindow i (hwithin i hi) (List.all_eq_true.mp hhandled i hi)
  constructor
  · intro i hi
    have hq := List.all_eq_true.mp hquiet i hi
    have hn := hhid i (List.drop_subset _ _ hi)
    unfold quiet at hq
    unfold hidesAccess at hn
    simp only [Bool.and_eq_true, Bool.not_eq_true'] at hq
    rw [hq.2] at hn
    simpa using hn
  · intro i hi hmem
    obtain ⟨op, hop, haddr, code, hcode, hsound⟩ :=
      probed_of_not_hidden hmem
        (hhid i (List.mem_of_mem_head? hi))
    refine ⟨op, hop, haddr, code, ?_, hsound⟩
    have hhead : v.1.rest.head? = some i := by
      rw [List.head?_take] at hi
      split at hi
      · cases hi
      · exact hi
    unfold Walk.probe
    rw [hfaults, hlayout, hhead]
    exact hcode

/-- The mode of the two settings, without the IR. -/
def splitting : TranslatorConfig :=
  { Counter.fusing with
    nativeSlots := true
    fusion :=
      { Counter.fusing.fusion with
        preciseFaults := true, preciseSplit := true } }

/-- `fld dword [rax]`, `fchs`, `fstp dword [rax]`. -/
def loadNegateStore : List IRInstr :=
  [{ opcode := .fld, numOperands := 1, op0 := .based .s32 0 0 },
    { opcode := .fchs },
    { opcode := .fstp, numOperands := 1, op0 := .based .s32 0 0 }]

/-- Its reply ends before the store. -/
theorem replies_restartable_loadNegateStore :
    Restartable splitting (Walk.start loadNegateStore)
      [Counter.plainTurn, Counter.plainTurn] := by
  refine replies_restartable splitting rfl rfl rfl loadNegateStore
    [Counter.plainTurn] (Walk.start loadNegateStore, Counter.plainTurn)
    List.mem_cons_self rfl rfl ?_ _
  intro i hi
  revert i
  decide

/-- An operand that a fixup makes an address: neither the window nor the
probe takes it for one. -/
def fixedUp : IROperand := ⟨.immediate, .s32, 3, 0, 1, 0, 0, 0, 0x1000⟩

/-- `fld1`, then an `fadd` with such an operand: one reply, with an access
in the middle of it. -/
theorem not_restartable_fixedUp :
    ¬Restartable splitting
      (Walk.start
        [{ opcode := .fld1 },
          { opcode := .fadd, numOperands := 1, op0 := fixedUp }])
      [Counter.plainTurn] := by
  intro h
  have hmem := h.alone
    { opcode := .fadd, numOperands := 1, op0 := fixedUp }
    List.mem_cons_self
  cases hmem

end X87Sidecar
