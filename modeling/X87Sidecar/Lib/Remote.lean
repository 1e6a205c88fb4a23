/-
Another process's memory, through operations that may fail.

Every read, write and allocation takes the next of a list of fates:
nothing when the operation fails, or where an allocation would land. A
failed operation changes nothing. Addresses are natural numbers, so a
region is an interval and never wraps.

What a computation leaves alone is `Keeps`: memory that was mapped stays
mapped, and its bytes outside a given set of addresses stay as they
were. Growable buffers (`Buffer`) are appended to in place or by moving
them to a new allocation (`append`); `appendAll` does so for a family of
them. Both either append or leave every live byte as it was.
-/
import X87Sidecar.Lib.Keep
import Mathlib.Data.BitVec
import Mathlib.Data.Fin.Basic
import Mathlib.Logic.Function.Basic

namespace X87Sidecar.Lib

/-- A process's memory, and what becomes of the operations on it. -/
structure Remote where
  byte : Nat → BitVec 8
  mapped : Nat → Bool
  fates : List (Option Nat)

namespace Remote

-- ========================================================= the operations

/-- All of `[a, a + n)` is mapped. -/
def isMapped (r : Remote) (a n : Nat) : Bool :=
  (List.range n).all fun i => r.mapped (a + i)

/-- None of it is. -/
def isFree (r : Remote) (a n : Nat) : Bool :=
  (List.range n).all fun i => !r.mapped (a + i)

/-- Take the next fate; an operation with none left fails. -/
def next : Keep Remote Nat := fun r =>
  match r.fates with
  | [] => (none, r)
  | f :: rest => (f, { r with fates := rest })

/-- Read `n` bytes, given back by offset. -/
def read (a n : Nat) : Keep Remote (Nat → BitVec 8) := fun r =>
  if n = 0 then (some fun _ => 0, r)
  else match next r with
    | (some _, r) =>
        (if r.isMapped a n then some fun i => r.byte (a + i) else none, r)
    | (none, r) => (none, r)

/-- The memory with `n` bytes written. -/
def put (r : Remote) (a n : Nat) (bytes : Nat → BitVec 8) : Remote :=
  { r with byte := fun x =>
      if a ≤ x ∧ x < a + n then bytes (x - a) else r.byte x }

/-- Write `n` bytes. -/
def write (a n : Nat) (bytes : Nat → BitVec 8) : Keep Remote Unit :=
  fun r =>
    if n = 0 then (some (), r)
    else match next r with
      | (some _, r) =>
          if r.isMapped a n then (some (), r.put a n bytes) else (none, r)
      | (none, r) => (none, r)

/-- The memory with a region mapped, zero, or unmapped. -/
def setMapped (r : Remote) (a n : Nat) (on : Bool) : Remote :=
  { r with
    byte := fun x => if a ≤ x ∧ x < a + n then 0 else r.byte x
    mapped := fun x => if a ≤ x ∧ x < a + n then on else r.mapped x }

/-- Allocate `n` bytes anywhere: never at 0, never over mapped memory. -/
def allocate (n : Nat) : Keep Remote Nat := fun r =>
  match next r with
  | (some a, r) =>
      if a ≠ 0 ∧ r.isFree a n = true then (some a, r.setMapped a n true)
      else (none, r)
  | (none, r) => (none, r)

/-- Give a region back; this cannot fail. -/
def deallocate (r : Remote) (a n : Nat) : Remote := r.setMapped a n false

-- ======================================================= what stays alone

/-- Mapped memory stays mapped and keeps its bytes outside `W`. -/
structure Keeps (W : Nat → Prop) (r r' : Remote) : Prop where
  mapped : ∀ x, r.mapped x = true → r'.mapped x = true
  byte : ∀ x, r.mapped x = true → ¬W x → r'.byte x = r.byte x

variable {W W' : Nat → Prop} {r r' r'' : Remote} {a n : Nat}

theorem Keeps.refl : Keeps W r r := ⟨fun _ h => h, fun _ _ _ => rfl⟩

theorem Keeps.trans (h : Keeps W r r') (h' : Keeps W r' r'') :
    Keeps W r r'' := by
  constructor
  · intro x hx
    exact h'.mapped x (h.mapped x hx)
  · intro x hx hw
    rw [h'.byte x (h.mapped x hx) hw, h.byte x hx hw]

theorem Keeps.mono (h : Keeps W r r') (hW : ∀ x, W x → W' x) :
    Keeps W' r r' :=
  ⟨h.mapped, fun x hx hw => h.byte x hx fun hx' => hw (hW x hx')⟩

theorem isFree_iff :
    r.isFree a n = true ↔ ∀ i < n, r.mapped (a + i) = false := by
  simp [isFree]

/-- Taking a fate changes nothing else. -/
theorem next_same {o : Option Nat} (h : next r = (o, r')) :
    r'.byte = r.byte ∧ r'.mapped = r.mapped := by
  unfold next at h
  split at h
  · cases h
    exact ⟨rfl, rfl⟩
  · cases h
    exact ⟨rfl, rfl⟩

theorem Keeps.of_same (h : r'.byte = r.byte ∧ r'.mapped = r.mapped) :
    Keeps W r r' := by
  obtain ⟨hb, hm⟩ := h
  constructor
  · intro x hx
    rw [hm]
    exact hx
  · intro x _ _
    rw [hb]

/-- A read changes nothing, and gives the bytes when it succeeds. -/
theorem read_spec {o : Option (Nat → BitVec 8)}
    (h : read a n r = (o, r')) :
    (r'.byte = r.byte ∧ r'.mapped = r.mapped)
      ∧ ∀ f, o = some f → ∀ i < n, f i = r.byte (a + i) := by
  unfold read at h
  split at h
  · rename_i hn
    cases h
    refine ⟨⟨rfl, rfl⟩, ?_⟩
    intro f _ i hi
    omega
  · rcases hnext : next r with ⟨_ | f, r1⟩
    · rw [hnext] at h
      cases h
      exact ⟨next_same hnext, nofun⟩
    · rw [hnext] at h
      dsimp only at h
      obtain ⟨hb, hm⟩ := next_same hnext
      cases h
      refine ⟨⟨hb, hm⟩, ?_⟩
      intro g hg i _
      split at hg
      · cases hg
        rw [hb]
      · cases hg

/-- A write that succeeds writes its bytes and nothing else; one that
fails writes nothing. -/
theorem write_spec {bytes : Nat → BitVec 8} {o : Option Unit}
    (h : write a n bytes r = (o, r')) :
    Keeps (fun x => a ≤ x ∧ x < a + n) r r'
      ∧ r'.mapped = r.mapped
      ∧ (o = some () → ∀ i < n, r'.byte (a + i) = bytes i)
      ∧ (∀ x, ¬(a ≤ x ∧ x < a + n) → r'.byte x = r.byte x) := by
  unfold write at h
  split at h
  · rename_i hn
    cases h
    refine ⟨Keeps.refl, rfl, ?_, fun _ _ => rfl⟩
    intro _ i hi
    omega
  · rcases hnext : next r with ⟨_ | f, r1⟩
    · rw [hnext] at h
      cases h
      obtain ⟨hb, hm⟩ := next_same hnext
      exact ⟨Keeps.of_same ⟨hb, hm⟩, hm, nofun, fun _ _ => by rw [hb]⟩
    · rw [hnext] at h
      dsimp only at h
      obtain ⟨hb, hm⟩ := next_same hnext
      split at h
      · cases h
        have hout : ∀ x, ¬(a ≤ x ∧ x < a + n) →
            (r1.put a n bytes).byte x = r.byte x := by
          intro x hx
          unfold put
          dsimp only
          rw [if_neg hx, hb]
        refine ⟨⟨?_, fun x _ hx => hout x hx⟩, hm, ?_, hout⟩
        · intro x hx
          show r1.mapped x = true
          rw [hm]
          exact hx
        · intro _ i hi
          unfold put
          dsimp only
          rw [if_pos ⟨Nat.le_add_right a i, Nat.add_lt_add_left hi a⟩,
            Nat.add_sub_cancel_left]
      · cases h
        exact ⟨Keeps.of_same ⟨hb, hm⟩, hm, nofun, fun _ _ => by rw [hb]⟩

/-- An allocation lands on memory that was free, and changes nothing
that was mapped. -/
theorem allocate_spec {o : Option Nat} (h : allocate n r = (o, r')) :
    Keeps W r r' ∧ ∀ b, o = some b → b ≠ 0
      ∧ (∀ i < n, r.mapped (b + i) = false)
      ∧ (∀ x, r'.mapped x = true ↔
          (b ≤ x ∧ x < b + n) ∨ r.mapped x = true) := by
  unfold allocate at h
  rcases hnext : next r with ⟨_ | f, r1⟩
  · rw [hnext] at h
    cases h
    exact ⟨Keeps.of_same (next_same hnext), nofun⟩
  · rw [hnext] at h
    dsimp only at h
    obtain ⟨hb, hm⟩ := next_same hnext
    split at h
    · rename_i hok
      cases h
      have hfree : ∀ i < n, r.mapped (f + i) = false := by
        intro i hi
        rw [← hm]
        exact isFree_iff.mp hok.2 i hi
      have houtside : ∀ x, r.mapped x = true → ¬(f ≤ x ∧ x < f + n) := by
        intro x hx hin
        have := hfree (x - f) (by omega)
        rw [Nat.add_sub_cancel' hin.1, hx] at this
        cases this
      refine ⟨⟨?_, ?_⟩, ?_⟩
      · intro x hx
        unfold setMapped
        dsimp only
        rw [if_neg (houtside x hx), hm]
        exact hx
      · intro x hx _
        unfold setMapped
        dsimp only
        rw [if_neg (houtside x hx), hb]
      · intro b hbeq
        cases hbeq
        refine ⟨hok.1, hfree, ?_⟩
        intro x
        unfold setMapped
        dsimp only
        rw [hm]
        by_cases hin : f ≤ x ∧ x < f + n
        · rw [if_pos hin]
          exact ⟨fun _ => Or.inl hin, fun _ => rfl⟩
        · rw [if_neg hin]
          exact ⟨Or.inr, fun h => h.resolve_left hin⟩
    · cases h
      exact ⟨Keeps.of_same ⟨hb, hm⟩, nofun⟩

/-- Giving back a region that was free in `r` keeps what `r` had. -/
theorem Keeps.deallocate (h : Keeps W r r')
    (hfree : ∀ i < n, r.mapped (a + i) = false) :
    Keeps W r (r'.deallocate a n) := by
  have houtside : ∀ x, r.mapped x = true → ¬(a ≤ x ∧ x < a + n) := by
    intro x hx hin
    have := hfree (x - a) (by omega)
    rw [Nat.add_sub_cancel' hin.1, hx] at this
    cases this
  unfold Remote.deallocate setMapped
  constructor
  · intro x hx
    dsimp only
    rw [if_neg (houtside x hx)]
    exact h.mapped x hx
  · intro x hx hw
    dsimp only
    rw [if_neg (houtside x hx)]
    exact h.byte x hx hw

end Remote

-- ======================================================= growable buffers

/-- A growable buffer: where it starts, how many bytes of it are live,
and how many it has room for. -/
structure Buffer where
  base : Nat
  live : Nat
  cap : Nat
  deriving DecidableEq

namespace Buffer

/-- The buffer's room is mapped and its live bytes are inside it. -/
structure Owned (r : Remote) (b : Buffer) : Prop where
  fits : b.live ≤ b.cap
  mapped : ∀ i < b.cap, r.mapped (b.base + i) = true

/-- The room past the live bytes. -/
def Slack (b : Buffer) (x : Nat) : Prop :=
  b.base + b.live ≤ x ∧ x < b.base + b.cap

/-- Two buffers share no byte of their room. -/
def Apart (b b' : Buffer) : Prop :=
  ∀ i < b.cap, ∀ j < b'.cap, b.base + i ≠ b'.base + j

theorem Apart.symm {b b' : Buffer} (h : b.Apart b') : b'.Apart b :=
  fun i hi j hj heq => h j hj i hi heq.symm

/-- Round a size up to whole pages. -/
def pages (n : Nat) : Nat := (n + 0xFFF) / 0x1000 * 0x1000

theorem le_pages (n : Nat) : n ≤ pages n := by
  unfold pages
  omega

/-- A new allocation of `cap` bytes with the live bytes of `b` and then
the `n` new ones; on a failure it is given back. -/
def relocate (b : Buffer) (cap n : Nat) (bytes : Nat → BitVec 8) :
    Keep Remote Buffer := fun r =>
  match Remote.allocate (pages cap) r with
  | (none, r) => (none, r)
  | (some base, r) =>
      let copy : Keep Remote Unit := do
        let stash ← Remote.read b.base b.live
        Remote.write base b.live stash
        Remote.write (base + b.live) n bytes
      match copy r with
      | (some _, r) => (some ⟨base, b.live + n, pages cap⟩, r)
      | (none, r) => (none, r.deallocate base (pages cap))

/-- Append `n` bytes: in place when they fit and `move` does not ask for
more, else to a new allocation of at least twice the room. -/
def append (b : Buffer) (move : Bool) (n : Nat) (bytes : Nat → BitVec 8) :
    Keep Remote Buffer := fun r =>
  if !move && decide (b.live + n ≤ b.cap) then
    match Remote.write (b.base + b.live) n bytes r with
    | (some _, r) => (some { b with live := b.live + n }, r)
    | (none, r) => (none, r)
  else b.relocate (max (b.cap * 2) (b.live + n)) n bytes r

/-- What an append that succeeds leaves: a buffer of its own with the old
bytes and then the new. -/
structure Appended (r r' : Remote) (b b' : Buffer) (n : Nat)
    (bytes : Nat → BitVec 8) : Prop where
  live : b'.live = b.live + n
  owned : b'.Owned r'
  old : ∀ i < b.live, r'.byte (b'.base + i) = r.byte (b.base + i)
  new : ∀ i < n, r'.byte (b'.base + (b.live + i)) = bytes i

/-- A buffer is where it was, or on memory that was free. -/
def Fresh (r : Remote) (b b' : Buffer) : Prop :=
  (b'.base = b.base ∧ b'.cap = b.cap)
    ∨ ∀ i < b'.cap, r.mapped (b'.base + i) = false

variable {r r' : Remote} {b b' : Buffer} {n : Nat}
  {bytes : Nat → BitVec 8}

/-- A relocation keeps all there was, and appends or fails. -/
theorem relocate_spec {cap : Nat} {o : Option Buffer}
    (hcap : b.live + n ≤ cap)
    (hb : b.Owned r) (h : b.relocate cap n bytes r = (o, r')) :
    Remote.Keeps (fun _ => False) r r'
      ∧ ∀ b', o = some b' → Appended r r' b b' n bytes ∧ Fresh r b b' := by
  unfold relocate at h
  rcases halloc : Remote.allocate (pages cap) r with ⟨_ | base, r1⟩
  · rw [halloc] at h
    cases h
    exact ⟨(Remote.allocate_spec halloc).1, nofun⟩
  obtain ⟨hk1, hspec⟩ := Remote.allocate_spec halloc
  obtain ⟨-, hfree, hmap⟩ := hspec base rfl
  rw [halloc] at h
  dsimp only at h
  have hroom : b.live + n ≤ pages cap := Nat.le_trans hcap (le_pages cap)
  -- the addresses of the new region were free, so mapped bytes are not there
  have hdisj : ∀ x, r.mapped x = true →
      ¬(base ≤ x ∧ x < base + pages cap) := by
    intro x hx hin
    have := hfree (x - base) (by omega)
    rw [Nat.add_sub_cancel' hin.1, hx] at this
    cases this
  rcases hread : Remote.read b.base b.live r1 with ⟨stash, r2⟩
  obtain ⟨⟨hb2, hm2⟩, hstash⟩ := Remote.read_spec hread
  have hk2 : Remote.Keeps (fun _ => False) r r2 :=
    hk1.trans (.of_same ⟨hb2, hm2⟩)
  cases stash with
  | none =>
      simp only [Keep.bind_apply, hread] at h
      cases h
      exact ⟨hk2.deallocate hfree, nofun⟩
  | some stash =>
      rcases hw1 : Remote.write base b.live stash r2 with ⟨o1, r3⟩
      obtain ⟨-, hm3, hin3, hout3⟩ := Remote.write_spec hw1
      have hk3 : Remote.Keeps (fun _ => False) r r3 := by
        constructor
        · intro x hx
          rw [hm3]
          exact hk2.mapped x hx
        · intro x hx hw
          rw [hout3 x fun hin => hdisj x hx ⟨hin.1, by omega⟩]
          exact hk2.byte x hx hw
      cases o1 with
      | none =>
          simp only [Keep.bind_apply, hread, hw1] at h
          cases h
          exact ⟨hk3.deallocate hfree, nofun⟩
      | some _ =>
          rcases hw2 : Remote.write (base + b.live) n bytes r3 with ⟨o2, r4⟩
          obtain ⟨-, hm4, hin4, hout4⟩ := Remote.write_spec hw2
          have hk4 : Remote.Keeps (fun _ => False) r r4 := by
            constructor
            · intro x hx
              rw [hm4]
              exact hk3.mapped x hx
            · intro x hx hw
              rw [hout4 x fun hin => hdisj x hx ⟨by omega, by omega⟩]
              exact hk3.byte x hx hw
          simp only [Keep.bind_apply, hread, hw1, hw2] at h
          cases o2 with
          | none =>
              cases h
              exact ⟨hk4.deallocate hfree, nofun⟩
          | some _ =>
              cases h
              refine ⟨hk4, ?_⟩
              intro b' hb'
              cases hb'
              refine ⟨⟨rfl, ⟨hroom, ?_⟩, ?_, ?_⟩, Or.inr hfree⟩
              · intro i hi
                rw [hm4, hm3, hm2]
                apply (hmap _).mpr
                dsimp only at hi ⊢
                omega
              · intro i hi
                have hlive : r.mapped (b.base + i) = true :=
                  hb.mapped i (Nat.lt_of_lt_of_le hi hb.fits)
                show r'.byte (base + i) = r.byte (b.base + i)
                rw [hout4 _ (by omega), hin3 rfl i hi, hstash _ rfl i hi]
                exact hk1.byte _ hlive (fun h => h)
              · intro i hi
                show r'.byte (base + (b.live + i)) = bytes i
                rw [← Nat.add_assoc]
                exact hin4 rfl i hi

/-- An append changes no mapped byte but the buffer's own slack. -/
theorem append_spec {move : Bool} {o : Option Buffer} (hb : b.Owned r)
    (h : b.append move n bytes r = (o, r')) :
    Remote.Keeps b.Slack r r'
      ∧ ∀ b', o = some b' → Appended r r' b b' n bytes ∧ Fresh r b b' := by
  unfold append at h
  split at h
  · rename_i hfit
    have hfit : b.live + n ≤ b.cap := by
      simp only [Bool.and_eq_true, decide_eq_true_eq] at hfit
      exact hfit.2
    rcases hw : Remote.write (b.base + b.live) n bytes r with ⟨o1, r1⟩
    obtain ⟨hk, hm, hin, hout⟩ := Remote.write_spec hw
    have hslack : Remote.Keeps b.Slack r r1 :=
      hk.mono fun x hx => ⟨hx.1, by omega⟩
    rw [hw] at h
    cases o1 with
    | none =>
        cases h
        exact ⟨hslack, nofun⟩
    | some _ =>
        cases h
        refine ⟨hslack, ?_⟩
        intro b' hb'
        cases hb'
        refine ⟨⟨rfl, ⟨hfit, ?_⟩, ?_, ?_⟩, Or.inl ⟨rfl, rfl⟩⟩
        · intro i hi
          rw [hm]
          exact hb.mapped i hi
        · intro i hi
          show r'.byte (b.base + i) = r.byte (b.base + i)
          exact hout _ (by omega)
        · intro i hi
          show r'.byte (b.base + (b.live + i)) = bytes i
          rw [← Nat.add_assoc]
          exact hin rfl i hi
  · obtain ⟨hk, hspec⟩ := relocate_spec (Nat.le_max_right _ _) hb h
    exact ⟨hk.mono fun _ hx => absurd hx id, hspec⟩

-- ============================================================== families

/-- What is appended to a buffer. -/
structure Tail where
  /-- the bytes must not go in place -/
  move : Bool := false
  size : Nat
  bytes : Nat → BitVec 8

variable {m : Nat}

/-- Append to some of a family of buffers, one after the other. -/
def appendAll (tails : Fin m → Tail) :
    List (Fin m) → (Fin m → Buffer) → Keep Remote (Fin m → Buffer)
  | [], bufs => pure bufs
  | j :: js, bufs => do
      let b ← (bufs j).append (tails j).move (tails j).size (tails j).bytes
      appendAll tails js (Function.update bufs j b)

/-- A family of buffers, each its own and apart from the others. -/
structure Family (r : Remote) (bufs : Fin m → Buffer) : Prop where
  owned : ∀ j, (bufs j).Owned r
  apart : ∀ i j, i ≠ j → (bufs i).Apart (bufs j)

/-- Mapped memory keeps buffers owned. -/
theorem Owned.keep {W : Nat → Prop} (h : b.Owned r)
    (hk : Remote.Keeps W r r') : b.Owned r' :=
  ⟨h.fits, fun i hi => hk.mapped _ (h.mapped i hi)⟩

/-- A live byte of one of a family is in no slack of it. -/
theorem Family.live_not_slack {bufs : Fin m → Buffer}
    (h : Family r bufs) {j k : Fin m} {i : Nat} (hi : i < (bufs j).live) :
    ¬(bufs k).Slack ((bufs j).base + i) := by
  intro hs
  have hj := (h.owned j).fits
  unfold Slack at hs
  by_cases hjk : j = k
  · subst hjk
    omega
  · apply h.apart j k hjk i (by omega)
      ((bufs j).base + i - (bufs k).base) (by omega)
    omega

/-- After an append to one of them they are a family again. -/
theorem Family.update {bufs : Fin m → Buffer} (h : Family r bufs)
    {j : Fin m} {b' : Buffer} {W : Nat → Prop}
    (hk : Remote.Keeps W r r') (ho : b'.Owned r')
    (hf : Fresh r (bufs j) b') :
    Family r' (Function.update bufs j b') := by
  have hnew : ∀ k, k ≠ j → b'.Apart (bufs k) := by
    intro k hkj
    rcases hf with ⟨hbase, hcap⟩ | hfree
    · intro i hi l hl
      rw [hbase]
      exact h.apart j k (Ne.symm hkj) i (hcap ▸ hi) l hl
    · intro i hi l hl heq
      have hm := (h.owned k).mapped l hl
      rw [← heq, hfree i hi] at hm
      cases hm
  constructor
  · intro k
    by_cases hkj : k = j
    · subst hkj
      rw [Function.update_self]
      exact ho
    · rw [Function.update_of_ne hkj]
      exact (h.owned k).keep hk
  · intro i k hik
    by_cases hij : i = j
    · subst hij
      rw [Function.update_self, Function.update_of_ne (Ne.symm hik)]
      exact hnew k (Ne.symm hik)
    · rw [Function.update_of_ne hij]
      by_cases hkj : k = j
      · subst hkj
        rw [Function.update_self]
        exact (hnew i hij).symm
      · rw [Function.update_of_ne hkj]
        exact h.apart i k hik

/-- What appending to some of a family leaves: those have their tails,
the others are as they were. -/
structure AllAppended (r r' : Remote) (bufs bufs' : Fin m → Buffer)
    (tails : Fin m → Tail) (js : List (Fin m)) : Prop where
  family : Family r' bufs'
  inside : ∀ j ∈ js,
    Appended r r' (bufs j) (bufs' j) (tails j).size (tails j).bytes
  outside : ∀ j, j ∉ js → bufs' j = bufs j
    ∧ ∀ i < (bufs j).live,
        r'.byte ((bufs j).base + i) = r.byte ((bufs j).base + i)

/-- Some buffer's slack. -/
def AnySlack (bufs : Fin m → Buffer) (x : Nat) : Prop :=
  ∃ j, (bufs j).Slack x

/-- Appending to some of a family changes no mapped byte but their slack,
and when it succeeds each has its tail. -/
theorem appendAll_spec {tails : Fin m → Tail} {js : List (Fin m)}
    (hjs : js.Nodup) {bufs : Fin m → Buffer} {r r' : Remote}
    {o : Option (Fin m → Buffer)} (hfam : Family r bufs)
    (h : appendAll tails js bufs r = (o, r')) :
    Remote.Keeps (AnySlack bufs) r r'
      ∧ ∀ bufs', o = some bufs' → AllAppended r r' bufs bufs' tails js := by
  induction js generalizing bufs r with
  | nil =>
      cases h
      refine ⟨.refl, ?_⟩
      intro bufs' hb
      cases hb
      exact ⟨hfam, nofun, fun _ _ => ⟨rfl, fun _ _ => rfl⟩⟩
  | cons j js ih =>
      obtain ⟨hj, hjs⟩ := List.nodup_cons.mp hjs
      unfold appendAll at h
      rw [Keep.bind_apply] at h
      rcases happ : (bufs j).append (tails j).move (tails j).size
        (tails j).bytes r with ⟨o1, r1⟩
      obtain ⟨hk1, hspec1⟩ := append_spec (hfam.owned j) happ
      have hk1' : Remote.Keeps (AnySlack bufs) r r1 :=
        hk1.mono fun x hx => ⟨j, hx⟩
      rw [happ] at h
      cases o1 with
      | none =>
          cases h
          exact ⟨hk1', nofun⟩
      | some b' =>
          obtain ⟨ha, hf⟩ := hspec1 b' rfl
          have hfam1 := hfam.update hk1 ha.owned hf
          obtain ⟨hk2, hspec2⟩ := ih hjs hfam1 h
          -- the moved buffer's new room was free, so its slack is no one's
          have hslack : ∀ x, r.mapped x = true →
              AnySlack (Function.update bufs j b') x → AnySlack bufs x := by
            intro x hx ⟨k, hs⟩
            by_cases hkj : k = j
            · subst hkj
              rw [Function.update_self] at hs
              unfold Slack at hs
              rw [ha.live] at hs
              rcases hf with ⟨hbase, hcap⟩ | hfree
              · exact ⟨k, by unfold Slack; omega⟩
              · have := hfree (x - b'.base) (by omega)
                rw [Nat.add_sub_cancel' (by omega), hx] at this
                cases this
            · rw [Function.update_of_ne hkj] at hs
              exact ⟨k, hs⟩
          refine ⟨⟨?_, ?_⟩, ?_⟩
          · intro x hx
            exact hk2.mapped x (hk1'.mapped x hx)
          · intro x hx hw
            rw [hk2.byte x (hk1'.mapped x hx) fun hs => hw (hslack x hx hs)]
            exact hk1'.byte x hx hw
          · intro bufs' hb
            have hall := hspec2 bufs' hb
            have hlive1 : ∀ k, k ≠ j → ∀ i < (bufs k).live,
                r1.byte ((bufs k).base + i)
                  = r.byte ((bufs k).base + i) := by
              intro k _ i hi
              apply hk1.byte
              · exact (hfam.owned k).mapped i
                  (Nat.lt_of_lt_of_le hi (hfam.owned k).fits)
              · exact hfam.live_not_slack hi
            refine ⟨hall.family, ?_, ?_⟩
            · intro k hk
              rcases List.mem_cons.mp hk with hk | hk
              · subst hk
                obtain ⟨heq, hkeep⟩ := hall.outside k hj
                rw [Function.update_self] at heq hkeep
                rw [heq]
                refine ⟨ha.live, heq ▸ hall.family.owned k, ?_, ?_⟩
                · intro i hi
                  rw [hkeep i (by rw [ha.live]; omega)]
                  exact ha.old i hi
                · intro i hi
                  rw [hkeep _ (by rw [ha.live]; omega)]
                  exact ha.new i hi
              · have hkj : k ≠ j := fun h => hj (h ▸ hk)
                have hin := hall.inside k hk
                rw [Function.update_of_ne hkj] at hin
                refine ⟨hin.live, hin.owned, ?_, hin.new⟩
                intro i hi
                rw [hin.old i hi]
                exact hlive1 k hkj i hi
            · intro k hk
              have hkj : k ≠ j := fun h => hk (h ▸ List.mem_cons_self)
              obtain ⟨heq, hkeep⟩ :=
                hall.outside k fun h => hk (List.mem_cons_of_mem _ h)
              rw [Function.update_of_ne hkj] at heq hkeep
              refine ⟨heq, ?_⟩
              intro i hi
              rw [hkeep i hi]
              exact hlive1 k hkj i hi

end Buffer

end X87Sidecar.Lib
