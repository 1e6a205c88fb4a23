/-
Computations that may fail half way and keep what they had done.

A C++ routine that mutates a structure in place and returns `false`
leaves the mutations behind. `Keep σ α` is that shape: it always
returns a state, and a result only on success. The rules below are the
usual ones of a program logic with two postconditions, one for each way
out; a caller states what a callee guarantees once (`Triple`) and
composes by `bind`, never by unfolding.
-/
import Mathlib.Init

namespace X87Sidecar.Lib

variable {σ α β : Type}

/-- A computation over a state `σ` that may fail and keeps its state
changes when it does. -/
def Keep (σ α : Type) := σ → Option α × σ

namespace Keep

/-- Succeed without touching the state. -/
def pure (a : α) : Keep σ α := fun s => (some a, s)

/-- Sequence: a failure skips the continuation and keeps the state. -/
def bind (m : Keep σ α) (f : α → Keep σ β) : Keep σ β := fun s =>
  match m s with
  | (some a, s') => f a s'
  | (none, s') => (none, s')

/-- Fail, keeping the state. -/
def fail : Keep σ α := fun s => (none, s)

/-- Change the state. -/
def modify (f : σ → σ) : Keep σ Unit := fun s => (some (), f s)

/-- Read the state. -/
def get : Keep σ σ := fun s => (some s, s)

/-- Run for the state changes only: a failure is ignored. -/
def ignore (m : Keep σ α) : Keep σ Unit := fun s => (some (), (m s).2)

/-- Run both and test afterwards: the second runs on the state of the
first whatever the first returned, and the pair is there when both
results are. -/
def both (m : Keep σ α) (n : Keep σ β) : Keep σ (α × β) := fun s =>
  let (a, s₁) := m s
  let (b, s₂) := n s₁
  (a.bind fun x => b.map (Prod.mk x), s₂)

instance : Monad (Keep σ) where
  pure := pure
  bind := bind

@[simp] theorem pure_apply (a : α) (s : σ) :
    (Pure.pure a : Keep σ α) s = (some a, s) := rfl

@[simp] theorem fail_apply (s : σ) : (fail : Keep σ α) s = (none, s) := rfl

@[simp] theorem modify_apply (f : σ → σ) (s : σ) :
    modify f s = (some (), f s) := rfl

@[simp] theorem get_apply (s : σ) : (get : Keep σ σ) s = (some s, s) := rfl

@[simp] theorem ignore_apply (m : Keep σ α) (s : σ) :
    ignore m s = (some (), (m s).2) := rfl

theorem bind_apply (m : Keep σ α) (f : α → Keep σ β) (s : σ) :
    (m >>= f) s = match m s with
      | (some a, s') => f a s'
      | (none, s') => (none, s') := rfl

-- ========================================================= the triples

/-- From a state satisfying `P`, `m` ends in `Q a` when it returns `a`
and in `F` when it fails. -/
def Triple (P : σ → Prop) (m : Keep σ α) (Q : α → σ → Prop)
    (F : σ → Prop) : Prop :=
  ∀ s, P s → match m s with
    | (some a, s') => Q a s'
    | (none, s') => F s'

variable {P P' : σ → Prop} {Q Q' : α → σ → Prop} {F F' : σ → Prop}

/-- What a triple says of a successful run. -/
theorem Triple.of_some {m : Keep σ α} (h : Triple P m Q F) {s s' : σ}
    {a : α} (hs : P s) (hm : m s = (some a, s')) : Q a s' := by
  have := h s hs
  rwa [hm] at this

/-- What a triple says of a failed run. -/
theorem Triple.of_none {m : Keep σ α} (h : Triple P m Q F) {s s' : σ}
    (hs : P s) (hm : m s = (none, s')) : F s' := by
  have := h s hs
  rwa [hm] at this

/-- The rule of consequence. -/
theorem Triple.conseq {m : Keep σ α} (h : Triple P m Q F)
    (hP : ∀ s, P' s → P s) (hQ : ∀ a s, Q a s → Q' a s)
    (hF : ∀ s, F s → F' s) : Triple P' m Q' F' := by
  intro s hs
  have hm := h s (hP s hs)
  rcases hr : m s with ⟨o, s'⟩
  rw [hr] at hm
  cases o with
  | none => exact hF _ hm
  | some a => exact hQ _ _ hm

/-- Weaken the failure postcondition alone. -/
theorem Triple.failTo {m : Keep σ α} (h : Triple P m Q F)
    (hF : ∀ s, F s → F' s) : Triple P m Q F' :=
  h.conseq (fun _ hs => hs) (fun _ _ hq => hq) hF

/-- A precondition with an existential is used one witness at a time. -/
theorem Triple.exists {γ : Type} {r : γ → Prop} {R : γ → σ → Prop}
    {m : Keep σ α} (h : ∀ c, r c → Triple (R c) m Q F) :
    Triple (fun s => ∃ c, r c ∧ R c s) m Q F := by
  rintro s ⟨c, hr, hs⟩
  exact h c hr s hs

/-- The same with two witnesses. -/
theorem Triple.exists₂ {γ δ : Type} {r : γ → δ → Prop}
    {R : γ → δ → σ → Prop} {m : Keep σ α}
    (h : ∀ c d, r c d → Triple (R c d) m Q F) :
    Triple (fun s => ∃ c d, r c d ∧ R c d s) m Q F := by
  rintro s ⟨c, d, hr, hs⟩
  exact h c d hr s hs

/-- A fact about the result that does not depend on the state. -/
theorem Triple.and_of {γ : Prop} {m : Keep σ α}
    (h : γ → Triple P m Q F) : Triple (fun s => γ ∧ P s) m Q F := by
  rintro s ⟨hc, hs⟩
  exact h hc s hs

/-- Returning establishes the success postcondition from the
precondition. -/
theorem Triple.pure {a : α} (h : ∀ s, P s → Q a s) :
    Triple P (Pure.pure a) Q F := fun s hs => h s hs

/-- Failing establishes the failure postcondition from the
precondition. -/
theorem Triple.fail (h : ∀ s, P s → F s) :
    Triple P (Keep.fail : Keep σ α) Q F := fun s hs => h s hs

/-- Changing the state. -/
theorem Triple.modify {f : σ → σ} {R : Unit → σ → Prop}
    (h : ∀ s, P s → R () (f s)) :
    Triple P (Keep.modify f) R F := fun s hs => h s hs

/-- Reading the state. -/
theorem Triple.get {R : σ → σ → Prop} (h : ∀ s, P s → R s s) :
    Triple P Keep.get R F := fun s hs => h s hs

/-- Sequencing: the callee's success postcondition is the
continuation's precondition, and both fail into the same `F`. -/
theorem Triple.bind {m : Keep σ α} {f : α → Keep σ β}
    {R : β → σ → Prop} (hm : Triple P m Q F)
    (hf : ∀ a, Triple (Q a) (f a) R F) : Triple P (m >>= f) R F := by
  intro s hs
  rw [bind_apply]
  have h1 := hm s hs
  rcases hr : m s with ⟨o, s'⟩
  rw [hr] at h1
  cases o with
  | none => exact h1
  | some a => exact hf a _ h1

/-- Ignoring a failure merges the two postconditions. -/
theorem Triple.ignore {m : Keep σ α} {R : Unit → σ → Prop}
    (h : Triple P m Q F') (hQ : ∀ a s, Q a s → R () s)
    (hF : ∀ s, F' s → R () s) : Triple P (Keep.ignore m) R F := by
  intro s hs
  rw [ignore_apply]
  have hm := h s hs
  rcases hr : m s with ⟨o, s'⟩
  rw [hr] at hm
  cases o with
  | none => exact hF _ hm
  | some a => exact hQ a _ hm

/-- Running both: a failure of the first leaves the second to run from
`G`, and both ways of failing meet in `F`. -/
theorem Triple.both {m : Keep σ α} {n : Keep σ β} {G : σ → Prop}
    {R : α × β → σ → Prop} (hm : Triple P m Q G)
    (hn : ∀ a, Triple (Q a) n (fun b => R (a, b)) F)
    (hg : Triple G n (fun _ => F) F) : Triple P (Keep.both m n) R F := by
  intro s hs
  have h₁ := hm s hs
  rcases hr : m s with ⟨o, s₁⟩
  rw [hr] at h₁
  rcases ht : n s₁ with ⟨o', s₂⟩
  have heq : Keep.both m n s = (o.bind fun x => o'.map (Prod.mk x), s₂) := by
    simp only [Keep.both, hr, ht]
  rw [heq]
  cases o with
  | none =>
      -- the second ran all the same, and its result is not used
      have h₂ := hg s₁ h₁
      rw [ht] at h₂
      cases o' with
      | none => exact h₂
      | some b => exact h₂
  | some a =>
      have h₂ := hn a s₁ h₁
      rw [ht] at h₂
      cases o' with
      | none => exact h₂
      | some b => exact h₂

end Keep

end X87Sidecar.Lib
