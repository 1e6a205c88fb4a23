/-
Parsers that may fail, over a source that is handed out piece by piece.

A parser is a `Keep` computation over a source `σ`; `Ahead s l` says that
the pieces left in `s` are `l`. `Takes m l a` says that `m` reads `l` off
the front and returns `a`, whatever follows: it is what a round trip is
composed of. `Alike R m m'` says that two runs on related sources answer
the same and stay related.
-/
import X87Sidecar.Lib.Keep

namespace X87Sidecar.Lib.Keep

variable {σ σ' τ α β : Type}

-- ====================================================== what is taken

section
variable {Ahead : σ → List τ → Prop}

/-- From a source with `l` in front, `m` takes `l` and returns `a`. -/
def Takes (Ahead : σ → List τ → Prop) (m : Keep σ α) (l : List τ) (a : α) :
    Prop :=
  ∀ s rest, Ahead s (l ++ rest) → ∃ s', m s = (some a, s') ∧ Ahead s' rest

theorem Takes.pure (a : α) : Takes Ahead (Pure.pure a) [] a :=
  fun s _ h => ⟨s, rfl, h⟩

/-- One parser after the other takes one piece after the other. -/
theorem Takes.bind {m : Keep σ α} {f : α → Keep σ β} {l l' : List τ}
    {a : α} {b : β} (hm : Takes Ahead m l a) (hf : Takes Ahead (f a) l' b) :
    Takes Ahead (m >>= f) (l ++ l') b := by
  intro s rest h
  rw [List.append_assoc] at h
  obtain ⟨s', hs, h'⟩ := hm s _ h
  obtain ⟨s'', hs', h''⟩ := hf s' _ h'
  refine ⟨s'', ?_, h''⟩
  rw [bind_apply, hs]
  exact hs'

/-- The same where the second takes nothing. -/
theorem Takes.bind_pure {m : Keep σ α} {f : α → β} {l : List τ} {a : α}
    (hm : Takes Ahead m l a) :
    Takes Ahead (m >>= fun a => Pure.pure (f a)) l (f a) := by
  have h := hm.bind (f := fun a => Pure.pure (f a)) (Takes.pure (f a))
  rwa [List.append_nil] at h

end

-- ================================================== two sources in step

section
variable {R : σ → σ' → Prop}

/-- On related sources two parsers answer the same, and the sources are
related still if they answer at all. -/
def Alike (R : σ → σ' → Prop) (m : Keep σ α) (m' : Keep σ' α) : Prop :=
  ∀ s s', R s s' →
    (m s).1 = (m' s').1 ∧ ((m s).1 ≠ none → R (m s).2 (m' s').2)

theorem Alike.pure (a : α) :
    Alike R (Pure.pure a : Keep σ α) (Pure.pure a) :=
  fun _ _ h => ⟨rfl, fun _ => h⟩

theorem Alike.fail : Alike R (Keep.fail : Keep σ α) Keep.fail :=
  fun _ _ _ => ⟨rfl, fun hne => absurd rfl hne⟩

theorem Alike.bind {m : Keep σ α} {m' : Keep σ' α} {f : α → Keep σ β}
    {f' : α → Keep σ' β} (hm : Alike R m m')
    (hf : ∀ a, Alike R (f a) (f' a)) : Alike R (m >>= f) (m' >>= f') := by
  intro s s' h
  obtain ⟨hsame, hrel⟩ := hm s s' h
  rw [bind_apply, bind_apply]
  rcases hr : m s with ⟨o, t⟩
  rcases hr' : m' s' with ⟨o', t'⟩
  rw [hr, hr'] at hsame hrel
  dsimp only at hsame hrel
  subst hsame
  cases o with
  | none => exact ⟨rfl, fun hne => absurd rfl hne⟩
  | some a =>
      exact hf a t t' (hrel (Option.some_ne_none a))

/-- Reading the source: what is read may differ, what is done with it
may not. -/
theorem Alike.get {f : σ → Keep σ β} {f' : σ' → Keep σ' β}
    (h : ∀ s s', R s s' → Alike R (f s) (f' s')) :
    Alike R (Keep.get >>= f) (Keep.get >>= f') :=
  fun s s' hs => h s s' hs s s' hs

end

end X87Sidecar.Lib.Keep
