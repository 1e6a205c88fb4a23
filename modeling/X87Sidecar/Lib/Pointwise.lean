/-
Rewriting a list in place.

A pass that visits the cells of an array and replaces some of them leaves
a list of the same length, each cell of which is related to what it was.
`Pointwise R l l'` says so. It composes, and a single replacement
satisfies it as soon as the replaced cell does; the two loop rules carry
any invariant of a loop body through the whole loop.
-/
import Mathlib.Data.List.Basic

namespace X87Sidecar.Lib

variable {α σ : Type}

-- ================================================= related cell by cell

/-- Equal lengths, and each cell of `l` is related by `R` at its index to
the cell of `l'`. -/
structure Pointwise (R : Nat → α → α → Prop) (l l' : List α) : Prop where
  length : l'.length = l.length
  each : ∀ (i : Nat) (a b : α), l[i]? = some a → l'[i]? = some b → R i a b

namespace Pointwise

variable {R S T : Nat → α → α → Prop} {l l' l'' : List α}

/-- A cell before has a cell after. -/
theorem get (h : Pointwise R l l') {i : Nat} {a : α}
    (ha : l[i]? = some a) : ∃ b, l'[i]? = some b ∧ R i a b := by
  obtain ⟨hi, -⟩ := List.getElem?_eq_some_iff.mp ha
  have hi' : i < l'.length := by rw [h.length]; exact hi
  exact ⟨l'[i], List.getElem?_eq_getElem hi',
    h.each i a _ ha (List.getElem?_eq_getElem hi')⟩

/-- A cell after had a cell before. -/
theorem was (h : Pointwise R l l') {i : Nat} {b : α}
    (hb : l'[i]? = some b) : ∃ a, l[i]? = some a ∧ R i a b := by
  obtain ⟨hi, -⟩ := List.getElem?_eq_some_iff.mp hb
  have hi' : i < l.length := by rw [← h.length]; exact hi
  exact ⟨l[i], List.getElem?_eq_getElem hi',
    h.each i _ b (List.getElem?_eq_getElem hi') hb⟩

/-- What `R` leaves alone is read alike in both lists. -/
theorem map_eq {β : Type} {f : α → β} (h : Pointwise R l l')
    (hf : ∀ i a b, R i a b → f b = f a) (i : Nat) :
    l'[i]?.map f = l[i]?.map f := by
  cases ha : l[i]? with
  | some a =>
      obtain ⟨b, hb, hab⟩ := h.get ha
      rw [hb, Option.map_some, Option.map_some, hf i a b hab]
  | none =>
      rw [List.getElem?_eq_none_iff] at ha
      rw [List.getElem?_eq_none (h.length ▸ ha)]

theorem refl (hR : ∀ i a, R i a a) (l : List α) : Pointwise R l l where
  length := rfl
  each i a b ha hb := by
    rw [ha] at hb
    cases hb
    exact hR i a

theorem trans (h : Pointwise R l l') (h' : Pointwise S l' l'')
    (hT : ∀ i a b c, R i a b → S i b c → T i a c) :
    Pointwise T l l'' where
  length := h'.length.trans h.length
  each i a c ha hc := by
    obtain ⟨b, hb, hab⟩ := h.get ha
    exact hT i a b c hab (h'.each i b c hb hc)

theorem imp (h : Pointwise R l l') (hS : ∀ i a b, R i a b → S i a b) :
    Pointwise S l l' :=
  ⟨h.length, fun i a b ha hb => hS i a b (h.each i a b ha hb)⟩

/-- A list given cell by cell. -/
theorem of_getElem? {f : Nat → α → α}
    (hl : ∀ i : Nat, l'[i]? = l[i]?.map (f i))
    (hf : ∀ i a, l[i]? = some a → R i a (f i a)) : Pointwise R l l' where
  length := by
    refine Nat.le_antisymm ?_ ?_
    · rw [← List.getElem?_eq_none_iff, hl,
        List.getElem?_eq_none (Nat.le_refl _)]
      rfl
    · rw [← List.getElem?_eq_none_iff]
      have h := hl l'.length
      rw [List.getElem?_eq_none (Nat.le_refl _)] at h
      exact Option.map_eq_none_iff.mp h.symm
  each i a b ha hb := by
    rw [hl, ha, Option.map_some] at hb
    cases hb
    exact hf i a ha

/-- One cell modified. -/
theorem modify (hR : ∀ i a, R i a a) {i : Nat} {f : α → α}
    (hf : ∀ a, l[i]? = some a → R i a (f a)) :
    Pointwise R l (l.modify i f) := by
  refine of_getElem? (List.getElem?_modify f i l) fun j a ha => ?_
  by_cases hij : i = j
  · subst hij
    rw [if_pos rfl]
    exact hf a ha
  · rw [if_neg hij]
    exact hR j a

/-- One cell replaced. -/
theorem set (hR : ∀ i a, R i a a) {i : Nat} {b : α}
    (hb : ∀ a, l[i]? = some a → R i a b) :
    Pointwise R l (l.set i b) := by
  rw [List.set_eq_modify]
  exact modify hR hb

/-- Every cell rewritten. -/
theorem mapIdx {f : Nat → α → α}
    (hf : ∀ i a, l[i]? = some a → R i a (f i a)) :
    Pointwise R l (l.mapIdx f) :=
  of_getElem? (fun _ => List.getElem?_mapIdx) hf

/-- The cells below an index. -/
theorem take (h : Pointwise R l l') (n : Nat) :
    Pointwise R (l.take n) (l'.take n) where
  length := by
    rw [List.length_take, List.length_take, h.length]
  each i a b ha hb := by
    rw [List.getElem?_take] at ha hb
    split at ha
    · next hi =>
      rw [if_pos hi] at hb
      exact h.each i a b ha hb
    · cases ha

end Pointwise

-- ================================================================ loops

/-- `for (i = 0; i < n; i++)`, as a rule: what holds at the start and is
kept by each turn holds at the end. -/
theorem foldl_range_induct {n : Nat} {f : σ → Nat → σ} {s : σ}
    (P : Nat → σ → Prop) (h0 : P 0 s)
    (hstep : ∀ i s, i < n → P i s → P (i + 1) (f s i)) :
    P n ((List.range n).foldl f s) := by
  induction n with
  | zero => exact h0
  | succ n ih =>
      rw [List.range_succ, List.foldl_append]
      exact hstep n _ (Nat.lt_succ_self n)
        (ih fun i s hi => hstep i s (Nat.lt_succ_of_lt hi))

end X87Sidecar.Lib
