/-
Names held in registers.

Code is described with names for its values, and the registers they go to
are chosen later and used again. What is kept of an assignment is that each
name's register holds its value; a name is lost when its register is
written.
-/
import Mathlib.Logic.Function.Basic
import Mathlib.Data.Option.Basic

namespace X87Sidecar.Lib

/-- The register of each name that has one. -/
abbrev Assign (ι ρ : Type) := ι → Option ρ

namespace Assign

variable {ι ρ V : Type}

/-- No name has a register. -/
def none : Assign ι ρ := fun _ => Option.none

/-- The assignment without the registers that were written. -/
def drop (A : Assign ι ρ) (written : ρ → Bool) : Assign ι ρ :=
  fun i => (A i).filter (!written ·)

/-- The assignment with a name put in a register. -/
def put [DecidableEq ι] (A : Assign ι ρ) (i : ι) (r : ρ) : Assign ι ρ :=
  Function.update A i (some r)

/-- Each name's register holds its value. -/
def Holds (A : Assign ι ρ) (read : ρ → V) (value : ι → V) : Prop :=
  ∀ i r, A i = some r → read r = value i

variable {A : Assign ι ρ} {read read' : ρ → V} {value : ι → V}

theorem holds_none : (none : Assign ι ρ).Holds read value := by
  intro i r h
  cases h

theorem drop_eq_some {written : ρ → Bool} {i : ι} {r : ρ} :
    A.drop written i = some r ↔ A i = some r ∧ written r = false := by
  unfold drop
  rw [Option.filter_eq_some_iff]
  simp

theorem drop_of_false {written : ρ → Bool} (h : ∀ r, written r = false) :
    A.drop written = A := by
  funext i
  unfold drop
  cases A i with
  | none => rfl
  | some r => simp [h]

/-- What was not written still holds its value. -/
theorem Holds.drop (h : A.Holds read value) {written : ρ → Bool}
    (hread : ∀ r, written r = false → read' r = read r) :
    (A.drop written).Holds read' value := by
  intro i r hi
  obtain ⟨hA, hw⟩ := drop_eq_some.mp hi
  rw [hread r hw]
  exact h i r hA

/-- A name moves to the register its new value was written to; the
registers have the values in some form. -/
theorem Holds.put_map [DecidableEq ι] {W : Type} (f : W → V)
    {value : ι → W} (h : A.Holds read fun i => f (value i)) {i : ι} {r : ρ}
    {w : W} (hr : read r = f w) :
    (A.put i r).Holds read fun j => f (Function.update value i w j) := by
  intro j q hj
  unfold put at hj
  show read q = f (Function.update value i w j)
  by_cases hji : j = i
  · subst hji
    rw [Function.update_self, Option.some.injEq] at hj
    rw [Function.update_self, ← hj, hr]
  · rw [Function.update_of_ne hji] at hj
    rw [Function.update_of_ne hji]
    exact h j q hj

theorem Holds.put [DecidableEq ι] (h : A.Holds read value) {i : ι} {r : ρ}
    {v : V} (hr : read r = v) :
    (A.put i r).Holds read (Function.update value i v) :=
  h.put_map id hr

end Assign

end X87Sidecar.Lib
