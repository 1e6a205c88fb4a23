/-
Deterministic machines over a list of inputs.

`visits` lists every state a run comes to with the input it takes there.
The rules: an invariant that every step keeps holds wherever a run comes
(`visits_of_invariant`), and a property of the steps that on the
invariant's states is a condition on the state and the input holds of a
whole run when the condition does, and only then (`visits_iff`). What a
state owes to the inputs before it is `final_of_history`.
-/
import Mathlib.Data.List.Induction

namespace X87Sidecar.Lib

variable {σ ι : Type}

/-- The states a run comes to, each with the input it takes there. -/
def visits (step : σ → ι → σ) : σ → List ι → List (σ × ι)
  | _, [] => []
  | s, i :: rest => (s, i) :: visits step (step s i) rest

/-- The state at the end of a run. -/
def final (step : σ → ι → σ) : σ → List ι → σ
  | s, [] => s
  | s, i :: rest => final step (step s i) rest

variable {step : σ → ι → σ} {s : σ}

@[simp] theorem visits_nil : visits step s [] = [] := rfl

@[simp] theorem visits_cons {i : ι} {is : List ι} :
    visits step s (i :: is) = (s, i) :: visits step (step s i) is := rfl

/-- What every step keeps holds wherever the run comes. -/
theorem visits_of_invariant {Inv : σ → Prop}
    (hstep : ∀ s i, Inv s → Inv (step s i)) (hs : Inv s) (is : List ι) :
    ∀ v ∈ visits step s is, Inv v.1 := by
  induction is generalizing s with
  | nil =>
      intro v hv
      cases hv
  | cons i is ih =>
      intro v hv
      rcases List.mem_cons.mp hv with hv | hv
      · rw [hv]
        exact hs
      · exact ih (hstep s i hs) v hv

@[simp] theorem final_nil : final step s [] = s := rfl

@[simp] theorem final_cons {i : ι} {is : List ι} :
    final step s (i :: is) = final step (step s i) is := rfl

theorem final_append (is js : List ι) :
    final step s (is ++ js) = final step (final step s is) js := by
  induction is generalizing s with
  | nil => rfl
  | cons i is ih => exact ih

/-- What relates a state to the inputs that led to it, when every step
keeps it. -/
theorem final_of_history (Inv : List ι → σ → Prop) (hs : Inv [] s)
    (hstep : ∀ past s i, Inv past s → Inv (past ++ [i]) (step s i))
    (is : List ι) : Inv is (final step s is) := by
  induction is using List.reverseRecOn with
  | nil => exact hs
  | append_singleton is i ih =>
      rw [final_append]
      exact hstep is _ i ih

/-- Under an invariant that every step keeps, a property of steps that is
step by step a condition is the condition on the whole run. -/
theorem visits_iff (Inv : σ → Prop) (P Q : σ → ι → Prop)
    (hstep : ∀ s i, Inv s → Inv (step s i))
    (hiff : ∀ s i, Inv s → (P s i ↔ Q s i)) (hs : Inv s) (is : List ι) :
    (∀ v ∈ visits step s is, P v.1 v.2)
      ↔ ∀ v ∈ visits step s is, Q v.1 v.2 := by
  have hinv := visits_of_invariant hstep hs is
  constructor
  · intro h v hv
    exact (hiff _ _ (hinv v hv)).mp (h v hv)
  · intro h v hv
    exact (hiff _ _ (hinv v hv)).mpr (h v hv)

/-- A condition on each step that keeps an invariant, and with it gives a
property of the step, gives the property along the whole run. -/
theorem visits_of_condition (Inv : σ → Prop) (P Q : σ → ι → Prop)
    (hstep : ∀ s i, Inv s → Q s i → P s i ∧ Inv (step s i))
    (hs : Inv s) (is : List ι)
    (h : ∀ v ∈ visits step s is, Q v.1 v.2) :
    ∀ v ∈ visits step s is, P v.1 v.2 := by
  induction is generalizing s with
  | nil =>
      intro v hv
      cases hv
  | cons i is ih =>
      obtain ⟨hp, hinv⟩ := hstep s i hs (h (s, i) List.mem_cons_self)
      intro v hv
      rcases List.mem_cons.mp hv with hv | hv
      · rw [hv]
        exact hp
      · exact ih hinv (fun v hv => h v (List.mem_cons_of_mem _ hv)) v hv

end X87Sidecar.Lib
