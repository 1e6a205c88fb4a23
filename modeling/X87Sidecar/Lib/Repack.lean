/-
Records moved in place, one after the other.

Each record is read from where it stands and written to where it goes. If
no record is written over one that is still to be read, and none over one
that was already written, the result is as if all had been read first
(`moveAll_moves`).
-/
import Mathlib.Data.List.Basic

namespace X87Sidecar.Lib

section
variable {ι M V : Type}

/-- The records of a list moved in its order. -/
def moveAll (get : ι → M → V) (put : ι → V → M → M) (l : List ι) (m : M) :
    M :=
  l.foldl (fun m i => put i (get i m) m) m

variable {get : ι → M → V} {put : ι → V → M → M} {l : List ι}

@[simp] theorem moveAll_nil (m : M) : moveAll get put [] m = m := (rfl)

@[simp] theorem moveAll_cons (i : ι) (m : M) :
    moveAll get put (i :: l) m
      = moveAll get put l (put i (get i m) m) := (rfl)

/-- What no write touches is kept. -/
theorem moveAll_keeps {α : Type} (o : M → α)
    (h : ∀ i ∈ l, ∀ v m, o (put i v m) = o m) (m : M) :
    o (moveAll get put l m) = o m := by
  induction l generalizing m with
  | nil => rfl
  | cons i l ih =>
      rw [moveAll_cons, ih fun j hj => h j (List.mem_cons_of_mem _ hj)]
      exact h i List.mem_cons_self _ m

variable (get put)

/-- Every record arrives as it was before any was moved. -/
theorem moveAll_moves {W : Type} (out : ι → M → W)
    (hread : l.Pairwise fun i j => ∀ v m, get j (put i v m) = get j m)
    (hkept : l.Pairwise fun i j => ∀ v m, out i (put j v m) = out i m)
    {i : ι} (hi : i ∈ l) (m : M) :
    ∃ m', out i (moveAll get put l m) = out i (put i (get i m) m') := by
  induction l generalizing m with
  | nil => cases hi
  | cons j l ih =>
      obtain ⟨hj, hread⟩ := List.pairwise_cons.mp hread
      obtain ⟨hj', hkept⟩ := List.pairwise_cons.mp hkept
      rw [moveAll_cons]
      rcases List.mem_cons.mp hi with rfl | hil
      · exact ⟨m, moveAll_keeps (out i) hj' _⟩
      · obtain ⟨m', hm'⟩ := ih hread hkept hil (put j (get j m) m)
        refine ⟨m', ?_⟩
        rw [hm', hj i hil]

end

end X87Sidecar.Lib
