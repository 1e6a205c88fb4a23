/-
Code whose branches all go forward.

A branch names its target in one of two ways: so many instructions ahead,
or the place where a label is bound. Running such code is one pass over
it. The pass carries the machine and where it is `Going`: it executes, or
it is on its way to a target and leaves the machine alone.

Code that binds every label its branches name and holds every place they
count to (`closed`) ends executing, whatever it did, so that what stands
behind it runs from its result (`exec_append`).
-/
import X87Sidecar.Lib.Emit

namespace X87Sidecar.Lib.Forward

-- ========================================================== the code

/-- Where a branch goes. -/
inductive Target (L : Type)
  /-- so many instructions ahead of the branch, 1 the next -/
  | ahead (n : Nat)
  /-- where the label is bound -/
  | label (l : L)

/-- A line of code: over instructions `I`, conditions `C` and labels `L`.
Binding a label takes no place. -/
inductive Item (I C L : Type)
  | insn (i : I)
  | branch (c : C) (target : Target L)
  | bind (l : L)

/-- What the pass is doing: it skips so many instructions, and executes
when there are none left to skip, or it seeks a label. -/
inductive Going (L : Type)
  | skip (n : Nat)
  | seek (l : L)

/-- Executing. -/
abbrev Going.on {L : Type} : Going L := .skip 0

/-- On the way to a target. -/
def Target.going {L : Type} : Target L → Going L
  | .ahead n => .skip (n - 1)
  | .label l => .seek l

section
variable {I C L M : Type} [DecidableEq L]
variable (step : M → I → M) (holds : M → C → Bool)

/-- One line. -/
def line : Going L × M → Item I C L → Going L × M
  | (.skip 0, m), .insn i => (.on, step m i)
  | (.skip 0, m), .branch c target =>
      (if holds m c then target.going else .on, m)
  | (.skip n, m), .bind _ => (.skip n, m)
  | (.skip (n + 1), m), .insn _ => (.skip n, m)
  | (.skip (n + 1), m), .branch _ _ => (.skip n, m)
  | (.seek l, m), .bind l' => (if l = l' then .on else .seek l, m)
  | (.seek l, m), .insn _ => (.seek l, m)
  | (.seek l, m), .branch _ _ => (.seek l, m)

/-- The pass. -/
def exec (code : List (Item I C L)) (s : Going L × M) : Going L × M :=
  runCode (line step holds) code s

/-- What code leaves of a machine. -/
def run (code : List (Item I C L)) (m : M) : M :=
  (exec step holds code (.on, m)).2

-- ====================================================== line by line

variable {step holds}
variable {is : List (Item I C L)} {m : M} {n : Nat} {l l' : L}

@[simp] theorem exec_nil (s : Going L × M) :
    exec step holds [] s = s := (rfl)

@[simp] theorem exec_insn (i : I) :
    exec step holds (.insn i :: is) (.skip 0, m)
      = exec step holds is (.skip 0, step m i) := (rfl)

@[simp] theorem exec_branch (c : C) (target : Target L) :
    exec step holds (.branch c target :: is) (.skip 0, m)
      = exec step holds is
          (if holds m c then target.going else .skip 0, m) := (rfl)

@[simp] theorem exec_bind : exec step holds (.bind l :: is) (.skip n, m)
    = exec step holds is (.skip n, m) := by
  cases n <;> rfl

@[simp] theorem exec_skip_insn (i : I) :
    exec step holds (.insn i :: is) (.skip (n + 1), m)
      = exec step holds is (.skip n, m) := (rfl)

@[simp] theorem exec_skip_branch (c : C) (target : Target L) :
    exec step holds (.branch c target :: is) (.skip (n + 1), m)
      = exec step holds is (.skip n, m) := (rfl)

@[simp] theorem exec_seek_insn (i : I) :
    exec step holds (.insn i :: is) (.seek l, m)
      = exec step holds is (.seek l, m) := (rfl)

@[simp] theorem exec_seek_branch (c : C) (target : Target L) :
    exec step holds (.branch c target :: is) (.seek l, m)
      = exec step holds is (.seek l, m) := (rfl)

@[simp] theorem exec_seek_bind :
    exec step holds (.bind l' :: is) (.seek l, m)
      = exec step holds is (if l = l' then .skip 0 else .seek l, m) := (rfl)

/-- One piece of code after the other. -/
theorem exec_append (a b : List (Item I C L)) (s : Going L × M) :
    exec step holds (a ++ b) s
      = exec step holds b (exec step holds a s) :=
  runCode_append _ a b s

end

-- ======================================================= closed code

section
variable {I C L M : Type}

/-- How many instructions the code has. -/
def size : List (Item I C L) → Nat
  | [] => 0
  | .bind _ :: is => size is
  | _ :: is => size is + 1

/-- Two pieces of code have as many instructions as both. -/
theorem size_append (a b : List (Item I C L)) :
    size (a ++ b) = size a + size b := by
  induction a with
  | nil => exact (Nat.zero_add _).symm
  | cons i is ih =>
      cases i <;> simp only [List.cons_append, size, ih]
      all_goals omega

variable [DecidableEq L]
variable {step : M → I → M} {holds : M → C → Bool}

/-- The line binds the label. -/
def Item.binds (l : L) : Item I C L → Bool
  | .bind l' => l = l'
  | _ => false

/-- A target ahead of a branch, in the code behind it or at its end. -/
def Target.within (is : List (Item I C L)) : Target L → Bool
  | .ahead n => n ≤ size is + 1
  | .label l => is.any (Item.binds l)

/-- Every branch of the code has its target in it. -/
def closed : List (Item I C L) → Bool
  | [] => true
  | .branch _ target :: is => target.within is && closed is
  | _ :: is => closed is

/-- The pass is on its way to a place in the code. -/
def Going.Within (is : List (Item I C L)) : Going L → Prop
  | .skip n => n ≤ size is
  | .seek l => is.any (Item.binds l) = true

/-- A branch does not go beyond the end. -/
theorem Target.going_within {is : List (Item I C L)} {target : Target L}
    (h : target.within is = true) : target.going.Within is := by
  cases target with
  | ahead n =>
      have : n ≤ size is + 1 := of_decide_eq_true h
      show n - 1 ≤ size is
      omega
  | label l => exact h

/-- Closed code ends executing. -/
theorem exec_closed {is : List (Item I C L)} (hc : closed is = true)
    {g : Going L} (hg : g.Within is) (m : M) :
    exec step holds is (g, m) = (.on, (exec step holds is (g, m)).2) := by
  induction is generalizing g m with
  | nil =>
      cases g with
      | skip n =>
          have : n = 0 := Nat.le_zero.mp hg
          subst this
          rfl
      | seek l => cases hg
  | cons i is ih =>
      cases i with
      | insn i =>
          have hc' : closed is = true := hc
          cases g with
          | skip n =>
              cases n with
              | zero => exact ih hc' (Nat.zero_le _) _
              | succ n =>
                  have hn : n ≤ size is := Nat.le_of_succ_le_succ hg
                  exact ih hc' (g := .skip n) hn _
          | seek l => exact ih hc' (g := .seek l) hg _
      | branch c target =>
          obtain ⟨htarget, hc'⟩ := Bool.and_eq_true_iff.mp hc
          cases g with
          | skip n =>
              cases n with
              | zero =>
                  rw [exec_branch]
                  split
                  · exact ih hc' (Target.going_within htarget) _
                  · exact ih hc' (Nat.zero_le _) _
              | succ n =>
                  have hn : n ≤ size is := Nat.le_of_succ_le_succ hg
                  exact ih hc' (g := .skip n) hn _
          | seek l => exact ih hc' (g := .seek l) hg _
      | bind l' =>
          have hc' : closed is = true := hc
          cases g with
          | skip n =>
              rw [exec_bind]
              exact ih hc' (g := .skip n) hg _
          | seek l =>
              rw [exec_seek_bind]
              split
              · exact ih hc' (Nat.zero_le _) _
              · rename_i hne
                rcases Bool.or_eq_true_iff.mp hg with h | h
                · exact absurd (of_decide_eq_true h) hne
                · exact ih hc' (g := .seek l) h _

/-- Skipping all of the code ends behind it. -/
theorem exec_skip_size (is : List (Item I C L)) (n : Nat) (m : M) :
    exec step holds is (.skip (size is + n), m) = (.skip n, m) := by
  induction is with
  | nil => rw [size, Nat.zero_add, exec_nil]
  | cons i is ih =>
      cases i with
      | insn i =>
          show exec step holds _ (.skip (size is + 1 + n), m) = _
          rw [Nat.add_right_comm, exec_skip_insn, ih]
      | branch c target =>
          show exec step holds _ (.skip (size is + 1 + n), m) = _
          rw [Nat.add_right_comm, exec_skip_branch, ih]
      | bind l =>
          show exec step holds _ (.skip (size is + n), m) = _
          rw [exec_bind, ih]

/-- Closed code one after the other. -/
theorem closed_append {a b : List (Item I C L)} (ha : closed a = true)
    (hb : closed b = true) : closed (a ++ b) = true := by
  induction a with
  | nil => exact hb
  | cons i is ih =>
      cases i with
      | insn i => exact ih ha
      | bind l => exact ih ha
      | branch c target =>
          obtain ⟨htarget, his⟩ := Bool.and_eq_true_iff.mp ha
          refine Bool.and_eq_true_iff.mpr ⟨?_, ih his⟩
          cases target with
          | ahead n =>
              have hn : n ≤ size is + 1 := of_decide_eq_true htarget
              have hle : n ≤ size (is ++ b) + 1 := by
                rw [size_append]
                omega
              exact decide_eq_true hle
          | label l =>
              have hl : is.any (Item.binds l) = true := htarget
              show (is ++ b).any (Item.binds l) = true
              rw [List.any_append, hl, Bool.true_or]

/-- Behind closed code, execution goes on from its result. -/
theorem exec_append_closed {a b : List (Item I C L)}
    (ha : closed a = true) (m : M) :
    exec step holds (a ++ b) (.on, m)
      = exec step holds b (.on, run step holds a m) := by
  rw [exec_append, exec_closed ha (Nat.zero_le _)]
  rfl

/-- Behind closed code the next runs from what it leaves. -/
theorem run_append_closed {a b : List (Item I C L)}
    (ha : closed a = true) (m : M) :
    run step holds (a ++ b) m
      = run step holds b (run step holds a m) := by
  unfold run
  rw [exec_append_closed ha]
  rfl

/-- A label that code does not bind is sought beyond it. -/
theorem exec_seek {is : List (Item I C L)} {l : L}
    (h : is.any (Item.binds l) = false) (m : M) :
    exec step holds is (.seek l, m) = (.seek l, m) := by
  induction is with
  | nil => rfl
  | cons i is ih =>
      obtain ⟨hi, his⟩ := Bool.or_eq_false_iff.mp h
      cases i with
      | insn i => exact ih his
      | branch c target => exact ih his
      | bind l' =>
          rw [exec_seek_bind, if_neg (of_decide_eq_false hi)]
          exact ih his

-- ===================================================== what it keeps

/-- What every instruction keeps, code keeps. -/
theorem exec_keeps {α : Type} (f : M → α) {is : List (Item I C L)}
    (h : ∀ i, .insn i ∈ is → ∀ m, f (step m i) = f m)
    (s : Going L × M) : f (exec step holds is s).2 = f s.2 := by
  induction is generalizing s with
  | nil => rfl
  | cons i is ih =>
      have his : ∀ i, .insn i ∈ is → ∀ m, f (step m i) = f m :=
        fun i hi => h i (List.mem_cons_of_mem _ hi)
      obtain ⟨g, m⟩ := s
      cases i with
      | insn i =>
          rcases g with ⟨_ | n⟩ | l
          · rw [exec_insn, ih his]
            exact h i List.mem_cons_self m
          · exact ih his _
          · exact ih his _
      | branch c target => rcases g with ⟨_ | n⟩ | l <;> exact ih his _
      | bind l' => rcases g with ⟨_ | n⟩ | l <;> exact ih his _

/-- What no instruction changes is as it was. -/
theorem run_keeps {α : Type} (f : M → α) {is : List (Item I C L)}
    (h : ∀ i, .insn i ∈ is → ∀ m, f (step m i) = f m) (m : M) :
    f (run step holds is m) = f m :=
  exec_keeps f h (.on, m)

end

end X87Sidecar.Lib.Forward
