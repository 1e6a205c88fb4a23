/-
Code generators that carry a state.

An emitter turns the generator's state into another and appends code; the
code runs later, on a machine the generator never sees. What the two come
to together is the same as if each piece of code ran when it is emitted
(`Emit.run`), so that a long emitter is followed helper by helper.
-/
import Mathlib.Init

namespace X87Sidecar.Lib

variable {σ ι μ α : Type}

/-- An emitter over generator states `σ` and instructions `ι`. -/
abbrev Emit (σ ι : Type) := σ → σ × List ι

namespace Emit

/-- Emit nothing. -/
def skip : Emit σ ι := fun s => (s, [])

/-- Emit fixed code. -/
def code (is : List ι) : Emit σ ι := fun s => (s, is)

/-- Change the generator's state. -/
def modify (f : σ → σ) : Emit σ ι := fun s => (f s, [])

/-- Emit one after the other. -/
def seq (a b : Emit σ ι) : Emit σ ι := fun s =>
  ((b (a s).1).1, (a s).2 ++ (b (a s).1).2)

/-- Emit only in states that satisfy a test. -/
def when (p : σ → Bool) (a : Emit σ ι) : Emit σ ι := fun s =>
  if p s then a s else (s, [])

/-- Choose by a test. -/
def ite (p : σ → Bool) (a b : Emit σ ι) : Emit σ ι := fun s =>
  if p s then a s else b s

/-- Emit a list of emitters in order. -/
def all : List (Emit σ ι) → Emit σ ι
  | [] => skip
  | a :: rest => a.seq (all rest)

end Emit

-- ============================================== what an emitter keeps

namespace Emit

/-- The state after an emitter is related to the one before. -/
def Keeps (R : σ → σ → Prop) (e : Emit σ ι) : Prop := ∀ s, R s (e s).1

variable {R : σ → σ → Prop} {a b : Emit σ ι}

theorem Keeps.seq (htrans : ∀ {s t u}, R s t → R t u → R s u)
    (ha : a.Keeps R) (hb : b.Keeps R) : (a.seq b).Keeps R :=
  fun s => htrans (ha s) (hb (a s).1)

theorem Keeps.when (hrefl : ∀ s, R s s) {p : σ → Bool}
    (ha : a.Keeps R) : (Emit.when p a).Keeps R := by
  intro s
  unfold Emit.when
  split
  · exact ha s
  · exact hrefl s

theorem Keeps.ite {p : σ → Bool} (ha : a.Keeps R) (hb : b.Keeps R) :
    (Emit.ite p a b).Keeps R := by
  intro s
  unfold Emit.ite
  split
  · exact ha s
  · exact hb s

theorem Keeps.all (hrefl : ∀ s, R s s)
    (htrans : ∀ {s t u}, R s t → R t u → R s u) {l : List (Emit σ ι)}
    (hl : ∀ e ∈ l, e.Keeps R) : (Emit.all l).Keeps R := by
  induction l with
  | nil => exact hrefl
  | cons e l ih =>
      exact (hl e List.mem_cons_self).seq htrans
        (ih fun e he => hl e (List.mem_cons_of_mem _ he))

end Emit

/-- Run code. -/
def runCode (step : μ → ι → μ) (is : List ι) (m : μ) : μ :=
  is.foldl step m

@[simp] theorem runCode_nil (step : μ → ι → μ) (m : μ) :
    runCode step [] m = m := rfl

@[simp] theorem runCode_cons (step : μ → ι → μ) (i : ι) (is : List ι)
    (m : μ) : runCode step (i :: is) m = runCode step is (step m i) := rfl

@[simp] theorem runCode_append (step : μ → ι → μ) (a b : List ι) (m : μ) :
    runCode step (a ++ b) m = runCode step b (runCode step a m) :=
  List.foldl_append

-- ======================================================= emit and run

/-- The generator's state and the machine after an emitter, its code run
at once. -/
def Emit.run (step : μ → ι → μ) (e : Emit σ ι) (s : σ × μ) : σ × μ :=
  ((e s.1).1, runCode step (e s.1).2 s.2)

section
variable {step : μ → ι → μ}

@[simp] theorem Emit.run_skip (s : σ × μ) :
    (Emit.skip : Emit σ ι).run step s = s := rfl

@[simp] theorem Emit.run_modify (f : σ → σ) (s : σ × μ) :
    (Emit.modify f : Emit σ ι).run step s = (f s.1, s.2) := rfl

theorem Emit.run_seq (a b : Emit σ ι) (s : σ × μ) :
    (a.seq b).run step s = b.run step (a.run step s) := by
  show ((b (a s.1).1).1, runCode step ((a s.1).2 ++ _) s.2) = _
  rw [runCode_append]
  rfl

theorem Emit.run_all_cons (a : Emit σ ι) (l : List (Emit σ ι))
    (s : σ × μ) :
    (Emit.all (a :: l)).run step s
      = (Emit.all l).run step (a.run step s) :=
  Emit.run_seq a (Emit.all l) s

@[simp] theorem Emit.run_all_nil (s : σ × μ) :
    (Emit.all [] : Emit σ ι).run step s = s := rfl

theorem Emit.run_ite (p : σ → Bool) (a b : Emit σ ι) (s : σ × μ) :
    (Emit.ite p a b).run step s
      = if p s.1 then a.run step s else b.run step s := by
  unfold Emit.run Emit.ite
  split <;> rfl

theorem Emit.run_when (p : σ → Bool) (a : Emit σ ι) (s : σ × μ) :
    (Emit.when p a).run step s
      = if p s.1 then a.run step s else s := by
  unfold Emit.run Emit.when
  split <;> rfl

end

end X87Sidecar.Lib
