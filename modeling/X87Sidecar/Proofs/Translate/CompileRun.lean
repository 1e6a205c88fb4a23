/-
How much of a run `compile_run` takes.

Each attempt is on a shorter prefix than the one before, a bridged region
is taken whole or not at all, and no attempt takes more than its prefix.
-/
import X87Sidecar.Proofs.Build.Wf
import X87Sidecar.Translate.CompileRun

namespace X87Sidecar

variable {p : Pressure} {opt : OptConfig} {mode : Build.BridgeMode}
  {bridged : Bool} {c : X87Cache} {run : List IRInstr}

/-- A retry is shorter. -/
theorem split_prefix_len_le (ctx : Context) (node : Option Nat)
    (len : Nat) : split_prefix_len ctx node len ≤ len - 1 := by
  unfold split_prefix_len
  split
  · split
    · omega
    · omega
  · omega

/-- The Context that an attempt on a length comes to. -/
def attempted (p : Pressure) (opt : OptConfig) (mode : Build.BridgeMode)
    (c : X87Cache) (run : List IRInstr) (len : Nat) : Context :=
  relieved p (withNativeDepths c (optimize opt (build mode (run.take len))))

theorem attempted_consumed (len : Nat) :
    (attempted p opt mode c run len).consumed
      = (build mode (run.take len)).consumed := by
  unfold attempted
  rw [relieved_consumed, withNativeDepths_consumed, optimize_consumed]

theorem attempted_le (len : Nat) :
    (attempted p opt mode c run len).consumed ≤ len := by
  rw [attempted_consumed]
  refine (build_consumed_le mode (run.take len)).trans ?_
  rw [List.length_take]
  exact Nat.min_le_left _ _

/-- An attempt that comes to something: the Context of this length, all of
it where the region is bridged, or of a shorter one with one retry less. -/
theorem compileAttempts_cases {retries len : Nat} {ctx : Context}
    (h : compileAttempts p opt mode bridged c run retries len
      = some ctx) :
    (ctx = attempted p opt mode c run len ∧ 2 ≤ ctx.consumed
        ∧ (bridged = true → ctx.consumed = len))
      ∨ bridged = false ∧ ∃ r next, retries = r + 1 ∧ 3 ≤ next
        ∧ next ≤ len - 1
        ∧ compileAttempts p opt mode bridged c run r next = some ctx := by
  have hshorter : ∀ (r : Nat) (node : Option Nat),
      (if p.split && !bridged && decide (3 ≤ split_prefix_len
            (attempted p opt mode c run len) node len) then
          compileAttempts p opt mode bridged c run r
            (split_prefix_len (attempted p opt mode c run len) node len)
        else none) = some ctx →
      bridged = false ∧ ∃ next, 3 ≤ next ∧ next ≤ len - 1
        ∧ compileAttempts p opt mode bridged c run r next = some ctx := by
    intro r node hs
    rw [Option.ite_none_right_eq_some] at hs
    obtain ⟨hcond, hs⟩ := hs
    simp only [Bool.and_eq_true, Bool.not_eq_true',
      decide_eq_true_iff] at hcond
    exact ⟨hcond.1.2, _, hcond.2, split_prefix_len_le _ _ _, hs⟩
  have hlast : (buildOk (build mode (run.take len)) = true ∧
      (bridged = true → (build mode (run.take len)).consumed = len)) →
      attempted p opt mode c run len = ctx →
      ctx = attempted p opt mode c run len ∧ 2 ≤ ctx.consumed
        ∧ (bridged = true → ctx.consumed = len) := by
    rintro ⟨hok, hwhole⟩ rfl
    rw [attempted_consumed]
    exact ⟨rfl, of_decide_eq_true hok, hwhole⟩
  unfold compileAttempts at h
  rw [Option.ite_none_left_eq_some] at h
  obtain ⟨hbuilt, h⟩ := h
  have hbuilt' : buildOk (build mode (run.take len)) = true ∧
      (bridged = true → (build mode (run.take len)).consumed = len) := by
    simpa using hbuilt
  cases retries with
  | zero =>
      dsimp only at h
      split at h
      · cases h
      · split at h
        · cases h
        · split at h
          · cases h
          · exact .inl (hlast hbuilt' (Option.some.inj h))
  | succ r =>
      dsimp only at h
      split at h
      · obtain ⟨hb, next, hnext⟩ := hshorter r _ h
        exact .inr ⟨hb, r, next, rfl, hnext⟩
      · split at h
        · cases h
        · split at h
          · obtain ⟨hb, next, hnext⟩ := hshorter r _ h
            exact .inr ⟨hb, r, next, rfl, hnext⟩
          · exact .inl (hlast hbuilt' (Option.some.inj h))

/-- No more is taken than asked for. -/
theorem compileAttempts_le {retries len : Nat} {ctx : Context}
    (h : compileAttempts p opt mode bridged c run retries len
      = some ctx) : ctx.consumed ≤ len := by
  induction retries generalizing len with
  | zero =>
      rcases compileAttempts_cases h with ⟨rfl, -, -⟩ | ⟨-, r, _, hr, -⟩
      · exact attempted_le len
      · cases hr
  | succ retries ih =>
      rcases compileAttempts_cases h with
        ⟨rfl, -, -⟩ | ⟨-, r, next, hr, -, hn, hnext⟩
      · exact attempted_le len
      · cases hr
        have hle := ih hnext
        omega

/-- What is taken is at least two instructions. -/
theorem two_le_compileAttempts {retries len : Nat} {ctx : Context}
    (h : compileAttempts p opt mode bridged c run retries len
      = some ctx) : 2 ≤ ctx.consumed := by
  induction retries generalizing len with
  | zero =>
      rcases compileAttempts_cases h with ⟨-, h2, -⟩ | ⟨-, r, _, hr, -⟩
      · exact h2
      · cases hr
  | succ retries ih =>
      rcases compileAttempts_cases h with
        ⟨-, h2, -⟩ | ⟨-, r, next, hr, -, -, hnext⟩
      · exact h2
      · cases hr
        exact ih hnext

/-- A bridged region is taken whole. -/
theorem compile_bridged {n : Nat} {ctx : Context}
    (h : compile_run p opt mode true c run n = some ctx) :
    ctx.consumed = n := by
  rcases compileAttempts_cases h with ⟨-, -, hwhole⟩ | ⟨hb, -⟩
  · exact hwhole rfl
  · cases hb

end X87Sidecar
