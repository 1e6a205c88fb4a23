/-
Permuting an array in place, cycle by cycle.

A permutation is realised with one saved element: follow a cycle from its
leader, copy each element one step back, put the saved one down at the
end, and go on with the next leader not yet visited. The moves are data,
so that what performs them (a loop, or code emitted for later) is up to
the user.
-/
import Mathlib.Data.Fintype.Card
import Mathlib.Dynamics.PeriodicPts.Lemmas
import Mathlib.Logic.Function.Basic
import X87Sidecar.Lib.Emit

namespace X87Sidecar.Lib

variable {α β : Type} [DecidableEq α]

/-- One move of the rotation. -/
inductive Move (α : Type)
  /-- take an element out -/
  | save (i : α)
  /-- copy an element over another -/
  | copy (dst src : α)
  /-- put the saved element down -/
  | restore (dst : α)

/-- What a move does to an array and the saved element. -/
def Move.run (s : (α → β) × β) : Move α → (α → β) × β
  | .save i => (s.1, s.1 i)
  | .copy dst src => (Function.update s.1 dst (s.1 src), s.2)
  | .restore dst => (Function.update s.1 dst s.2, s.2)

/-- The rest of the cycle of `i` from `j` on, within `fuel` steps. -/
def rotate (perm : α → α) (i : α) : Nat → α → List (Move α)
  | 0, j => [.restore j]
  | fuel + 1, j =>
      if perm j = i then [.restore j]
      else .copy j (perm j) :: rotate perm i fuel (perm j)

/-- The elements that `rotate` visits. -/
def orbit (perm : α → α) (i : α) : Nat → α → List α
  | 0, j => [j]
  | fuel + 1, j =>
      if perm j = i then [j] else j :: orbit perm i fuel (perm j)

/-- The moves for the leaders in a list, but those visited already. -/
def cycleMoves (perm : α → α) (fuel : Nat) :
    List α → List α → List (Move α)
  | [], _ => []
  | i :: rest, visited =>
      if i ∈ visited ∨ perm i = i then cycleMoves perm fuel rest visited
      else
        .save i :: rotate perm i fuel i
          ++ cycleMoves perm fuel rest (orbit perm i fuel i ++ visited)

-- ============================================== one cycle, its elements

section
variable {perm : α → α} {i : α}

open Function (minimalPeriod)

omit [DecidableEq α] in
/-- On the cycle of `i`, the step after the last one is back at `i`. -/
theorem iterate_succ_eq_iff {k : Nat} (hk : k < minimalPeriod perm i) :
    perm (perm^[k] i) = i ↔ k + 1 = minimalPeriod perm i := by
  rw [← Function.iterate_succ_apply' perm k i]
  constructor
  · intro h
    have hle : minimalPeriod perm i ≤ k + 1 :=
      Function.IsPeriodicPt.minimalPeriod_le (Nat.succ_pos k) h
    omega
  · intro h
    show perm^[k + 1] i = i
    rw [h]
    exact Function.iterate_minimalPeriod

/-- With fuel for the rest of the cycle, `orbit` lists it. -/
theorem orbit_iterate {fuel k : Nat} (hk : k < minimalPeriod perm i)
    (hf : minimalPeriod perm i ≤ k + fuel + 1) :
    orbit perm i fuel (perm^[k] i)
      = (List.range' k (minimalPeriod perm i - k)).map
          fun n => perm^[n] i := by
  induction fuel generalizing k with
  | zero =>
      have hlast : minimalPeriod perm i - k = 1 := by omega
      rw [hlast]
      rfl
  | succ fuel ih =>
      unfold orbit
      by_cases h : k + 1 = minimalPeriod perm i
      · have hlast : minimalPeriod perm i - k = 1 := by omega
        rw [if_pos ((iterate_succ_eq_iff hk).mpr h), hlast]
        rfl
      · have hmore : minimalPeriod perm i - k
            = minimalPeriod perm i - (k + 1) + 1 := by omega
        rw [if_neg (fun he => h ((iterate_succ_eq_iff hk).mp he)), hmore,
          List.range'_succ, List.map_cons,
          ← Function.iterate_succ_apply' perm k i]
        rw [ih (by omega) (by omega)]

/-- An element is in the rest of the cycle if it is a later iterate. -/
theorem mem_orbit_iterate (fuel : Nat) {k : Nat}
    (hk : k < minimalPeriod perm i)
    (hf : minimalPeriod perm i ≤ k + fuel + 1) {x : α} :
    x ∈ orbit perm i fuel (perm^[k] i)
      ↔ ∃ n, k ≤ n ∧ n < minimalPeriod perm i ∧ perm^[n] i = x := by
  rw [orbit_iterate hk hf, List.mem_map]
  constructor
  · intro ⟨n, hn, he⟩
    rw [List.mem_range'_1] at hn
    exact ⟨n, hn.1, by omega, he⟩
  · intro ⟨n, hkn, hn, he⟩
    exact ⟨n, by rw [List.mem_range'_1]; omega, he⟩

/-- What is left of the cycle does not depend on the fuel. -/
theorem rotate_iterate {fuel more k : Nat}
    (hk : k < minimalPeriod perm i)
    (hf : minimalPeriod perm i ≤ k + fuel + 1) :
    rotate perm i (fuel + more) (perm^[k] i)
      = rotate perm i fuel (perm^[k] i) := by
  induction fuel generalizing k with
  | zero =>
      have hback : perm (perm^[k] i) = i :=
        (iterate_succ_eq_iff hk).mpr (by omega)
      cases more with
      | zero => rfl
      | succ more =>
          rw [Nat.zero_add]
          unfold rotate
          rw [if_pos hback]
  | succ fuel ih =>
      rw [Nat.succ_add_eq_add_succ, Nat.add_succ]
      unfold rotate
      by_cases h : perm (perm^[k] i) = i
      · rw [if_pos h, if_pos h]
      · have hne : k + 1 ≠ minimalPeriod perm i := fun he =>
          h ((iterate_succ_eq_iff hk).mpr he)
        rw [if_neg h, if_neg h, ← Function.iterate_succ_apply' perm k i,
          ih (by omega) (by omega)]

end

-- ============================================ what rotating one cycle does

section
variable {perm : α → α} {i : α} {fuel : Nat}

open Function (minimalPeriod)

/-- The last element of the cycle takes the saved one. -/
theorem restore_run {j : α} (hback : perm j = i) (a : α → β) (v : β)
    (x : α) :
    Function.update a j v x
      = if x ∈ [j] then if perm x = i then v else a (perm x) else a x := by
  by_cases hx : x = j
  · rw [hx, Function.update_self, if_pos (List.mem_singleton_self j),
      if_pos hback]
  · rw [Function.update_of_ne hx, if_neg]
    intro hin
    exact hx (List.mem_singleton.mp hin)

/-- Rotating from the `k`-th element on: each element of the rest takes
its successor's content, the last one the saved element. -/
theorem rotate_run (fuel : Nat) {k : Nat} (hk : k < minimalPeriod perm i)
    (hf : minimalPeriod perm i ≤ k + fuel + 1) (a : α → β) (v : β)
    (x : α) :
    (runCode Move.run (rotate perm i fuel (perm^[k] i)) (a, v)).1 x
      = if x ∈ orbit perm i fuel (perm^[k] i) then
          if perm x = i then v else a (perm x)
        else a x := by
  induction fuel generalizing k a with
  | zero => exact restore_run ((iterate_succ_eq_iff hk).mpr (by omega)) a v x
  | succ fuel ih =>
      unfold rotate orbit
      by_cases hlast : perm (perm^[k] i) = i
      · rw [if_pos hlast, if_pos hlast]
        exact restore_run hlast a v x
      · have hk' : k + 1 < minimalPeriod perm i := by
          have hne : k + 1 ≠ minimalPeriod perm i := fun he =>
            hlast ((iterate_succ_eq_iff hk).mpr he)
          omega
        have hnext : perm (perm^[k] i) = perm^[k + 1] i :=
          (Function.iterate_succ_apply' perm k i).symm
        -- no later element of the cycle is the one just written
        have hdist : ∀ n, k < n → n < minimalPeriod perm i →
            perm^[n] i ≠ perm^[k] i := by
          intro n hkn hn he
          have := (Function.iterate_eq_iterate_iff_of_lt_minimalPeriod
            hn hk).mp he
          omega
        rw [if_neg hlast, if_neg hlast, runCode_cons, hnext]
        show (runCode Move.run (rotate perm i fuel (perm^[k + 1] i))
          (Function.update a (perm^[k] i) (a (perm^[k + 1] i)), v)).1 x = _
        rw [ih hk' (by omega)]
        have hmem := mem_orbit_iterate (x := x) fuel hk' (by omega)
        by_cases hx : x = perm^[k] i
        · have hnot : x ∉ orbit perm i fuel (perm^[k + 1] i) := by
            rw [hmem]
            intro ⟨n, hkn, hn, he⟩
            exact hdist n (by omega) hn (he.trans hx)
          rw [if_neg hnot, hx, Function.update_self, hnext,
            if_pos List.mem_cons_self, if_neg (by rw [← hnext]; exact hlast)]
        · rw [Function.update_of_ne hx]
          by_cases hrest : x ∈ orbit perm i fuel (perm^[k + 1] i)
          · rw [if_pos hrest, if_pos (List.mem_cons_of_mem _ hrest)]
            by_cases hb : perm x = i
            · rw [if_pos hb, if_pos hb]
            · obtain ⟨n, hkn, hn, he⟩ := hmem.mp hrest
              have hn' : n + 1 ≠ minimalPeriod perm i := fun hl =>
                hb (by rw [← he]; exact (iterate_succ_eq_iff hn).mpr hl)
              rw [if_neg hb, if_neg hb, Function.update_of_ne]
              rw [← he, ← Function.iterate_succ_apply' perm n i]
              exact hdist (n + 1) (by omega) (by omega)
          · rw [if_neg hrest, if_neg]
            intro hin
            rcases List.mem_cons.mp hin with hin | hin
            · exact hx hin
            · exact hrest hin

end

-- ================================================= the whole permutation

section
variable [Fintype α] {perm : α → α} {i : α} {fuel : Nat}

open Function (minimalPeriod)

omit [DecidableEq α] in
theorem minimalPeriod_pos (hinj : Function.Injective perm) (i : α) :
    0 < minimalPeriod perm i :=
  Function.minimalPeriod_pos_of_mem_periodicPts (hinj.mem_periodicPts i)

/-- The elements of `i`'s cycle are its iterates. -/
theorem mem_orbit (hinj : Function.Injective perm)
    (hf : Fintype.card α ≤ fuel + 1) {x : α} :
    x ∈ orbit perm i fuel i ↔ ∃ n < minimalPeriod perm i, perm^[n] i = x := by
  have hcard := Function.minimalPeriod_le_card (f := perm) (x := i)
  have hiff := mem_orbit_iterate (k := 0) (x := x) fuel
    (minimalPeriod_pos hinj i) (by omega)
  refine hiff.trans ⟨?_, ?_⟩
  · intro ⟨n, _, hn, he⟩
    exact ⟨n, hn, he⟩
  · intro ⟨n, hn, he⟩
    exact ⟨n, Nat.zero_le n, hn, he⟩

/-- A cycle is closed in both directions. -/
theorem perm_mem_orbit (hinj : Function.Injective perm)
    (hf : Fintype.card α ≤ fuel + 1) {x : α} :
    perm x ∈ orbit perm i fuel i ↔ x ∈ orbit perm i fuel i := by
  have hpos := minimalPeriod_pos hinj i
  rw [mem_orbit hinj hf, mem_orbit hinj hf]
  constructor
  · intro ⟨n, hn, he⟩
    cases n with
    | zero =>
        refine ⟨minimalPeriod perm i - 1, by omega, hinj ?_⟩
        have hback : perm (perm^[minimalPeriod perm i - 1] i) = i :=
          (iterate_succ_eq_iff (by omega)).mpr (by omega)
        exact hback.trans he
    | succ n =>
        refine ⟨n, by omega, hinj ?_⟩
        rw [← he, Function.iterate_succ_apply' perm n i]
  · intro ⟨n, hn, he⟩
    by_cases hlast : n + 1 = minimalPeriod perm i
    · refine ⟨0, hpos, ?_⟩
      rw [← he, (iterate_succ_eq_iff hn).mpr hlast]
      rfl
    · refine ⟨n + 1, by omega, ?_⟩
      rw [Function.iterate_succ_apply' perm n i, he]

/-- Saving the leader and rotating its cycle: each element of the cycle
takes its successor's content, everything else stays. -/
theorem save_rotate_run (hinj : Function.Injective perm)
    (hf : Fintype.card α ≤ fuel + 1) (s : (α → β) × β) (x : α) :
    (runCode Move.run (.save i :: rotate perm i fuel i) s).1 x
      = if x ∈ orbit perm i fuel i then s.1 (perm x) else s.1 x := by
  have hcard := Function.minimalPeriod_le_card (f := perm) (x := i)
  have hrun := rotate_run (k := 0) fuel
    (minimalPeriod_pos hinj i) (by omega) s.1 (s.1 i) x
  refine Eq.trans hrun ?_
  by_cases hx : perm x = i
  · rw [if_pos hx, hx]
    rfl
  · rw [if_neg hx]
    rfl

/-- The elements visited so far are done, the others are as they were. -/
structure Rotated (perm : α → α) (f : α → β) (visited : List α)
    (a : α → β) : Prop where
  closed : ∀ x, perm x ∈ visited ↔ x ∈ visited
  content : ∀ x, a x = if x ∈ visited then f (perm x) else f x

omit [Fintype α] in
/-- Nothing is done at the start. -/
theorem Rotated.nil (f : α → β) : Rotated perm f [] f where
  closed x := by simp
  content x := by simp

/-- Rotating one more cycle. -/
theorem Rotated.rotate {f : α → β} {visited : List α} {s : (α → β) × β}
    (h : Rotated perm f visited s.1) (hinj : Function.Injective perm)
    (hf : Fintype.card α ≤ fuel + 1) (hi : i ∉ visited) :
    Rotated perm f (orbit perm i fuel i ++ visited)
      (runCode Move.run (.save i :: Lib.rotate perm i fuel i) s).1 where
  closed x := by
    rw [List.mem_append, List.mem_append, perm_mem_orbit hinj hf, h.closed]
  content x := by
    rw [save_rotate_run hinj hf]
    -- a cycle not led into yet has none of its elements visited
    have hiter : ∀ n, perm^[n] i ∉ visited := by
      intro n
      induction n with
      | zero => exact hi
      | succ n ih =>
          rw [Function.iterate_succ_apply' perm n i, h.closed]
          exact ih
    by_cases hx : x ∈ orbit perm i fuel i
    · have hx' := (perm_mem_orbit hinj hf).mpr hx
      obtain ⟨n, -, he⟩ := (mem_orbit hinj hf).mp hx'
      rw [if_pos hx, if_pos (List.mem_append_left _ hx), h.content, if_neg]
      rw [← he]
      exact hiter n
    · rw [if_neg hx, h.content]
      by_cases hv : x ∈ visited
      · rw [if_pos hv, if_pos (List.mem_append_right _ hv)]
      · rw [if_neg hv, if_neg]
        intro hmem
        rcases List.mem_append.mp hmem with hmem | hmem
        · exact hx hmem
        · exact hv hmem

/-- After all leaders, each of them has been visited or is fixed. -/
theorem Rotated.cycleMoves (hinj : Function.Injective perm)
    (hf : Fintype.card α ≤ fuel + 1) {f : α → β} (leaders : List α)
    {visited : List α} {s : (α → β) × β} (h : Rotated perm f visited s.1) :
    ∃ visited', Rotated perm f visited'
        (runCode Move.run (Lib.cycleMoves perm fuel leaders visited) s).1
      ∧ visited ⊆ visited'
      ∧ ∀ l ∈ leaders, l ∈ visited' ∨ perm l = l := by
  induction leaders generalizing visited s with
  | nil => exact ⟨visited, h, List.Subset.refl _, by simp⟩
  | cons l rest ih =>
      unfold Lib.cycleMoves
      by_cases hskip : l ∈ visited ∨ perm l = l
      · rw [if_pos hskip]
        obtain ⟨visited', hr, hsub, hall⟩ := ih h
        refine ⟨visited', hr, hsub, ?_⟩
        intro x hx
        rcases List.mem_cons.mp hx with rfl | hx
        · exact hskip.imp_left (hsub ·)
        · exact hall x hx
      · rw [if_neg hskip, runCode_append]
        obtain ⟨visited', hr, hsub, hall⟩ :=
          ih (h.rotate hinj hf fun hm => hskip (.inl hm))
        refine ⟨visited', hr, fun x hx =>
          hsub (List.mem_append_right _ hx), ?_⟩
        intro x hx
        rcases List.mem_cons.mp hx with rfl | hx
        · left
          apply hsub
          apply List.mem_append_left
          rw [mem_orbit hinj hf]
          exact ⟨0, minimalPeriod_pos hinj x, rfl⟩
        · exact hall x hx

/-- With every element a leader the moves realise the permutation. -/
theorem cycleMoves_run (hinj : Function.Injective perm)
    (hf : Fintype.card α ≤ fuel + 1) {leaders : List α}
    (hall : ∀ x, x ∈ leaders) (s : (α → β) × β) (x : α) :
    (runCode Move.run (cycleMoves perm fuel leaders []) s).1 x
      = s.1 (perm x) := by
  obtain ⟨visited, hr, -, hdone⟩ :=
    Rotated.cycleMoves hinj hf leaders (s := s) (Rotated.nil s.1)
  rw [hr.content]
  rcases hdone x (hall x) with hv | hfix
  · rw [if_pos hv]
  · rw [hfix, ite_self]

/-- More fuel changes nothing: every cycle is followed to its end. -/
theorem cycleMoves_fuel (hinj : Function.Injective perm)
    (hf : Fintype.card α ≤ fuel + 1) (more : Nat)
    (leaders visited : List α) :
    cycleMoves perm (fuel + more) leaders visited
      = cycleMoves perm fuel leaders visited := by
  have hrot : ∀ l, rotate perm l (fuel + more) l = rotate perm l fuel l := by
    intro l
    have hcard := Function.minimalPeriod_le_card (f := perm) (x := l)
    exact rotate_iterate (k := 0) (minimalPeriod_pos hinj l) (by omega)
  have horb : ∀ l, orbit perm l (fuel + more) l = orbit perm l fuel l := by
    intro l
    have hcard := Function.minimalPeriod_le_card (f := perm) (x := l)
    have hpos := minimalPeriod_pos hinj l
    exact (orbit_iterate (k := 0) hpos (by omega)).trans
      (orbit_iterate (k := 0) hpos (by omega)).symm
  induction leaders generalizing visited with
  | nil => rfl
  | cons l rest ih =>
      unfold cycleMoves
      rw [hrot, horb, ih, ih]

end

-- ==================================================== what a move writes

/-- The element a move writes. -/
def Move.target : Move α → Option α
  | .save _ => none
  | .copy dst _ => some dst
  | .restore dst => some dst

/-- A rotation that starts at a moved element writes moved elements. -/
theorem target_rotate {perm : α → α} (hinj : Function.Injective perm)
    {i j : α} {fuel : Nat} (hj : perm j ≠ j) {mv : Move α}
    (hmv : mv ∈ rotate perm i fuel j) {x : α} (hx : mv.target = some x) :
    perm x ≠ x := by
  induction fuel generalizing j with
  | zero =>
      rw [List.mem_singleton.mp hmv] at hx
      rw [← Option.some.inj hx]
      exact hj
  | succ fuel ih =>
      unfold rotate at hmv
      by_cases h : perm j = i
      · rw [if_pos h] at hmv
        rw [List.mem_singleton.mp hmv] at hx
        rw [← Option.some.inj hx]
        exact hj
      · rw [if_neg h] at hmv
        rcases List.mem_cons.mp hmv with rfl | hmv
        · rw [← Option.some.inj hx]
          exact hj
        · exact ih (fun he => hj (hinj he)) hmv

/-- No move writes a fixed element. -/
theorem target_cycleMoves {perm : α → α} (hinj : Function.Injective perm)
    {fuel : Nat} {leaders visited : List α} {mv : Move α}
    (hmv : mv ∈ cycleMoves perm fuel leaders visited) {x : α}
    (hx : mv.target = some x) : perm x ≠ x := by
  induction leaders generalizing visited with
  | nil => simp [cycleMoves] at hmv
  | cons l rest ih =>
      unfold cycleMoves at hmv
      by_cases hskip : l ∈ visited ∨ perm l = l
      · rw [if_pos hskip] at hmv
        exact ih hmv
      · rw [if_neg hskip] at hmv
        rcases List.mem_append.mp hmv with hmv | hmv
        · rcases List.mem_cons.mp hmv with rfl | hmv
          · simp [Move.target] at hx
          · exact target_rotate hinj (fun he => hskip (.inr he)) hmv hx
        · exact ih hmv

end X87Sidecar.Lib
