/-
Records as bytes: fields laid out least significant byte first, and
records of one length laid out one after another. Either way the bytes
give back what was laid out (`leBytes_inj`, `flatMap_inj`).
-/
import Mathlib.Data.BitVec
import Mathlib.Data.List.Forall2

namespace X87Sidecar.Lib.Record

/-- A field of `n` bytes, least significant first. -/
def leBytes {w : Nat} (n : Nat) (x : BitVec w) : List (BitVec 8) :=
  (List.range n).map fun k => x.extractLsb' (8 * k) 8

@[simp] theorem length_leBytes {w : Nat} (n : Nat) (x : BitVec w) :
    (leBytes n x).length = n := by
  simp [leBytes]

/-- A field's bytes give it back. -/
theorem leBytes_inj {w n : Nat} {x y : BitVec w} (hw : w ≤ 8 * n)
    (h : leBytes n x = leBytes n y) : x = y := by
  refine BitVec.eq_of_getLsbD_eq fun i hi => ?_
  have hk : i / 8 < n := by omega
  have hb := congrArg (·[i / 8]?) h
  simp only [leBytes, List.getElem?_map, List.getElem?_range hk,
    Option.map_some, Option.some_inj] at hb
  have hbit := congrArg (·.getLsbD (i % 8)) hb
  have hmod : i % 8 < 8 := Nat.mod_lt i (by omega)
  simpa [hmod, Nat.div_add_mod] using hbit

/-- Records of one length give their own bytes back. -/
theorem flatMap_inj {α β γ : Type} {f : α → List γ} {g : β → List γ}
    {n : Nat} (hn : 0 < n) (hf : ∀ a, (f a).length = n)
    (hg : ∀ b, (g b).length = n) {l : List α} {l' : List β} :
    l.flatMap f = l'.flatMap g
      ↔ List.Forall₂ (fun a b => f a = g b) l l' := by
  induction l generalizing l' with
  | nil =>
      cases l' with
      | nil => simp
      | cons b l' =>
          have hne : g b ≠ [] :=
            List.ne_nil_of_length_pos (by rw [hg]; exact hn)
          simp [hne]
  | cons a l ih =>
      cases l' with
      | nil =>
          have hne : f a ≠ [] :=
            List.ne_nil_of_length_pos (by rw [hf]; exact hn)
          simp [hne]
      | cons b l' =>
          rw [List.flatMap_cons, List.flatMap_cons, List.forall₂_cons, ← ih]
          constructor
          · intro h
            exact List.append_inj h (by rw [hf, hg])
          · rintro ⟨hhead, htail⟩
            rw [hhead, htail]

end X87Sidecar.Lib.Record
