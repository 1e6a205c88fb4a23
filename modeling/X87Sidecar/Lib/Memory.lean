/-
Byte-addressed memory with little-endian accesses.

`load` and `store` at any width and any address width; addresses wrap.
The rules a caller needs are that a load reads nothing but its own bytes
(`load_congr`) and that a store changes nothing but its own bytes
(`store_of_le`), from which a load across a store that cannot overlap it
is unchanged (`load_store_of_disjoint`).
-/
import Mathlib.Data.BitVec

namespace X87Sidecar.Lib

/-- A memory of bytes addressed by `w`-bit words. -/
abbrev Mem (w : Nat) := BitVec w → BitVec 8

namespace Mem

variable {w : Nat}

/-- The `n` bytes from `a`, least significant first. -/
def load (m : Mem w) (a : BitVec w) : (n : Nat) → BitVec (8 * n)
  | 0 => 0
  | n + 1 => (load m (a + 1) n ++ m a : BitVec (8 * n + 8))

/-- How far `x` lies above `a`, going round at the top of the address
space. -/
def offset (a x : BitVec w) : Nat := (x - a).toNat

/-- The memory with the `n` bytes of `v` written from `a`. -/
def store (m : Mem w) (a : BitVec w) (n : Nat) (v : BitVec (8 * n)) :
    Mem w := fun x =>
  if offset a x < n then (v >>> (8 * offset a x)).setWidth 8 else m x

/-- A load reads only its own bytes. -/
theorem load_congr {m m' : Mem w} {a : BitVec w} {n : Nat}
    (h : ∀ i < n, m (a + BitVec.ofNat w i) = m' (a + BitVec.ofNat w i)) :
    m.load a n = m'.load a n := by
  induction n generalizing a with
  | zero => rfl
  | succ n ih =>
      have hhead : m a = m' a := by simpa using h 0 (Nat.succ_pos n)
      have htail : m.load (a + 1) n = m'.load (a + 1) n := by
        refine ih fun i hi => ?_
        have h1 := h (i + 1) (Nat.succ_lt_succ hi)
        have hshift : a + 1 + BitVec.ofNat w i
            = a + BitVec.ofNat w (i + 1) := by
          rw [Nat.add_comm i 1, BitVec.ofNat_add, ← BitVec.add_assoc]
          rfl
        rwa [hshift]
      simp only [load, hhead, htail]

/-- A store leaves every byte outside its range. -/
theorem store_of_le {m : Mem w} {a x : BitVec w} {n : Nat}
    {v : BitVec (8 * n)} (h : n ≤ offset a x) : m.store a n v x = m x := by
  unfold store
  rw [if_neg (Nat.not_lt.mpr h)]

/-- The bits of a load are those of its bytes. -/
theorem getLsbD_load (m : Mem w) (a : BitVec w) (n i : Nat) :
    (m.load a n).getLsbD i
      = (decide (i < 8 * n)
        && (m (a + BitVec.ofNat w (i / 8))).getLsbD (i % 8)) := by
  induction n generalizing a i with
  | zero => simp [load]
  | succ n ih =>
      have happend : (m.load a (n + 1)).getLsbD i
          = if i < 8 then (m a).getLsbD i
            else (m.load (a + 1) n).getLsbD (i - 8) :=
        BitVec.getLsbD_append
      rw [happend]
      by_cases hi : i < 8
      · rw [if_pos hi, Nat.div_eq_of_lt hi, Nat.mod_eq_of_lt hi,
          decide_eq_true (show i < 8 * (n + 1) by omega)]
        simp
      · have hdiv : i / 8 = (i - 8) / 8 + 1 := by omega
        have hmod : i % 8 = (i - 8) % 8 := by omega
        have haddr : a + BitVec.ofNat w (i / 8)
            = a + 1 + BitVec.ofNat w ((i - 8) / 8) := by
          rw [hdiv, Nat.add_comm, BitVec.ofNat_add, ← BitVec.add_assoc]
          rfl
        have hlt : decide (i < 8 * (n + 1)) = decide (i - 8 < 8 * n) := by
          apply decide_eq_decide.mpr
          omega
        rw [if_neg hi, ih, haddr, hmod, hlt]

/-- A byte of a store. -/
theorem store_apply {m : Mem w} {a : BitVec w} {n k : Nat}
    {v : BitVec (8 * n)} (hk : k < n) (hn : n ≤ 2 ^ w) :
    m.store a n v (a + BitVec.ofNat w k)
      = (v >>> (8 * k)).setWidth 8 := by
  have hoff : offset a (a + BitVec.ofNat w k) = k := by
    unfold offset
    rw [BitVec.add_comm, BitVec.add_sub_cancel, BitVec.toNat_ofNat]
    exact Nat.mod_eq_of_lt (by omega)
  unfold store
  rw [hoff, if_pos hk]

/-- What is loaded from where it was stored. -/
theorem load_store_self {m : Mem w} {a : BitVec w} {n : Nat}
    {v : BitVec (8 * n)} (hn : n ≤ 2 ^ w) :
    (m.store a n v).load a n = v := by
  apply BitVec.eq_of_getLsbD_eq
  intro i hi
  rw [getLsbD_load, decide_eq_true hi, Bool.true_and,
    store_apply (by omega) hn, BitVec.getLsbD_setWidth,
    BitVec.getLsbD_ushiftRight, decide_eq_true (by omega), Bool.true_and]
  congr 1
  omega

/-- No byte of `[b, b + k)` is a byte of `[a, a + n)`. -/
def Disjoint (a : BitVec w) (n : Nat) (b : BitVec w) (k : Nat) : Prop :=
  ∀ i < k, n ≤ offset a (b + BitVec.ofNat w i)

/-- A load is unchanged by a store that cannot overlap it. -/
theorem load_store_of_disjoint {m : Mem w} {a b : BitVec w} {n k : Nat}
    {v : BitVec (8 * n)} (h : Disjoint a n b k) :
    (m.store a n v).load b k = m.load b k :=
  load_congr fun i hi => store_of_le (h i hi)

/-- Ranges at offsets from one address that do not overlap. -/
theorem disjoint_offsets {a : BitVec w} {i j n k : Nat}
    (h : i + n ≤ j ∨ j + k ≤ i) (hi : i + n ≤ 2 ^ w) (hj : j + k ≤ 2 ^ w) :
    Disjoint (a + BitVec.ofNat w i) n (a + BitVec.ofNat w j) k := by
  intro t ht
  have hsub : a + BitVec.ofNat w j + BitVec.ofNat w t
      - (a + BitVec.ofNat w i)
      = BitVec.ofNat w (j + t) - BitVec.ofNat w i := by
    rw [BitVec.add_assoc, ← BitVec.ofNat_add]
    exact add_sub_add_left_eq_sub _ _ _
  unfold offset
  rw [hsub, BitVec.toNat_sub, BitVec.toNat_ofNat, BitVec.toNat_ofNat,
    Nat.mod_eq_of_lt (show j + t < 2 ^ w by omega)]
  rcases h with h | h
  · -- above
    have hle : i ≤ j + t := by omega
    rcases Nat.lt_or_ge i (2 ^ w) with hlt | hge
    · rw [Nat.mod_eq_of_lt hlt,
        show 2 ^ w - i + (j + t) = j + t - i + 2 ^ w by omega,
        Nat.add_mod_right, Nat.mod_eq_of_lt (by omega)]
      omega
    · omega
  · -- below, so far around
    rcases Nat.lt_or_ge i (2 ^ w) with hlt | hge
    · rw [Nat.mod_eq_of_lt hlt, Nat.mod_eq_of_lt (by omega)]
      omega
    · rw [show i = 2 ^ w by omega, Nat.mod_self, Nat.sub_zero,
        Nat.add_mod_left, Nat.mod_eq_of_lt (by omega)]
      omega

end Mem

end X87Sidecar.Lib
