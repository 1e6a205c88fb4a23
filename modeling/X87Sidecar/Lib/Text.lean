/-
Byte strings with a terminating NUL, laid out one after another, and the
library functions that read them: `std::search`, `strnlen`,
`std::from_chars`.

A read of a byte outside the buffer has no answer, so a reader that always
answers reads only inside. `render` lays strings out; `strnlen_render` is
how a reader finds the end of one of them again, and `fromChars_decimal`
reads a rendered number back.
-/
import Mathlib.Data.List.Infix
import Mathlib.Data.List.TakeWhile
import Mathlib.Data.Nat.Digits.Defs

namespace X87Sidecar.Lib.Text

/-- A buffer, or a string in it, by its bytes in order. -/
abbrev Str := List UInt8

/-- A string of one-byte characters. -/
def ascii (s : String) : Str := s.toList.map fun c => c.toNat.toUInt8

/-- The strings one after another, each with its NUL. -/
def render (strings : List Str) : Str := strings.flatMap (· ++ [0])

/-- A string that a NUL can end: it holds none itself. -/
def Clean (s : Str) : Prop := 0 ∉ s

instance (s : Str) : Decidable (Clean s) :=
  inferInstanceAs (Decidable (0 ∉ s))

theorem render_nil : render [] = [] := rfl

theorem render_cons (s : Str) (l : List Str) :
    render (s :: l) = s ++ 0 :: render l := by
  simp [render]

theorem render_append (l l' : List Str) :
    render (l ++ l') = render l ++ render l' := by
  simp [render]

theorem length_render_concat (l : List Str) (s : Str) :
    (render (l ++ [s])).length = (render l).length + s.length + 1 := by
  simp [render_append, render_cons, render_nil]
  omega

/-- Rendered strings end in a NUL. -/
theorem render_concat (l : List Str) (s : Str) :
    render (l ++ [s]) = render l ++ s ++ [0] := by
  simp [render_append, render_cons, render_nil]

-- ============================================================== searching

/-- The pattern stands in the buffer at an offset. -/
def OccursAt (pat data : Str) (i : Nat) : Prop := pat <+: data.drop i

instance (pat data : Str) (i : Nat) : Decidable (OccursAt pat data i) :=
  inferInstanceAs (Decidable (pat <+: data.drop i))

/-- `std::search` for a pattern from an offset on: its first occurrence. -/
def search (pat data : Str) (start : Nat) : Option Nat :=
  (List.range' start (data.length - start)).find? fun i =>
    OccursAt pat data i

/-- A pattern of some bytes only stands inside the buffer. -/
theorem OccursAt.lt {pat data : Str} {i : Nat} (hpat : pat ≠ [])
    (h : OccursAt pat data i) : i < data.length := by
  have hlen := h.length_le
  have hpos : 0 < pat.length := List.length_pos_of_ne_nil hpat
  rw [List.length_drop] at hlen
  omega

theorem search_eq_some {pat data : Str} {start i : Nat} (hpat : pat ≠ []) :
    search pat data start = some i
      ↔ start ≤ i ∧ OccursAt pat data i
        ∧ ∀ j, start ≤ j → j < i → ¬ OccursAt pat data j := by
  rw [search, List.find?_range'_eq_some]
  constructor
  · rintro ⟨hocc, hmem, hfirst⟩
    obtain ⟨hle, -⟩ := List.mem_range'_1.1 hmem
    exact ⟨hle, of_decide_eq_true hocc,
      fun j hj hji => by simpa using hfirst j hj hji⟩
  · rintro ⟨hle, hocc, hfirst⟩
    have hlt := hocc.lt hpat
    exact ⟨decide_eq_true hocc, List.mem_range'_1.2 ⟨hle, by omega⟩,
      fun j hj hji => by simpa using hfirst j hj hji⟩

theorem search_eq_none {pat data : Str} {start : Nat} (hpat : pat ≠ []) :
    search pat data start = none
      ↔ ∀ j, start ≤ j → ¬ OccursAt pat data j := by
  rw [search, List.find?_eq_none]
  constructor
  · intro h j hj hocc
    have hlt := hocc.lt hpat
    exact h j (List.mem_range'_1.2 ⟨hj, by omega⟩) (decide_eq_true hocc)
  · intro h j hmem hocc
    exact h j (List.mem_range'_1.1 hmem).1 (of_decide_eq_true hocc)

/-- A pattern stands exactly once: a first search finds it and a second
one behind it does not. -/
theorem search_once {pat data : Str} (hpat : pat ≠ []) {i : Nat} :
    (search pat data 0 = some i ∧ search pat data (i + 1) = none)
      ↔ OccursAt pat data i ∧ ∀ j, OccursAt pat data j → j = i := by
  rw [search_eq_some hpat, search_eq_none hpat]
  constructor
  · rintro ⟨⟨-, hocc, hbefore⟩, hafter⟩
    refine ⟨hocc, fun j hj => ?_⟩
    by_contra hne
    rcases Nat.lt_or_gt_of_ne hne with hlt | hgt
    · exact hbefore j (Nat.zero_le j) hlt hj
    · exact hafter j hgt hj
  · rintro ⟨hocc, honly⟩
    refine ⟨⟨Nat.zero_le i, hocc, fun j _ hji hj => ?_⟩,
      fun j hj hocc => ?_⟩
    · exact absurd (honly j hj) (Nat.ne_of_lt hji)
    · exact absurd (honly j hocc) (Nat.ne_of_gt hj)

-- ========================================================= bounded strings

/-- `strnlen`: how many of the `max` bytes from an offset come before the
first NUL. -/
def strnlen (data : Str) : (p max : Nat) → Option Nat
  | _, 0 => some 0
  | p, max + 1 => do
      let b ← data[p]?
      if b = 0 then return 0
      else return (← strnlen data (p + 1) max) + 1

/-- The `n` bytes from an offset, as a string. -/
def bytesAt (data : Str) (p n : Nat) : Option Str :=
  if p + n ≤ data.length then some ((data.drop p).take n) else none

/-- Inside the buffer `strnlen` answers, within its bound. -/
theorem strnlen_inside {data : Str} (p max : Nat)
    (h : p + max ≤ data.length) :
    ∃ n, strnlen data p max = some n ∧ n ≤ max := by
  induction max generalizing p with
  | zero => exact ⟨0, rfl, Nat.le_refl 0⟩
  | succ max ih =>
      have hlt : p < data.length := by omega
      obtain ⟨n, hn, hle⟩ := ih (p + 1) (by omega)
      rw [strnlen, List.getElem?_eq_getElem hlt]
      by_cases hb : data[p] = 0
      · exact ⟨0, by simp [hb], by omega⟩
      · exact ⟨n + 1, by simp [hb, hn], by omega⟩

theorem bytesAt_inside {data : Str} {p n : Nat}
    (h : p + n ≤ data.length) :
    bytesAt data p n = some ((data.drop p).take n) := if_pos h

/-- The length of a string that its NUL follows. -/
theorem strnlen_of_clean {data s rest : Str} (p max : Nat)
    (hs : Clean s) (h : data.drop p = s ++ 0 :: rest)
    (hmax : s.length < max) : strnlen data p max = some s.length := by
  have hget : ∀ i (c : UInt8) tail, data.drop i = c :: tail →
      data[i]? = some c ∧ data.drop (i + 1) = tail := by
    intro i c tail hd
    have hc := congrArg (·[0]?) hd
    rw [List.getElem?_drop] at hc
    refine ⟨hc, ?_⟩
    rw [← List.drop_drop, hd]
    rfl
  induction s generalizing p max with
  | nil =>
      obtain ⟨max, rfl⟩ := Nat.exists_eq_succ_of_ne_zero
        (Nat.ne_of_gt hmax)
      rw [strnlen, (hget p 0 rest h).1]
      rfl
  | cons c s ih =>
      obtain ⟨max, rfl⟩ := Nat.exists_eq_succ_of_ne_zero
        (Nat.ne_of_gt (Nat.zero_lt_of_lt hmax))
      obtain ⟨hc, hd⟩ := hget p c _ h
      have hne : c ≠ 0 := fun h0 => hs (h0 ▸ List.mem_cons_self)
      have hrec := ih (p + 1) max
        (fun hmem => hs (List.mem_cons_of_mem c hmem)) hd
        (Nat.lt_of_succ_lt_succ hmax)
      rw [strnlen, hc]
      simp [hne, hrec]

/-- The string at an offset. -/
theorem bytesAt_of_drop {data s rest : Str} {p : Nat}
    (h : data.drop p = s ++ rest) (hp : p ≤ data.length) :
    bytesAt data p s.length = some s := by
  have hlen := congrArg List.length h
  rw [List.length_drop, List.length_append] at hlen
  rw [bytesAt_inside (by omega), h, List.take_left]

-- ================================================================ numbers

/-- A decimal digit. -/
def isDigit (b : UInt8) : Bool := 48 ≤ b && b ≤ 57

/-- The value of a string of digits, the most significant first. -/
def digitsValue (s : Str) : Nat :=
  s.foldl (fun v b => v * 10 + (b.toNat - 48)) 0

/-- `std::from_chars` of a `std::uint32_t` in base ten: the value and
what follows its digits, or nothing when there is no digit or the value
does not fit. -/
def fromChars (s : Str) : Option (Nat × Str) :=
  let digits := s.takeWhile isDigit
  if digits = [] then none
  else if digitsValue digits < 2 ^ 32 then
    some (digitsValue digits, s.dropWhile isDigit)
  else none

/-- `std::to_string`. -/
def decimal (n : Nat) : Str :=
  if n = 0 then [48]
  else (Nat.digits 10 n).reverse.map fun d => (48 + d).toUInt8

theorem digit_byte {d : Nat} (hd : d < 10) :
    isDigit (48 + d).toUInt8 = true ∧ ((48 + d).toUInt8).toNat - 48 = d := by
  revert d
  decide +kernel

/-- A rendered number holds digits only, and their value is the number. -/
theorem decimal_digits (n : Nat) :
    (∀ b ∈ decimal n, isDigit b = true) ∧ digitsValue (decimal n) = n
      ∧ decimal n ≠ [] := by
  by_cases h0 : n = 0
  · subst h0
    exact ⟨by simp [decimal]; rfl, rfl, by simp [decimal]⟩
  have hval : ∀ l : List Nat, (∀ d ∈ l, d < 10) →
      digitsValue (l.reverse.map fun d => (48 + d).toUInt8)
        = Nat.ofDigits 10 l := by
    intro l hl
    induction l with
    | nil => rfl
    | cons d l ih =>
        have hd := hl d List.mem_cons_self
        have hrec := ih fun e he => hl e (List.mem_cons_of_mem d he)
        rw [digitsValue] at hrec
        rw [digitsValue, List.reverse_cons, List.map_append,
          List.foldl_append, hrec, Nat.ofDigits_cons]
        simp only [List.map_cons, List.map_nil, List.foldl_cons,
          List.foldl_nil, (digit_byte hd).2]
        omega
  have hlt : ∀ d ∈ Nat.digits 10 n, d < 10 :=
    fun d hd => Nat.digits_lt_base (by omega) hd
  rw [decimal, if_neg h0]
  refine ⟨fun b hb => ?_, ?_, ?_⟩
  · obtain ⟨d, hd, rfl⟩ := List.mem_map.1 hb
    exact (digit_byte (hlt d (List.mem_reverse.1 hd))).1
  · rw [hval _ hlt, Nat.ofDigits_digits]
  · simpa using Nat.digits_ne_nil_iff_ne_zero.2 h0

/-- A rendered number that fits is read back whole. -/
theorem fromChars_decimal {n : Nat} (hn : n < 2 ^ 32) :
    fromChars (decimal n) = some (n, []) := by
  obtain ⟨hdigits, hvalue, hne⟩ := decimal_digits n
  have htake : (decimal n).takeWhile isDigit = decimal n :=
    List.takeWhile_eq_self_iff.2 hdigits
  have hdrop : (decimal n).dropWhile isDigit = [] :=
    List.dropWhile_eq_nil_iff.2 hdigits
  simp only [fromChars, htake, hdrop, hne, hvalue, hn, if_false, if_true]

end X87Sidecar.Lib.Text
