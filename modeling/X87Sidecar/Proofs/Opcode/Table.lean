/-
What the parse of the opcode table reads and recovers.

Every loop answers on every section (`tableNames_inside`,
`tableBound_inside`), so no byte outside is read. On a section of
rendered strings the names are the strings from the anchor on
(`tableNames_render`), and the walk back sees the strings ahead of it one
by one (`tableBound_concat`).
-/
import X87Sidecar.Opcode.Table
import Mathlib.Data.List.Chain

namespace X87Sidecar.Opcodes

open Lib.Text

-- =================================================== inside the section

theorem kTableHead_ne_nil : kTableHead ≠ [] := List.cons_ne_nil _ _

/-- The names are read inside the section. -/
theorem tableNames_inside (data : Str) (room p : Nat) :
    ∃ names, tableNames data room p = some names := by
  induction room generalizing p with
  | zero => exact ⟨[], rfl⟩
  | succ room ih =>
      by_cases hp : p < data.length
      · obtain ⟨n, hn, hle⟩ :=
          @strnlen_inside data p (data.length - p) (by omega)
        by_cases h0 : n = 0
        · exact ⟨[], by simp [tableNames, hp, hn, h0]⟩
        · obtain ⟨names, hnames⟩ := ih (p + n + 1)
          have hs := @bytesAt_inside data p n (by omega)
          exact ⟨(data.drop p).take n :: names, by
            simp [tableNames, hp, hn, h0, hs, hnames]⟩
      · exact ⟨[], by simp [tableNames, hp]⟩

/-- A string ends behind where it begins. -/
theorem stringBegin_inside {data : Str} (strEnd : Nat)
    (h : strEnd ≤ data.length) :
    ∃ b, stringBegin data strEnd = some b ∧ b ≤ strEnd := by
  induction strEnd with
  | zero => exact ⟨0, rfl, Nat.le_refl 0⟩
  | succ strEnd ih =>
      have hlt : strEnd < data.length := by omega
      obtain ⟨b, hb, hle⟩ := ih (by omega)
      rw [stringBegin, List.getElem?_eq_getElem hlt]
      by_cases h0 : data[strEnd] = 0
      · exact ⟨strEnd + 1, by simp [h0], Nat.le_refl _⟩
      · exact ⟨b, by simp [h0, hb], by omega⟩

theorem stringBefore_inside {data : Str} {strEnd : Nat}
    (h : strEnd ≤ data.length) :
    ∃ b s, stringBefore data strEnd = some (b, s) ∧ b ≤ strEnd := by
  obtain ⟨b, hb, hle⟩ := stringBegin_inside strEnd h
  have hs := @bytesAt_inside data b (strEnd - b) (by omega)
  exact ⟨b, (data.drop b).take (strEnd - b), by
    simp [stringBefore, hb, hs], hle⟩

/-- The bound is looked for inside the section. -/
theorem tableBound_inside {data : Str} (back strEnd : Nat)
    (h : strEnd ≤ data.length) :
    ∃ count, tableBound data back strEnd = some count := by
  induction back generalizing strEnd with
  | zero => exact ⟨0, rfl⟩
  | succ back ih =>
      by_cases hend : 0 < strEnd
      · obtain ⟨b, prev, hprev, hle⟩ := stringBefore_inside h
        obtain ⟨count, hcount⟩ := ih (b - 1) (by omega)
        obtain ⟨b', s, hs, -⟩ :=
          @stringBefore_inside data (b - 1) (by omega)
        by_cases hpre : kBoundPrefix <+: prev ∧ 0 < b
        · by_cases hstr : s = opcodeToString
          · exact ⟨boundCount prev, by
              simp [tableBound, hend, hprev, hpre, hs, hstr]⟩
          · have h0 : b ≠ 0 := Nat.ne_of_gt hpre.2
            exact ⟨count, by
              simp [tableBound, hend, hprev, hpre, hs, hstr, h0, hcount]⟩
        · by_cases h0 : b = 0
          · exact ⟨0, by simp [tableBound, hend, hprev, h0]⟩
          · exact ⟨count, by
              simp [tableBound, hend, hprev, hpre, h0, hcount]⟩
      · exact ⟨0, by simp [tableBound, hend]⟩

/-- The parse answers on every section, with nothing unless the head
stands in it exactly once. -/
theorem parseOpcodeTable_inside (data : Str) :
    ∃ table, parseOpcodeTable data = some table
      ∧ ((¬ ∃! i, OccursAt kTableHead data i) → table = {}) := by
  rcases hhead : search kTableHead data 0 with _ | head
  · exact ⟨{}, by simp [parseOpcodeTable, hhead], fun _ => rfl⟩
  rcases hnext : search kTableHead data (head + 1) with _ | next
  · have honce := (search_once kTableHead_ne_nil).1 ⟨hhead, hnext⟩
    have hlt := honce.1.lt kTableHead_ne_nil
    obtain ⟨names, hnames⟩ := tableNames_inside data kMaxNames (head + 1)
    obtain ⟨count, hcount⟩ :=
      @tableBound_inside data 4 head (Nat.le_of_lt hlt)
    by_cases hcut : count ≠ 0 ∧ names.length > count
    · exact ⟨{ names := names.take count, count }, by
        simp [parseOpcodeTable, hhead, hnext, hnames, hcount, hcut],
        fun hnot => absurd ⟨head, honce⟩ hnot⟩
    · exact ⟨{ names, count }, by
        simp [parseOpcodeTable, hhead, hnext, hnames, hcount, hcut],
        fun hnot => absurd ⟨head, honce⟩ hnot⟩
  · exact ⟨{}, by simp [parseOpcodeTable, hhead, hnext], fun _ => rfl⟩

-- ===================================================== rendered sections

/-- The names read are the strings from there on, up to an empty one and
the cap. -/
theorem tableNames_render {data : Str} {l : List Str} (room p : Nat)
    (hclean : ∀ s ∈ l, Clean s) (hp : p ≤ data.length)
    (h : data.drop p = render l) :
    tableNames data room p
      = some ((l.takeWhile fun s => s ≠ []).take room) := by
  induction room generalizing p l with
  | zero => rfl
  | succ room ih =>
      cases l with
      | nil =>
          have hlen := congrArg List.length h
          rw [List.length_drop, render_nil, List.length_nil] at hlen
          have hge : ¬ p < data.length := by omega
          simp [tableNames, hge]
      | cons s l =>
          rw [render_cons] at h
          have hlen := congrArg List.length h
          simp only [List.length_drop, List.length_append,
            List.length_cons] at hlen
          have hlt : p < data.length := by omega
          have hn := strnlen_of_clean p (data.length - p)
            (hclean s List.mem_cons_self) h (by omega)
          cases s with
          | nil => simp [tableNames, hlt, hn]
          | cons c s =>
              have hs := bytesAt_of_drop h hp
              have hnext : data.drop (p + (c :: s).length + 1)
                  = render l := by
                rw [Nat.add_assoc, ← List.drop_drop, h]
                simp
              have hrest := ih (p + (c :: s).length + 1)
                (fun t ht => hclean t (List.mem_cons_of_mem _ ht))
                (by omega) hnext
              simp only [List.length_cons] at hn hs hrest
              simp [tableNames, hlt, hn, hs, hrest]

/-- The string that ends at the NUL of a rendered one. -/
theorem stringBefore_concat {data rest : Str} {l : List Str} {s : Str}
    (hs : Clean s) (h : data = render (l ++ [s]) ++ rest) :
    stringBefore data ((render (l ++ [s])).length - 1)
      = some ((render l).length, s) := by
  have hdata : data = render l ++ (s ++ 0 :: rest) := by
    rw [h, render_concat]
    simp
  have hbegin : ∀ k, k ≤ s.length →
      stringBegin data ((render l).length + k)
        = some (render l).length := by
    intro k hk
    induction k with
    | zero =>
        rcases List.eq_nil_or_concat l with rfl | ⟨l', t, rfl⟩
        · rfl
        · rw [List.concat_eq_append] at hdata ⊢
          have hlast : data[(render l').length + t.length]? = some 0 := by
            rw [hdata, render_concat, List.append_assoc,
              ← List.length_append, List.getElem?_append_right
                (Nat.le_refl _)]
            simp
          rw [length_render_concat, Nat.add_zero, stringBegin, hlast]
          rfl
    | succ k ih =>
        have hget : data[(render l).length + k]? = s[k]? := by
          rw [hdata, List.getElem?_append_right (by omega),
            Nat.add_sub_cancel_left,
            List.getElem?_append_left (by omega)]
        have hlt : k < s.length := hk
        have hne : s[k] ≠ 0 := fun h0 =>
          hs (h0 ▸ List.getElem_mem hlt)
        rw [← Nat.add_assoc, stringBegin, hget,
          List.getElem?_eq_getElem hlt]
        simp [hne, ih (by omega)]
  have hend : (render (l ++ [s])).length - 1
      = (render l).length + s.length := by
    rw [length_render_concat]
    omega
  have hdrop : data.drop (render l).length = s ++ 0 :: rest := by
    rw [hdata, List.drop_left]
  have hle : (render l).length ≤ data.length := by
    rw [hdata, List.length_append]
    omega
  rw [hend, stringBefore, hbegin s.length (Nat.le_refl _)]
  simp [bytesAt_of_drop hdrop hle]

/-- One step of the walk back: the string ahead is the bound if it is an
assert's and follows `opcode_to_string`, and is passed otherwise. -/
theorem tableBound_concat {data rest : Str} {l : List Str} {t s : Str}
    (ht : Clean t) (hs : Clean s)
    (h : data = render (l ++ [t] ++ [s]) ++ rest) (back : Nat) :
    tableBound data (back + 1) ((render (l ++ [t] ++ [s])).length - 1)
      = if t = opcodeToString ∧ kBoundPrefix <+: s then
          some (boundCount s)
        else tableBound data back ((render (l ++ [t])).length - 1) := by
  have hprev := stringBefore_concat hs h
  have hdata : data = render (l ++ [t]) ++ (s ++ 0 :: rest) := by
    rw [h, render_concat (l ++ [t])]
    simp
  have hahead := stringBefore_concat ht hdata
  have hpos : 0 < (render (l ++ [t])).length := by
    rw [length_render_concat]
    omega
  have hend : 0 < (render (l ++ [t] ++ [s])).length - 1 := by
    rw [length_render_concat]
    omega
  have h0 : (render (l ++ [t])).length ≠ 0 := Nat.ne_of_gt hpos
  by_cases hpre : kBoundPrefix <+: s
  · by_cases hstr : t = opcodeToString
    · subst hstr
      rw [if_pos ⟨rfl, hpre⟩, tableBound, if_pos hend, hprev]
      simp [hpre, hpos, hahead]
    · rw [if_neg fun hc => hstr hc.1, tableBound, if_pos hend, hprev]
      simp [hpre, hpos, hahead, hstr, h0]
  · rw [if_neg fun hc => hpre hc.2, tableBound, if_pos hend, hprev]
    simp [hpre, h0]

/-- The walk back from the table to the assert's string, over strings
none of which is such a bound itself. -/
theorem tableBound_render {data rest : Str} {l between : List Str}
    {s : Str} {back : Nat}
    (hclean : ∀ t ∈ l ++ [opcodeToString, s] ++ between, Clean t)
    (hs : kBoundPrefix <+: s)
    (hother : (s :: between).IsChain fun t u =>
      ¬ (t = opcodeToString ∧ kBoundPrefix <+: u))
    (hback : between.length < back)
    (h : data = render (l ++ [opcodeToString, s] ++ between) ++ rest) :
    tableBound data back
        ((render (l ++ [opcodeToString, s] ++ between)).length - 1)
      = some (boundCount s) := by
  induction between using List.reverseRecOn generalizing rest back with
  | nil =>
      obtain ⟨back, rfl⟩ := Nat.exists_eq_succ_of_ne_zero
        (Nat.ne_of_gt (Nat.zero_lt_of_lt hback))
      have hsplit : l ++ [opcodeToString, s] ++ []
          = l ++ [opcodeToString] ++ [s] := by simp
      rw [hsplit] at h hclean ⊢
      rw [tableBound_concat (hclean _ (by simp)) (hclean s (by simp)) h,
        if_pos ⟨rfl, hs⟩]
  | append_singleton between u ih =>
      obtain ⟨back, rfl⟩ := Nat.exists_eq_succ_of_ne_zero
        (Nat.ne_of_gt (Nat.zero_lt_of_lt hback))
      rw [List.length_append, List.length_singleton] at hback
      -- the string ahead of `u` is the last of those before it
      obtain ⟨front, t, hfront⟩ : ∃ front t,
          l ++ [opcodeToString, s] ++ between = front ++ [t] :=
        ⟨_, _, (List.dropLast_append_getLast (by simp)).symm⟩
      have hlast : (s :: between).getLast? = some t := by
        have hc := congrArg List.getLast? hfront
        rw [List.getLast?_concat] at hc
        rw [← hc]
        cases between with
        | nil => simp
        | cons b between => simp [List.getLast?_cons]
      rw [← List.cons_append] at hother
      have hchain := List.isChain_append.1 hother
      have hnot := hchain.2.2 t hlast u rfl
      rw [← List.append_assoc, hfront] at h hclean ⊢
      have hdata : data = render (front ++ [t]) ++ (u ++ 0 :: rest) := by
        rw [h, render_concat (front ++ [t])]
        simp
      rw [tableBound_concat (hclean t (by simp)) (hclean u (by simp)) h,
        if_neg hnot, ← hfront]
      rw [← hfront] at hdata hclean
      exact ih (fun v hv => hclean v (List.mem_append_left _ hv)) hchain.1
        (by omega) hdata

-- ============================================================ the layout

/-- The assert's string for `n` opcodes. -/
def boundString (n : Nat) : Str := kBoundPrefix ++ decimal n

/-- The runtime's section: any strings, the assert of `opcode_to_string`
for `n`, the strings between it and the table, the table and any strings
behind it. -/
def laidOut (n : Nat) (before between names after : List Str) : Str :=
  render (before ++ [opcodeToString, boundString n] ++ between ++ names
    ++ after)

/-- What a runtime's section keeps to: the assert is one of the four
strings ahead of the table, the table holds `n` names and starts with the
head names, and the head stands nowhere else. -/
structure Layout (n : Nat) (before between names after : List Str) :
    Prop where
  clean : ∀ s ∈ before ++ between ++ names ++ after, Clean s
  within : between.length ≤ 3
  length : names.length = n
  least : 6 ≤ n
  most : n ≤ 1024
  nonempty : ∀ s ∈ names, s ≠ []
  head : headNames <+: names
  once : ∃! i,
    OccursAt kTableHead (laidOut n before between names after) i

/-- No string between the assert and the table is an assert of
`opcode_to_string` itself. -/
def Nearest (n : Nat) (between : List Str) : Prop :=
  (boundString n :: between).IsChain fun t u =>
    ¬ (t = opcodeToString ∧ kBoundPrefix <+: u)

instance (n : Nat) (between : List Str) : Decidable (Nearest n between) :=
  inferInstanceAs (Decidable (List.IsChain _ _))

theorem boundCount_boundString {n : Nat} (hn : n ≤ 1024) :
    boundCount (boundString n) = n := by
  have hlt : n < 2 ^ 32 := by omega
  rw [boundCount, boundString, List.drop_left, fromChars_decimal hlt]

theorem clean_boundString (n : Nat) : Clean (boundString n) := by
  have hprefix : Clean kBoundPrefix := by decide
  intro hmem
  rcases List.mem_append.1 hmem with hmem | hmem
  · exact hprefix hmem
  · have hdigit := (decimal_digits n).1 0 hmem
    exact absurd hdigit (by decide)

/-- The names up to an empty string, of a table and what follows it. -/
theorem takeWhile_names {names after : List Str}
    (h : ∀ s ∈ names, s ≠ []) :
    (names ++ after).takeWhile (fun s => s ≠ [])
      = names ++ after.takeWhile fun s => s ≠ [] :=
  List.takeWhile_append_of_pos fun s hs => decide_eq_true (h s hs)

/-- The anchor is the NUL of the last string ahead of the table. -/
theorem anchor_layout {data : Str} {front names after : List Str} {t : Str}
    (hdata : data = render (front ++ [t]) ++ render (names ++ after))
    (hhead : headNames <+: names)
    (honce : ∃! i, OccursAt kTableHead data i) :
    ∃ head, (render (front ++ [t])).length - 1 = head
      ∧ search kTableHead data 0 = some head
      ∧ search kTableHead data (head + 1) = none
      ∧ head + 1 ≤ data.length
      ∧ data.drop (head + 1) = render (names ++ after) := by
  have hsplit : data
      = render front ++ t ++ 0 :: render (names ++ after) := by
    rw [hdata, render_concat]
    simp
  have hoccurs : OccursAt kTableHead data (render front ++ t).length := by
    obtain ⟨more, rfl⟩ := hhead
    refine ⟨render (more ++ after), ?_⟩
    rw [hsplit, List.drop_left, List.append_assoc,
      render_append headNames]
    rfl
  obtain ⟨hfirst, hsecond⟩ := (search_once kTableHead_ne_nil).2
    ⟨hoccurs, fun j hj => honce.unique hj hoccurs⟩
  refine ⟨_, ?_, hfirst, hsecond, ?_, ?_⟩
  · rw [length_render_concat, List.length_append]
    omega
  · rw [hsplit, @List.length_append _ (render front ++ t),
      List.length_cons]
    omega
  · rw [hsplit, ← List.drop_drop, List.drop_left]
    rfl

/-- Of the names listed from the anchor on, the first are the table's. -/
theorem take_listed {n : Nat} {names after : List Str}
    (hlong : names.length = n) (hmost : n ≤ kMaxNames) :
    ((names ++ after).take kMaxNames).take n = names := by
  rw [List.take_take, Nat.min_eq_left hmost,
    List.take_append_of_le_length (Nat.le_of_eq hlong.symm),
    List.take_of_length_le (Nat.le_of_eq hlong)]

/-- A table is recovered from the runtime's section unless one of the
strings between the assert and the table is such an assert too. -/
theorem parseOpcodeTable_layout {n : Nat}
    {before between names after : List Str}
    (h : Layout n before between names after)
    (hother : Nearest n between) :
    parseOpcodeTable (laidOut n before between names after)
      = some { names, count := n } := by
  have hlong := h.length
  have hmost := h.most
  have hpos : n ≠ 0 := by have := h.least; omega
  have hdata : laidOut n before between names after
      = render (before ++ [opcodeToString, boundString n] ++ between)
        ++ render (names ++ after) := by
    rw [laidOut, List.append_assoc _ names, render_append]
  have honce := h.once
  generalize laidOut n before between names after = data at *
  obtain ⟨front, t, hfront⟩ : ∃ front t,
      before ++ [opcodeToString, boundString n] ++ between = front ++ [t] :=
    ⟨_, _, (List.dropLast_append_getLast (by simp)).symm⟩
  obtain ⟨head, hend, hfirst, hsecond, hle, hdrop⟩ :=
    anchor_layout (by rw [hdata, hfront]) h.head honce
  have hclean : ∀ s ∈ before ++ [opcodeToString, boundString n] ++ between,
      Clean s := by
    intro s hs
    have hots : Clean opcodeToString := by decide
    rcases List.mem_append.1 hs with hs | hs
    · rcases List.mem_append.1 hs with hs | hs
      · exact h.clean s (by simp [hs])
      · rcases List.mem_pair.1 hs with rfl | rfl
        · exact hots
        · exact clean_boundString n
    · exact h.clean s (by simp [hs])
  have hback : between.length < 4 := Nat.lt_succ_of_le h.within
  have hcount := tableBound_render hclean
    (List.prefix_append kBoundPrefix (decimal n)) hother hback hdata
  rw [hfront, hend, boundCount_boundString hmost] at hcount
  have hnames := tableNames_render kMaxNames _
    (fun s hs => h.clean s (by
      rw [List.append_assoc]
      exact List.mem_append_right _ hs)) hle hdrop
  rw [takeWhile_names h.nonempty] at hnames
  have htake := @take_listed n names (after.takeWhile fun s => s ≠ [])
    hlong hmost
  generalize (names ++ after.takeWhile fun s => s ≠ []).take kMaxNames
    = listed at hnames htake
  -- the list runs on into the strings behind the table, or ends with it
  by_cases hlonger : listed.length > n
  · simp [parseOpcodeTable, hfirst, hsecond, hnames, hcount, hpos,
      hlonger, htake]
  · rw [List.take_of_length_le (Nat.le_of_not_gt hlonger)] at htake
    simp [parseOpcodeTable, hfirst, hsecond, hnames, hcount, htake, hlong]

end X87Sidecar.Opcodes
