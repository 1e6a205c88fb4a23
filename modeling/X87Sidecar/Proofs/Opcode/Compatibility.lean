/-
The two numberings stay inverse.

`enterHost_all` says what both index tables hold after any list of
names: the host's ids hold the internal id of their name, an internal id
holds the first host id of its name. The rest reads the tables off, and
`host_numbering_recovered` puts the parse of the table in front.
-/
import X87Sidecar.Opcode.Compatibility
import X87Sidecar.Proofs.Opcode.Table

namespace X87Sidecar.Opcodes

open Lib.Text

-- ============================================================ the tables

/-- A name only stands for the id it has in the internal numbering. -/
theorem internalByName_agrees {names : List Str}
    (hlen : names.length ≤ 2 ^ 16) {s : Str} {i : BitVec 16}
    (h : (internalByName names).lookup s = some i) :
    names[i.toNat]? = some s ∧ i ≠ kOpcodeName_arpl := by
  induction names using List.reverseRecOn with
  | nil => exact absurd h (by simp [internalByName])
  | append_singleton names t ih =>
      have hstep : internalByName (names ++ [t])
          = if BitVec.ofNat 16 names.length ≠ kOpcodeName_arpl then
              emplace (internalByName names) t
                (BitVec.ofNat 16 names.length)
            else internalByName names := by
        simp [internalByName, List.zipIdx_append]
      rw [List.length_append, List.length_singleton] at hlen
      have hold : (internalByName names).lookup s = some i →
          (names ++ [t])[i.toNat]? = some s ∧ i ≠ kOpcodeName_arpl := by
        intro hs
        obtain ⟨hget, hne⟩ := ih (by omega) hs
        have hlt := (List.getElem?_eq_some_iff.1 hget).1
        exact ⟨by rw [List.getElem?_append_left hlt, hget], hne⟩
      rw [hstep] at h
      split at h
      · next hne =>
          rw [emplace] at h
          split at h
          · exact hold h
          · by_cases hst : s = t
            · subst hst
              rw [List.lookup_cons_self] at h
              cases h
              have hlt : (BitVec.ofNat 16 names.length).toNat
                  = names.length := by
                rw [BitVec.toNat_ofNat, Nat.mod_eq_of_lt (by omega)]
              exact ⟨by rw [hlt, List.getElem?_concat_length], hne⟩
            · rw [List.lookup_cons, beq_false_of_ne hst] at h
              exact hold h
      · exact hold h

/-- The internal id of a host's name. -/
def internalOf (byName : List (Str × BitVec 16)) (s : Str) : BitVec 16 :=
  (byName.lookup s).getD kOpcodeUnmapped

/-- The first host id whose name stands for an internal one. -/
def firstHost (byName : List (Str × BitVec 16)) (hostNames : List Str)
    (i : Nat) : BitVec 16 :=
  ((hostNames.findIdx? fun s =>
      byName.lookup s = some (BitVec.ofNat 16 i)).map
    (BitVec.ofNat 16)).getD kOpcodeUnmapped

/-- A host id under the cap is not the unmapped one. -/
theorem ofNat_ne_unmapped {h : Nat} (hh : h ≤ 1024) :
    BitVec.ofNat 16 h ≠ kOpcodeUnmapped := by
  intro he
  have := congrArg BitVec.toNat he
  rw [BitVec.toNat_ofNat, Nat.mod_eq_of_lt (by omega)] at this
  have hu : kOpcodeUnmapped.toNat = 65535 := rfl
  omega

/-- One more name, for an internal id: it is the first host's unless an
earlier one was. -/
theorem firstHost_concat (byName : List (Str × BitVec 16))
    {hostNames : List Str} (s : Str) (i : Nat)
    (hlen : hostNames.length ≤ 1024) :
    firstHost byName (hostNames ++ [s]) i
      = if firstHost byName hostNames i = kOpcodeUnmapped
            ∧ byName.lookup s = some (BitVec.ofNat 16 i) then
          BitVec.ofNat 16 hostNames.length
        else firstHost byName hostNames i := by
  rw [firstHost, firstHost, List.findIdx?_append]
  rcases hfind : hostNames.findIdx? fun s =>
      byName.lookup s = some (BitVec.ofNat 16 i) with _ | h
  · by_cases hs : byName.lookup s = some (BitVec.ofNat 16 i)
    · simp [List.findIdx?_cons, hs]
    · simp [List.findIdx?_cons, hs]
  · have hlt := (List.findIdx?_eq_some_iff_getElem.1 hfind).1
    have hne := ofNat_ne_unmapped (h := h) (by omega)
    simp [hne]

/-- Both tables, after any list of names. -/
theorem enterHost_all {byName : List (Str × BitVec 16)}
    {hostNames : List Str} {a b : Nat} (hle : hostNames.length ≤ a)
    (hcap : hostNames.length ≤ 1024) (hb : b ≤ 2 ^ 16)
    (hids : ∀ s i, byName.lookup s = some i → i.toNat < b) :
    hostNames.zipIdx.foldl (fun t (s, h) => enterHost byName t s h)
        (List.replicate a kOpcodeUnmapped,
          List.replicate b kOpcodeUnmapped)
      = (hostNames.map (internalOf byName)
            ++ List.replicate (a - hostNames.length) kOpcodeUnmapped,
          (List.range b).map (firstHost byName hostNames)) := by
  induction hostNames using List.reverseRecOn with
  | nil =>
      have hnone : firstHost byName [] = fun _ => kOpcodeUnmapped := rfl
      simp [hnone]
  | append_singleton hostNames s ih =>
      rw [List.length_append, List.length_singleton] at hle hcap
      have hroom : a - hostNames.length
          = (a - (hostNames.length + 1)) + 1 := by omega
      rw [List.zipIdx_append, List.foldl_append,
        ih (by omega) (by omega)]
      simp only [List.zipIdx_singleton, List.foldl_cons, List.foldl_nil,
        Nat.zero_add, enterHost]
      rcases hs : byName.lookup s with _ | i
      · -- an unknown name changes neither table
        have hsame : firstHost byName (hostNames ++ [s])
            = firstHost byName hostNames := by
          funext i
          rw [firstHost_concat byName s i (by omega), hs]
          simp
        simp [internalOf, hs, hsame, hroom, List.replicate_succ]
      · have hi := hids s i hs
        refine Prod.ext ?_ ?_
        · simp [internalOf, hs, hroom, List.replicate_succ]
        · have hget : ((List.range b).map
              (firstHost byName hostNames))[i.toNat]?
                = some (firstHost byName hostNames i.toNat) := by
            simp [hi]
          simp only [hget, Option.some_inj]
          refine List.ext_getElem? fun j => ?_
          have hstep := firstHost_concat byName s j
            (Nat.le_of_succ_le hcap)
          by_cases hj : j < b
          · by_cases hij : i.toNat = j
            · subst hij
              by_cases hfree :
                  firstHost byName hostNames i.toNat = kOpcodeUnmapped
              · simp [hi, hfree, hstep, hs]
              · simp [hi, hfree, hstep]
            · have hne : byName.lookup s ≠ some (BitVec.ofNat 16 j) := by
                intro hj'
                rw [hs, Option.some_inj] at hj'
                rw [hj', BitVec.toNat_ofNat,
                  Nat.mod_eq_of_lt (by omega)] at hij
                exact hij rfl
              rw [if_neg fun hc => hne hc.2] at hstep
              by_cases hfree :
                  firstHost byName hostNames i.toNat = kOpcodeUnmapped
              · simp [hfree, hij, hj, hstep]
              · simp [hfree, hj, hstep]
          · by_cases hfree :
                firstHost byName hostNames i.toNat = kOpcodeUnmapped
            · simp [hfree, hj]
            · simp [hfree, hj]

-- ========================================================== the mappings

section
variable {names hostNames : List Str} (versioned : BitVec 16 → BitVec 16)

/-- The tables that are kept. -/
theorem hostTable_tables (hnames : names.length ≤ 2 ^ 16)
    (hcap : hostNames.length ≤ 1024) :
    (hostTable names hostNames).hostToInternal
        = hostNames.map (internalOf (internalByName names))
      ∧ (hostTable names hostNames).internalToHost
        = ((List.range names.length).map
            (firstHost (internalByName names) hostNames)).set
              kOpcodeName_arpl.toNat (BitVec.ofNat 16 hostNames.length) := by
  have hids : ∀ s i, (internalByName names).lookup s = some i →
      i.toNat < names.length := fun s i h =>
    (List.getElem?_eq_some_iff.1 (internalByName_agrees hnames h).1).1
  simp only [hostTable,
    enterHost_all (Nat.le_refl _) hcap hnames hids]
  simp

/-- A host id in the list maps to its name's id. -/
theorem host_to_internal_listed (hnames : names.length ≤ 2 ^ 16)
    (hcap : hostNames.length ≤ 1024) {h : BitVec 16} {s : Str}
    (hs : hostNames[h.toNat]? = some s) :
    opcode_host_to_internal versioned (hostTable names hostNames) h
      = internalOf (internalByName names) s := by
  have hlt := (List.getElem?_eq_some_iff.1 hs).1
  have harpl : h ≠ (hostTable names hostNames).arpl := by
    intro he
    have hn := congrArg BitVec.toNat he
    rw [hostTable, BitVec.toNat_ofNat, Nat.mod_eq_of_lt (by omega)] at hn
    omega
  rw [opcode_host_to_internal, if_neg harpl,
    (hostTable_tables hnames hcap).1, List.getD_eq_getElem?_getD]
  simp [hostTable, hs]

/-- A host id past the list is the synthetic one or is not mapped. -/
theorem host_to_internal_past (hnames : names.length ≤ 2 ^ 16)
    (hcap : hostNames.length ≤ 1024) {h : BitVec 16}
    (hs : hostNames.length ≤ h.toNat) :
    opcode_host_to_internal versioned (hostTable names hostNames) h
      = if h = (hostTable names hostNames).arpl then kOpcodeName_arpl
        else kOpcodeUnmapped := by
  rw [opcode_host_to_internal, (hostTable_tables hnames hcap).1,
    List.getD_eq_getElem?_getD]
  by_cases hh : h = (hostTable names hostNames).arpl
  · rw [if_pos hh, if_pos hh]
    rfl
  · rw [if_neg hh, if_neg hh]
    simp [hostTable, hs]

/-- An internal id maps to the first host id of its name. -/
theorem internal_to_host_eq (hnames : names.length ≤ 2 ^ 16)
    (hcap : hostNames.length ≤ 1024)
    (harpl : kOpcodeName_arpl.toNat < names.length) (i : BitVec 16) :
    opcode_internal_to_host versioned (hostTable names hostNames) i
      = if i = kOpcodeName_arpl then BitVec.ofNat 16 hostNames.length
        else if i.toNat < names.length then
          firstHost (internalByName names) hostNames i.toNat
        else kOpcodeUnmapped := by
  rw [opcode_internal_to_host, (hostTable_tables hnames hcap).2,
    List.getD_eq_getElem?_getD]
  by_cases hi : i = kOpcodeName_arpl
  · subst hi
    simp [hostTable, harpl]
  · have hne : kOpcodeName_arpl.toNat ≠ i.toNat :=
      fun he => hi (BitVec.eq_of_toNat_eq he.symm)
    by_cases hlt : i.toNat < names.length
    · simp [hostTable, hi, hne, hlt]
    · simp [hostTable, hi, hlt]

end

-- ========================================================== both together

/-- What the maps of a host's names keep to: `host` and `internal` stand
for the two numberings. -/
structure Inverse (names hostNames : List Str) (g : HostTable)
    (host internal : BitVec 16 → BitVec 16) : Prop where
  /-- a mapped id has its name, the synthetic one apart -/
  agree : ∀ h, internal h ≠ kOpcodeUnmapped →
    (h = g.arpl ∧ internal h = kOpcodeName_arpl)
      ∨ ∃ s, hostNames[h.toNat]? = some s
          ∧ names[(internal h).toNat]? = some s
  back : ∀ i, host i ≠ kOpcodeUnmapped → internal (host i) = i
  forth : ∀ (h : BitVec 16) s, hostNames[h.toNat]? = some s →
    (∀ h' < h.toNat, hostNames[h']? ≠ some s) →
    internal h ≠ kOpcodeUnmapped → host (internal h) = h
  /-- the synthetic id is mapped both ways and is no host name's -/
  arpl : host kOpcodeName_arpl = g.arpl
    ∧ internal g.arpl = kOpcodeName_arpl
    ∧ hostNames.length ≤ g.arpl.toNat
    ∧ ∀ h, internal h = kOpcodeName_arpl → h = g.arpl

/-- The maps of any list of names within the cap. -/
theorem hostTable_inverse {names hostNames : List Str}
    (versioned versioned' : BitVec 16 → BitVec 16)
    (hnames : names.length ≤ 2 ^ 16)
    (harpl : kOpcodeName_arpl.toNat < names.length)
    (hcap : hostNames.length ≤ 1024) :
    Inverse names hostNames (hostTable names hostNames)
      (opcode_internal_to_host versioned' (hostTable names hostNames))
      (opcode_host_to_internal versioned (hostTable names hostNames)) := by
  have hlisted := fun {h : BitVec 16} {s} hs =>
    host_to_internal_listed versioned hnames hcap (h := h) (s := s) hs
  have hpast := fun {h : BitVec 16} hs =>
    host_to_internal_past versioned hnames hcap (h := h) hs
  have hhost := internal_to_host_eq versioned' hnames hcap harpl
  have hsynthetic : (hostTable names hostNames).arpl
      = BitVec.ofNat 16 hostNames.length := rfl
  have hbound : (hostTable names hostNames).arpl.toNat
      = hostNames.length := by
    rw [hsynthetic, BitVec.toNat_ofNat, Nat.mod_eq_of_lt (by omega)]
  -- a listed id that is mapped is mapped through its name
  have hmapped : ∀ s, internalOf (internalByName names) s
        ≠ kOpcodeUnmapped →
      (internalByName names).lookup s
          = some (internalOf (internalByName names) s) := by
    intro s hne
    rw [internalOf] at hne ⊢
    rcases hl : (internalByName names).lookup s with _ | i
    · rw [hl] at hne
      exact absurd rfl hne
    · rfl
  refine ⟨?_, ?_, ?_, ?_, ?_, ?_, ?_⟩
  · intro h hne
    rcases hs : hostNames[h.toNat]? with _ | s
    · rw [hpast (List.getElem?_eq_none_iff.1 hs)] at hne ⊢
      by_cases hh : h = (hostTable names hostNames).arpl
      · exact Or.inl ⟨hh, if_pos hh⟩
      · rw [if_neg hh] at hne
        exact absurd rfl hne
    · rw [hlisted hs] at hne ⊢
      exact Or.inr ⟨s, rfl,
        (internalByName_agrees hnames (hmapped s hne)).1⟩
  · intro i hne
    rw [hhost] at hne ⊢
    by_cases hi : i = kOpcodeName_arpl
    · rw [if_pos hi, ← hsynthetic, hpast (Nat.le_of_eq hbound.symm),
        if_pos rfl, hi]
    rw [if_neg hi] at hne ⊢
    by_cases hlt : i.toNat < names.length
    · rw [if_pos hlt] at hne ⊢
      rw [firstHost] at hne ⊢
      rcases hfind : hostNames.findIdx? fun s =>
          (internalByName names).lookup s
            = some (BitVec.ofNat 16 i.toNat) with _ | h
      · rw [hfind] at hne
        exact absurd rfl hne
      · obtain ⟨hh, hlook, -⟩ := List.findIdx?_eq_some_iff_getElem.1 hfind
        have hlook := of_decide_eq_true hlook
        rw [BitVec.ofNat_toNat, BitVec.setWidth_eq] at hlook
        have hget : hostNames[(BitVec.ofNat 16 h).toNat]?
            = some hostNames[h] := by
          rw [BitVec.toNat_ofNat, Nat.mod_eq_of_lt (by omega),
            List.getElem?_eq_getElem hh]
        rw [Option.map_some, Option.getD_some, hlisted hget, internalOf,
          hlook]
        rfl
    · rw [if_neg hlt] at hne
      exact absurd rfl hne
  · intro h s hs hfirst hne
    have hlt := (List.getElem?_eq_some_iff.1 hs).1
    rw [hlisted hs] at hne ⊢
    have hlook := hmapped s hne
    generalize internalOf (internalByName names) s = i at hlook
    obtain ⟨hget, hi⟩ := internalByName_agrees hnames hlook
    have hilt := (List.getElem?_eq_some_iff.1 hget).1
    rw [hhost, if_neg hi, if_pos hilt, firstHost]
    have hfind : (hostNames.findIdx? fun s =>
        (internalByName names).lookup s
          = some (BitVec.ofNat 16 i.toNat)) = some h.toNat := by
      rw [BitVec.ofNat_toNat, BitVec.setWidth_eq]
      refine List.findIdx?_eq_some_iff_getElem.2 ⟨hlt, ?_, ?_⟩
      · rw [List.getElem?_eq_getElem hlt, Option.some_inj] at hs
        exact decide_eq_true (hs ▸ hlook)
      · -- an earlier host id of the same internal one has the same name
        intro h' hh' hlook'
        have hsame := (internalByName_agrees hnames
          (of_decide_eq_true hlook')).1
        rw [hget, Option.some_inj] at hsame
        exact hfirst h' hh' (by
          rw [List.getElem?_eq_getElem (Nat.lt_trans hh' hlt), hsame])
    rw [hfind, Option.map_some, Option.getD_some, BitVec.ofNat_toNat,
      BitVec.setWidth_eq]
  · rw [hhost, if_pos rfl, hsynthetic]
  · rw [hpast (Nat.le_of_eq hbound.symm), if_pos rfl]
  · exact Nat.le_of_eq hbound.symm
  · intro h hh
    rcases hs : hostNames[h.toNat]? with _ | s
    · rw [hpast (List.getElem?_eq_none_iff.1 hs)] at hh
      by_contra hne
      rw [if_neg hne] at hh
      exact absurd hh (by decide)
    · rw [hlisted hs] at hh
      have hlook := hmapped s (by rw [hh]; decide)
      exact absurd hh (internalByName_agrees hnames hlook).2

/-- The host's numbering is recovered from its section and the maps
between it and the internal one are inverse. -/
theorem host_numbering_recovered :
    (∀ data, ∃ table, parseOpcodeTable data = some table
      ∧ ((¬ ∃! i, OccursAt kTableHead data i) → table = {}))
    ∧ (∀ n before between names after,
        Layout n before between names after → Nearest n between →
        parseOpcodeTable (laidOut n before between names after)
          = some { names, count := n })
    ∧ ∀ versioned versioned' hostNames, hostNames.length ≤ 1024 →
        Inverse (kOpcodeNames.map ascii) hostNames
          (opcode_set_host_table hostNames)
          (opcode_internal_to_host versioned'
            (opcode_set_host_table hostNames))
          (opcode_host_to_internal versioned
            (opcode_set_host_table hostNames)) := by
  have hnames : (kOpcodeNames.map ascii).length = 669 := by decide +kernel
  refine ⟨parseOpcodeTable_inside,
    fun _ _ _ _ _ hlayout hnearest =>
      parseOpcodeTable_layout hlayout hnearest,
    fun versioned versioned' hostNames hcap =>
      hostTable_inverse versioned versioned' ?_ ?_ hcap⟩
  · rw [hnames]
    decide
  · rw [hnames]
    decide

/-- A section with seven opcodes, between foreign asserts. -/
theorem layout_seven :
    Layout 7 (["index < 9", "Opcode.cpp"].map ascii)
      (["other", "index < 6", "out-of-bounds opcode index"].map ascii)
      (headNames ++ ["and"].map ascii) (["addsub"].map ascii) where
  clean := by decide
  within := by decide
  length := rfl
  least := by decide
  most := by decide
  nonempty := by decide
  head := by decide
  once := ⟨_, (search_once kTableHead_ne_nil).1
    ⟨(by decide +kernel : _ = some 90), by decide +kernel⟩⟩

theorem host_numbering_seven :
    parseOpcodeTable (laidOut 7 (["index < 9", "Opcode.cpp"].map ascii)
        (["other", "index < 6", "out-of-bounds opcode index"].map ascii)
        (headNames ++ ["and"].map ascii) (["addsub"].map ascii))
      = some { names := headNames ++ ["and"].map ascii, count := 7 } :=
  host_numbering_recovered.2.1 _ _ _ _ _ layout_seven (by decide)

/-- A second assert of `opcode_to_string` nearer to the table is the one
that counts. -/
theorem not_recovered_secondAssert :
    ¬ ∀ n before between names after,
        Layout n before between names after →
        parseOpcodeTable (laidOut n before between names after)
          = some { names, count := n } := by
  intro h
  have hlayout : Layout 7 [] (["opcode_to_string", "index < 6"].map ascii)
      (headNames ++ ["and"].map ascii) [] :=
    { clean := by decide
      within := by decide
      length := rfl
      least := by decide
      most := by decide
      nonempty := by decide
      head := by decide
      once := ⟨_, (search_once kTableHead_ne_nil).1
        ⟨(by decide : _ = some 53), by decide⟩⟩ }
  exact absurd (h 7 _ _ _ _ hlayout) (by decide)

end X87Sidecar.Opcodes
