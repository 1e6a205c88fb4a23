/-
What the hash of a block depends on.

The bytes of a record give its fields back (`RawInstr.bytes_inj`), so two
streams have the same canonical bytes exactly if their canonical copies
are the same. `Alike` is what the layout and the decoder leave free in an
operand, `ReadAlike` what the translator reads of it. The canonical form
keeps two bytes that are free, the register of a memory operand that has
none, and drops one that is read, the segment of an absolute or immediate
operand: `hash_meaning_iff`.
-/
import X87Sidecar.IR.Hash
import X87Sidecar.Translate.Assembler
import Mathlib.Tactic.MkIffOfInductiveProp

namespace X87Sidecar.IrHash

open Lib.Record

-- ======================================================= records as bytes

@[simp] theorem RawOperand.length_bytes (o : RawOperand) :
    o.bytes.length = 16 := by
  simp [RawOperand.bytes]

theorem RawOperand.bytes_inj {a b : RawOperand} (h : a.bytes = b.bytes) :
    a = b := by
  simp only [RawOperand.bytes, List.cons_append, List.nil_append,
    List.cons.injEq] at h
  obtain ⟨hkind, hsize, hreg, hseg, hflags, hbase, hindex, hshift, hvalue⟩
    := h
  have hvalue := leBytes_inj (by omega) hvalue
  cases a
  cases b
  simp_all

@[simp] theorem RawInstr.length_bytes (i : RawInstr) :
    i.bytes.length = 80 := by
  simp [RawInstr.bytes, List.finRange_succ]

theorem RawInstr.bytes_inj {i j : RawInstr} (h : i.bytes = j.bytes) :
    i = j := by
  simp only [RawInstr.bytes] at h
  obtain ⟨h, hops⟩ := List.append_inj h (by simp)
  obtain ⟨h, hfield⟩ := List.append_inj h (by simp)
  obtain ⟨h, haux⟩ := List.append_inj h (by simp)
  obtain ⟨h, hplain⟩ := List.append_inj h (by simp)
  obtain ⟨hpc, hop⟩ := List.append_inj h (by simp)
  have hpc := leBytes_inj (by omega) hpc
  have hop := leBytes_inj (by omega) hop
  have haux := leBytes_inj (by omega) haux
  have hops : i.operands = j.operands := by
    rw [flatMap_inj (n := 16) (by omega) (by simp) (by simp),
      List.forall₂_same] at hops
    funext o
    exact RawOperand.bytes_inj (hops o (List.mem_finRange o))
  cases i
  cases j
  simp_all

/-- Two streams have the same canonical bytes exactly if their canonical
copies are the same one by one. -/
theorem canonBytes_eq_iff {φ φ' : BitVec 16 → BitVec 16}
    {s s' : List RawInstr} :
    canonBytes φ s = canonBytes φ' s'
      ↔ List.Forall₂ (fun i j => canonInstr φ i = canonInstr φ' j) s s' := by
  rw [canonBytes, canonBytes, flatMap_inj (n := 80) (by omega) (by simp)
    (by simp)]
  have hiff : ∀ i j : RawInstr, i.bytes = j.bytes ↔ i = j :=
    fun i j => ⟨RawInstr.bytes_inj, congrArg _⟩
  simp only [hiff]

-- =========================================================== the operands

/-- Bit 0 of `mem_flags`: there is a base register. -/
def RawOperand.hasBase (o : RawOperand) : Prop :=
  o.memFlags.getLsbD 0 = true

/-- Bit 1 of `mem_flags`: there is an index register. -/
def RawOperand.hasIndex (o : RawOperand) : Prop :=
  o.memFlags.getLsbD 1 = true

/-- Two operands differ only in bytes that the layout calls padding, that
their kind does not use, that name a register they do not have, or in the
page part of an address. -/
@[mk_iff]
structure Alike (a b : RawOperand) : Prop where
  kind : a.kind = b.kind
  register : a.kind = kRegister →
    a.size = b.size ∧ a.reg = b.reg ∧ a.segOverride = b.segOverride
  memRef : a.kind = kMemRef →
    a.size = b.size ∧ a.reg = b.reg ∧ a.segOverride = b.segOverride
      ∧ a.memFlags = b.memFlags ∧ a.shiftAmount = b.shiftAmount
      ∧ a.value = b.value ∧ (a.hasBase → a.baseReg = b.baseReg)
      ∧ (a.hasIndex → a.indexReg = b.indexReg)
  absMem : a.kind = kAbsMem →
    a.size = b.size ∧ a.reg = b.reg
      ∧ a.value &&& 0xfff = b.value &&& 0xfff
  immediate : a.kind = kImmediate →
    a.size = b.size ∧ a.reg = b.reg ∧ a.memFlags = b.memFlags
      ∧ if a.memFlags ≠ 0 then a.value &&& 0xfff = b.value &&& 0xfff
        else a.value = b.value
  branchOffset : a.kind = kBranchOffset → a.value = b.value
  conditionCode : a.kind = kConditionCode → a.size = b.size
  segmentRegister : a.kind = kSegmentRegister → a.reg = b.reg
  unknown : kSegmentRegister < a.kind → a = b

/-- Two operands agree in every field that the translator reads: the
segment override is read at one offset of every kind that
`compute_operand_address` accepts. -/
structure ReadAlike (a b : RawOperand) : Prop extends Alike a b where
  segment : a.kind = kMemRef ∨ a.kind = kAbsMem ∨ a.kind = kImmediate →
    a.segOverride = b.segOverride

/-- Two memory operands agree in the register bytes of registers that
they do not have. -/
def AbsentAgree (a b : RawOperand) : Prop :=
  a.kind = kMemRef →
    (¬ a.hasBase → a.baseReg = b.baseReg)
      ∧ (¬ a.hasIndex → a.indexReg = b.indexReg)

/-- Two absolute or immediate operands agree in the segment override. -/
def SegmentAgree (a b : RawOperand) : Prop :=
  a.kind = kAbsMem ∨ a.kind = kImmediate → a.segOverride = b.segOverride

theorem Alike.refl (a : RawOperand) : Alike a a := by
  simp [alike_iff]

theorem AbsentAgree.refl (a : RawOperand) : AbsentAgree a a :=
  fun _ => ⟨fun _ => rfl, fun _ => rfl⟩

/-- What the translator reads of two operands is the same exactly if the
segment override of absolute and immediate ones is. -/
theorem readAlike_iff {a b : RawOperand} (h : Alike a b) :
    ReadAlike a b ↔ SegmentAgree a b := by
  constructor
  · exact fun hread hkind => hread.segment (Or.inr hkind)
  · intro hseg
    refine ⟨h, fun hkind => ?_⟩
    rcases hkind with hmem | hkind
    · exact (h.memRef hmem).2.2.1
    · exact hseg hkind

/-- A kind is one of the seven or an unknown one. -/
theorem kind_cases (k : BitVec 8) :
    k = kRegister ∨ k = kMemRef ∨ k = kAbsMem ∨ k = kImmediate
      ∨ k = kBranchOffset ∨ k = kConditionCode ∨ k = kSegmentRegister
      ∨ kSegmentRegister < k := by
  revert k
  decide

/-- An unknown kind is kept raw. -/
theorem canonOperand_unknown {o : RawOperand}
    (h : kSegmentRegister < o.kind) : canonOperand o = o := by
  have hne : ∀ k, k ≤ kSegmentRegister → o.kind ≠ k := by
    rintro k hk rfl
    exact absurd h (by simpa using hk)
  simp only [canonOperand, hne kRegister (by decide),
    hne kMemRef (by decide), hne kAbsMem (by decide),
    hne kImmediate (by decide), hne kBranchOffset (by decide),
    hne kConditionCode (by decide), hne kSegmentRegister (by decide),
    if_false]

@[simp] theorem canonOperand_kind (o : RawOperand) :
    (canonOperand o).kind = o.kind := by
  unfold canonOperand
  repeat' split
  all_goals rfl

/-- The canonical form of an operand keeps what `Alike` does, and the
bytes of absent registers. -/
theorem canonOperand_eq_iff {a b : RawOperand} :
    canonOperand a = canonOperand b ↔ Alike a b ∧ AbsentAgree a b := by
  have hkinds : a.kind = b.kind →
      (canonOperand a = canonOperand b ↔ Alike a b ∧ AbsentAgree a b) := by
    rcases a with ⟨k, a1, a2, a3, a4, a5, a6, a7, a8⟩
    rcases b with ⟨k', b1, b2, b3, b4, b5, b6, b7, b8⟩
    rintro rfl
    rcases kind_cases k with rfl | rfl | rfl | rfl | rfl | rfl | rfl | hk
    · simp [canonOperand, alike_iff, AbsentAgree]
    · simp [canonOperand, alike_iff, AbsentAgree]
      tauto
    · simp [canonOperand, alike_iff, AbsentAgree]
    · simp [canonOperand, alike_iff, AbsentAgree]
      rintro rfl rfl rfl
      by_cases hflags : a4 = 0#8
      · simp only [hflags, if_true]
      · simp only [hflags, if_false]
    · simp [canonOperand, alike_iff, AbsentAgree]
    · simp [canonOperand, alike_iff, AbsentAgree]
    · simp [canonOperand, alike_iff, AbsentAgree]
    · rw [canonOperand_unknown hk, canonOperand_unknown hk]
      constructor
      · intro h
        rw [h]
        exact ⟨Alike.refl _, AbsentAgree.refl _⟩
      · exact fun h => h.1.unknown hk
  constructor
  · intro h
    have hk := congrArg RawOperand.kind h
    rw [canonOperand_kind, canonOperand_kind] at hk
    exact (hkinds hk).1 h
  · intro h
    exact (hkinds h.1.kind).2 h

-- ========================================== what the translator reads

/-- `IROperandKind` of a known kind. -/
def kindOf (k : BitVec 8) : Option IROperandKind :=
  if k = kRegister then some .register
  else if k = kMemRef then some .memRef
  else if k = kAbsMem then some .absMem
  else if k = kImmediate then some .immediate
  else if k = kBranchOffset then some .branchOffset
  else if k = kConditionCode then some .conditionCode
  else if k = kSegmentRegister then some .segmentRegister
  else none

/-- `IROperandSize`. -/
def sizeOf (s : BitVec 8) : Option IROperandSize :=
  if s = 0 then some .s8
  else if s = 1 then some .s16
  else if s = 2 then some .s32
  else if s = 3 then some .s64
  else if s = 4 then some .s128
  else if s = 5 then some .s256
  else if s = 0xff then some .s80
  else none

/-- The operand the translator sees. -/
def RawOperand.operand (o : RawOperand) : Option IROperand := do
  let kind ← kindOf o.kind
  let size ← sizeOf o.size
  return { kind, size, reg := o.reg, segOverride := o.segOverride,
           memFlags := o.memFlags, baseReg := o.baseReg,
           indexReg := o.indexReg, shiftAmount := o.shiftAmount,
           value := o.value }

/-- The address of a memory operand does not read the registers that the
operand does not have. -/
theorem compute_mem_operand_address_absent (w : Bool) (op : IROperand)
    (base index : BitVec 8) (d : Nat)
    (hbase : op.hasBase = true → base = op.baseReg)
    (hindex : op.hasIndex = true → index = op.indexReg) :
    Asm.compute_mem_operand_address w
        { op with baseReg := base, indexReg := index } d
      = Asm.compute_mem_operand_address w op d := by
  have hb : IROperand.hasBase { op with baseReg := base, indexReg := index }
      = op.hasBase := rfl
  have hi : IROperand.hasIndex
      { op with baseReg := base, indexReg := index } = op.hasIndex := rfl
  rw [Asm.compute_mem_operand_address, Asm.compute_mem_operand_address,
    hb, hi]
  by_cases h1 : op.hasBase = true
  · by_cases h2 : op.hasIndex = true
    · rw [hbase h1, hindex h2]
    · rw [if_pos h1, if_pos h1, if_neg h2, if_neg h2, hbase h1]
      rfl
  · by_cases h2 : op.hasIndex = true
    · rw [if_neg h1, if_neg h1, if_pos h2, if_pos h2, hindex h2]
      rfl
    · rw [if_neg h1, if_neg h1, if_neg h2, if_neg h2]
      rfl

/-- Memory operands that agree in what `ReadAlike` says have the same
address code. -/
theorem ReadAlike.address {a b : RawOperand} (h : ReadAlike a b)
    (hkind : a.kind = kMemRef) (w : Bool) (d : Nat) :
    a.operand.map (Asm.compute_operand_address w · d)
      = b.operand.map (Asm.compute_operand_address w · d) := by
  obtain ⟨hsize, hreg, hseg, hflags, hshift, hvalue, hbase, hindex⟩ :=
    h.memRef hkind
  have hmem : kindOf kMemRef = some .memRef := rfl
  rw [RawOperand.operand, RawOperand.operand, ← h.kind, ← hsize, hkind,
    hmem]
  rcases hs : sizeOf a.size with _ | size
  · rfl
  have hop : ∀ (v : Bool) (seg : BitVec 8),
      Asm.compute_mem_operand_address v
        { kind := .memRef, size, reg := b.reg, segOverride := seg,
          memFlags := b.memFlags, baseReg := b.baseReg,
          indexReg := b.indexReg, shiftAmount := b.shiftAmount,
          value := b.value } d
      = Asm.compute_mem_operand_address v
        { kind := .memRef, size, reg := b.reg, segOverride := seg,
          memFlags := a.memFlags, baseReg := a.baseReg,
          indexReg := a.indexReg, shiftAmount := a.shiftAmount,
          value := a.value } d := by
    intro v seg
    rw [← hflags, ← hshift, ← hvalue]
    exact compute_mem_operand_address_absent v
      { kind := .memRef, size, reg := b.reg, segOverride := seg,
        memFlags := a.memFlags, baseReg := a.baseReg,
        indexReg := a.indexReg, shiftAmount := a.shiftAmount,
        value := a.value } b.baseReg b.indexReg d
      (fun hb => (hbase hb).symm) (fun hi => (hindex hi).symm)
  simp [Asm.compute_operand_address, Asm.kindAddress, hop, hreg, hseg]

-- ======================================================== the streams

/-- Two instructions agree in everything but their operands that is not
left to the launch: in their internal opcodes, whatever the numberings,
and `R` relates their used operands. -/
structure InstrAlike (φ φ' : BitVec 16 → BitVec 16)
    (R : RawOperand → RawOperand → Prop) (i j : RawInstr) : Prop where
  opcode : φ i.opcode = φ' j.opcode
  repPrefix : i.repPrefix = j.repPrefix
  rexEscape : i.rexEscape = j.rexEscape
  numOperands : i.numOperands = j.numOperands
  irKind : i.irKind = j.irKind
  irSubkind : i.irSubkind = j.irSubkind
  auxOpcode : i.auxOpcode = j.auxOpcode
  fieldF : i.fieldF = j.fieldF
  operands : ∀ o : Fin 4, o.val < i.nops → R (i.operands o) (j.operands o)

/-- `R` relates the used operands of two instructions. -/
def Used (R : RawOperand → RawOperand → Prop) (i j : RawInstr) : Prop :=
  ∀ o : Fin 4, o.val < i.nops → R (i.operands o) (j.operands o)

theorem InstrAlike.nops {φ φ' : BitVec 16 → BitVec 16}
    {R : RawOperand → RawOperand → Prop} {i j : RawInstr}
    (h : InstrAlike φ φ' R i j) : i.nops = j.nops := by
  rw [RawInstr.nops, RawInstr.nops, h.numOperands]

/-- The canonical copy of an instruction. -/
theorem canonInstr_eq_iff {φ φ' : BitVec 16 → BitVec 16} {i j : RawInstr} :
    canonInstr φ i = canonInstr φ' j
      ↔ InstrAlike φ φ' Alike i j ∧ Used AbsentAgree i j := by
  constructor
  · intro h
    simp only [canonInstr, RawInstr.mk.injEq, true_and] at h
    obtain ⟨hop, hrep, hrex, hnum, hkind, hsub, haux, hfield, hops⟩ := h
    have hnops : i.nops = j.nops := by
      rw [RawInstr.nops, RawInstr.nops, hnum]
    have hused : ∀ o : Fin 4, o.val < i.nops →
        Alike (i.operands o) (j.operands o)
          ∧ AbsentAgree (i.operands o) (j.operands o) := by
      intro o ho
      have ho' := congrFun hops o
      rw [if_pos ho, if_pos (hnops ▸ ho)] at ho'
      exact canonOperand_eq_iff.1 ho'
    exact ⟨⟨hop, hrep, hrex, hnum, hkind, hsub, haux, hfield,
      fun o ho => (hused o ho).1⟩, fun o ho => (hused o ho).2⟩
  · rintro ⟨h, habsent⟩
    have hops : (fun o : Fin 4 =>
          if o.val < i.nops then canonOperand (i.operands o) else {})
        = fun o => if o.val < j.nops then canonOperand (j.operands o)
            else {} := by
      funext o
      by_cases ho : o.val < i.nops
      · rw [if_pos ho, if_pos (h.nops ▸ ho)]
        exact canonOperand_eq_iff.2 ⟨h.operands o ho, habsent o ho⟩
      · rw [if_neg ho, if_neg (h.nops ▸ ho)]
    simp only [canonInstr, hops, h.opcode, h.repPrefix, h.rexEscape,
      h.numOperands, h.irKind, h.irSubkind, h.auxOpcode, h.fieldF]

theorem instrAlike_read_iff {φ φ' : BitVec 16 → BitVec 16}
    {i j : RawInstr} :
    InstrAlike φ φ' ReadAlike i j
      ↔ InstrAlike φ φ' Alike i j ∧ Used SegmentAgree i j := by
  constructor
  · intro h
    exact ⟨{ h with operands := fun o ho => (h.operands o ho).toAlike },
      fun o ho => (readAlike_iff (h.operands o ho).toAlike).1
        (h.operands o ho)⟩
  · rintro ⟨h, hseg⟩
    exact { h with operands := fun o ho =>
      (readAlike_iff (h.operands o ho)).2 (hseg o ho) }

/-- Relations along two streams hold together exactly if each does. -/
theorem forall₂_and {R S : RawInstr → RawInstr → Prop}
    {s s' : List RawInstr} :
    List.Forall₂ (fun i j => R i j ∧ S i j) s s'
      ↔ List.Forall₂ R s s' ∧ List.Forall₂ S s s' := by
  induction s generalizing s' with
  | nil => cases s' <;> simp
  | cons i s ih =>
      cases s' with
      | nil => simp
      | cons j s' =>
          simp only [List.forall₂_cons, ih]
          tauto

/-- The hash keeps to meaning on two streams exactly if, where they
differ only in free bytes, their memory operands agree in the registers
they do not have and their absolute and immediate operands agree in the
segment override. -/
theorem hash_meaning_iff (φ φ' : BitVec 16 → BitVec 16)
    (s s' : List RawInstr) :
    ((List.Forall₂ (InstrAlike φ φ' Alike) s s' →
          canonBytes φ s = canonBytes φ' s')
        ∧ (canonBytes φ s = canonBytes φ' s' →
          List.Forall₂ (InstrAlike φ φ' ReadAlike) s s'))
      ↔ (List.Forall₂ (InstrAlike φ φ' Alike) s s' →
          List.Forall₂ (Used AbsentAgree) s s'
            ∧ List.Forall₂ (Used SegmentAgree) s s') := by
  have hcanon : canonBytes φ s = canonBytes φ' s'
      ↔ List.Forall₂ (InstrAlike φ φ' Alike) s s'
        ∧ List.Forall₂ (Used AbsentAgree) s s' := by
    rw [canonBytes_eq_iff, ← forall₂_and]
    simp only [canonInstr_eq_iff]
  have hread : List.Forall₂ (InstrAlike φ φ' ReadAlike) s s'
      ↔ List.Forall₂ (InstrAlike φ φ' Alike) s s'
        ∧ List.Forall₂ (Used SegmentAgree) s s' := by
    rw [← forall₂_and]
    have hiff : InstrAlike φ φ' ReadAlike = fun i j =>
        InstrAlike φ φ' Alike i j ∧ Used SegmentAgree i j := by
      funext i j
      exact propext instrAlike_read_iff
    rw [hiff]
  rw [hcanon, hread]
  tauto

/-- `fld qword [rbp + 8]`, with a byte of the decoder's stack in the
register of the index it does not have. -/
def fldStale (stale : BitVec 8) : RawInstr where
  opcode := 0x57
  numOperands := 1
  operands := fun o =>
    if o.val = 0 then
      { kind := kMemRef, size := 3, reg := 3, memFlags := 1,
        baseReg := 0x35, indexReg := stale, value := 8 }
    else {}

/-- `fld qword` at an absolute address, in a segment. -/
def fldAbsolute (segment : BitVec 8) : RawInstr where
  opcode := 0x57
  numOperands := 1
  operands := fun o =>
    if o.val = 0 then
      { kind := kAbsMem, size := 3, reg := 3, segOverride := segment,
        value := 0x1040 }
    else {}

/-- Two launches of one block hash differently by a stale byte, and a
block that addresses through FS hashes as the one that does not. -/
theorem not_hash_on_meaning :
    (List.Forall₂ (InstrAlike id id Alike) [fldStale 0] [fldStale 0x7f]
        ∧ canonBytes id [fldStale 0] ≠ canonBytes id [fldStale 0x7f]
        ∧ hash_ir_stream id [fldStale 0]
          ≠ hash_ir_stream id [fldStale 0x7f])
      ∧ canonBytes id [fldAbsolute 1] = canonBytes id [fldAbsolute 0]
      ∧ ¬ List.Forall₂ (InstrAlike id id ReadAlike) [fldAbsolute 1]
          [fldAbsolute 0] := by
  refine ⟨⟨List.Forall₂.cons ?_ List.Forall₂.nil, by decide,
    by decide +kernel⟩, by decide, ?_⟩
  · refine ⟨rfl, rfl, rfl, rfl, rfl, rfl, rfl, rfl, fun o ho => ?_⟩
    obtain rfl : o = 0 := by
      have hlt : o.val < 1 := ho
      omega
    rw [alike_iff]
    simp [fldStale, RawOperand.hasIndex]
  · intro h
    have hread := (List.forall₂_cons.1 h).1.operands 0 (by decide)
    exact absurd (hread.segment (Or.inr (Or.inl rfl))) (by decide)

end X87Sidecar.IrHash
