/-
Immediates, addresses and scratch registers (`AssemblerHelpers.cpp`,
`TranslatorHelpers.cpp`): the helpers that every lowering of an integer
operand goes through, down to the instructions they emit.

An allocator that finds no free register records the failure and hands
out a placeholder; the request is then declined and all it emitted is
taken back. Here it fails (`Keep.fail`), and nothing is said of the code
that would have followed. Counting by `g_alloc_fast_mask`, the injection
of such failures for tests, is left out.

What the instruction buffer holds is not all code yet: the page of an
`ADRP`, the offset of the `ADD` behind it and the target of a `BL` are
filled in later, by the fixups recorded beside it. A `Link` is what they
are filled in with, and `AsmState.exec` runs the result.
-/
import X87Sidecar.IR.Instr
import X87Sidecar.Lib.Arm
import X87Sidecar.Lib.Keep

namespace X87Sidecar

open Lib

-- ========================================================= the state

/-- `FixupKind`, those that addresses use. -/
inductive FixupKind
  | branch26 | arm64Page21 | arm64PageOffset12
  deriving DecidableEq, Repr

/-- `Fixup`. -/
structure Fixup where
  kind : FixupKind
  insn_offset : Nat
  target : BitVec 32
  deriving DecidableEq, Repr

/-- What the buffer holds: an instruction, or one that a fixup is to
complete. -/
inductive CodeWord
  | insn (i : Arm.Instr)
  /-- `ADRP`, the page still open -/
  | adrp (rd : Nat)
  /-- `BL`, the target still open -/
  | bl
  deriving DecidableEq, Repr

/-- The fields of a `TranslationResult` that no request changes. -/
structure Process where
  /-- 1 where the code is translated as it runs -/
  translator_variant : BitVec 8
  /-- `thread_context_offsets->field_8`: where the thread context keeps
  the base of FS -/
  field_8 : BitVec 32

/-- The fields of a `TranslationResult` that the helpers work on. -/
structure AsmState where
  insn_buf : List CodeWord := []
  _fixups : List Fixup := []
  external_fixups : List Fixup := []
  free_gpr_mask : BitVec 32
  process : Process

/-- `insn_buf.end`, in bytes. -/
def AsmState.bufEnd (s : AsmState) : Nat := 4 * s.insn_buf.length

/-- An emitter: it fails when an allocator does. -/
abbrev Asm := Keep AsmState

/-- `GPR::XZR`, which also asks for a register to be chosen. -/
def XZR : Nat := 31

/-- `kGprScratchMask`: bits 22 to 29. -/
def kGprScratchMask : BitVec 32 := 0x3FC00000

/-- `kRuntimeRoutine_get_tls_base`. -/
def kRuntimeRoutine_get_tls_base : BitVec 32 := 0x15

-- ============================================== the code once fixed up

/-- The process the code is for, and what fixups are filled in with. -/
structure Link where
  process : Process
  /-- the address of a target -/
  address : BitVec 32 → BitVec 64
  /-- what calling a runtime routine does -/
  routine : BitVec 32 → Arm.Machine → Arm.Machine

/-- The target of the fixup of a kind at an offset. -/
def fixupAt (fixups : List Fixup) (kind : FixupKind) (offset : Nat) :
    Option (BitVec 32) :=
  (fixups.find? fun x => x.kind = kind ∧ x.insn_offset = offset).map
    (·.target)

/-- An `ADD` with its page offset filled in. -/
def withPageOffset (lk : Link) (target : Option (BitVec 32)) :
    Arm.Instr → Arm.Instr
  | .addSubImm is64 sub shifted imm12 rn rd =>
      .addSubImm is64 sub shifted
        (target.elim imm12 fun t => (lk.address t).setWidth 12) rn rd
  | i => i

/-- The page of an address. -/
def page (a : BitVec 64) : BitVec 64 := a &&& ~~~0xFFF#64

/-- One place of the buffer, once the fixups are filled in. -/
def AsmState.step (lk : Link) (s : AsmState) (m : Arm.Machine)
    (p : CodeWord × Nat) : Arm.Machine :=
  match p.1 with
  | .insn i =>
      Arm.step m (withPageOffset lk
        (fixupAt s.external_fixups .arm64PageOffset12 (4 * p.2)) i)
  | .adrp rd =>
      (fixupAt s.external_fixups .arm64Page21 (4 * p.2)).elim m
        fun t => m.set rd (page (lk.address t))
  | .bl =>
      (fixupAt s._fixups .branch26 (4 * p.2)).elim m
        fun t => lk.routine t m

/-- The code of the buffer, once the fixups are filled in. -/
def AsmState.exec (lk : Link) (s : AsmState) (m : Arm.Machine) :
    Arm.Machine :=
  runCode (s.step lk) s.insn_buf.zipIdx m

namespace Asm

/-- `buf.emit`. -/
def emit (i : Arm.Instr) : Asm Unit :=
  Keep.modify fun s => { s with insn_buf := s.insn_buf ++ [.insn i] }

/-- Emit a list of instructions. -/
def emitAll (is : List Arm.Instr) : Asm Unit :=
  Keep.modify fun s =>
    { s with insn_buf := s.insn_buf ++ is.map CodeWord.insn }

/-- An instruction that a fixup completes. -/
def emitFixed (kind : FixupKind) (target : BitVec 32) (e : CodeWord) :
    Asm Unit :=
  Keep.modify fun s =>
    let fixup : Fixup := ⟨kind, s.bufEnd, target⟩
    if kind = .branch26 then
      { s with
        _fixups := s._fixups ++ [fixup]
        insn_buf := s.insn_buf ++ [e] }
    else
      { s with
        external_fixups := s.external_fixups ++ [fixup]
        insn_buf := s.insn_buf ++ [e] }

-- ================================================== scratch registers

/-- The lowest set bit of a mask. -/
def lowestBit (mask : BitVec 32) : Option Nat :=
  (List.range 32).find? fun r => mask.getLsbD r

/-- `alloc_free_gpr`: the lowest free register. -/
def alloc_free_gpr : Asm Nat := do
  let s ← Keep.get
  match lowestBit s.free_gpr_mask with
  | some r =>
      Keep.modify fun s =>
        { s with free_gpr_mask := s.free_gpr_mask &&& ~~~(1#32 <<< r) }
      pure r
  | none => Keep.fail

/-- `alloc_scratch_gpr`, which does the same. -/
def alloc_scratch_gpr : Asm Nat := alloc_free_gpr

/-- `alloc_gpr`: a register of the pool by its place there. -/
def alloc_gpr (pool_index : Nat) : Asm Nat := do
  let s ← Keep.get
  let reg := 22 + pool_index
  if s.free_gpr_mask.getLsbD reg then
    Keep.modify fun s =>
      { s with free_gpr_mask := s.free_gpr_mask &&& ~~~(1#32 <<< reg) }
    pure reg
  else Keep.fail

/-- `is_scratch_pool_reg`. -/
def is_scratch_pool_reg (reg : Nat) : Bool := kGprScratchMask.getLsbD reg

/-- `free_gpr`: only registers of the pool are given back. -/
def free_gpr (reg : Nat) : Asm Unit :=
  if is_scratch_pool_reg reg then
    Keep.modify fun s =>
      { s with free_gpr_mask := s.free_gpr_mask ||| (1#32 <<< reg) }
  else pure ()

-- ================================================== logical immediates

/-- `LogicalImmEncoding`. -/
structure LogicalImmEncoding where
  n : Bool
  immr : BitVec 6
  imms : BitVec 6
  deriving DecidableEq, Repr

/-- `__builtin_ctzll`. -/
def ctz (v : Nat) : Nat :=
  ((List.range 64).find? fun i => v.testBit i).getD 64

/-- `__builtin_clzll`, of a word that is not zero. -/
def clz (v : Nat) : Nat := 63 - Nat.log2 v

/-- Step 1 of `is_bitmask_immediate`: the smallest element the value
repeats. `fuel` bounds the halvings. -/
def elementSize (value : Nat) : (fuel : Nat) → Nat → Nat
  | 0, element_size => element_size
  | fuel + 1, element_size =>
      let half := element_size / 2
      if ((value >>> half) ^^^ value) % 2 ^ half ≠ 0 then element_size
      else if 2 < half then elementSize value fuel half
      else half

/-- A contiguous run of ones. -/
def isRun (x : Nat) : Bool :=
  let filled := (x - 1) ||| x
  (filled + 1) &&& filled = 0

/-- Step 3: the encoding of a run of ones and its rotation. -/
def encodeRun (element_size rotation run_len : Nat) :
    LogicalImmEncoding :=
  let imms_raw := (run_len - 1) ||| (0xFE * element_size % 256)
  { n := imms_raw &&& 0x40 = 0,
    immr := BitVec.ofNat 6
      ((element_size - rotation) &&& (element_size - 1)),
    imms := BitVec.ofNat 6 (imms_raw &&& 0x3F) }

/-- `is_bitmask_immediate`. -/
def is_bitmask_immediate (is_64bit : Bool) (value : BitVec 64) :
    Option LogicalImmEncoding :=
  let width := if is_64bit then 64 else 32
  let value := value.toNat % 2 ^ width
  -- zero and all ones have no encoding
  if (value + 1) % 2 ^ width < 2 then none
  else
    let element_size := elementSize value 6 width
    let element := value % 2 ^ element_size
    if element ≠ 0 ∧ isRun element then
      let rotation := ctz element
      let run_len := ctz ((2 ^ 64 - 1) ^^^ (element >>> rotation))
      some (encodeRun element_size rotation run_len)
    else
      -- not a run of ones: a run of zeros may do
      let zeros := (2 ^ element_size - 1) ^^^ element
      if zeros = 0 ∨ !isRun zeros then none
      else
        let lz := clz zeros
        let tz := ctz zeros
        some (encodeRun element_size (64 - lz)
          (lz + tz - (64 - element_size)))

-- ========================================================= immediates

/-- Sixteen bits of a value. -/
def chunk (v : BitVec 64) (i : Nat) : BitVec 16 :=
  (v >>> (16 * i)).setWidth 16

/-- The `MOVK`s for the chunks below `i`, down to `lo_chunk`, that are
not what the first move left there. -/
def movks (is_64bit : Bool) (v : BitVec 64) (trivial : BitVec 16)
    (lo_chunk reg : Nat) : Nat → List Arm.Instr
  | 0 => []
  | i + 1 =>
      (if lo_chunk ≤ i ∧ chunk v i ≠ trivial then
        [.moveWide is_64bit .movk (BitVec.ofNat 2 i) (chunk v i) reg]
      else []) ++ movks is_64bit v trivial lo_chunk reg i

/-- The moves that make up a value of two or four chunks. -/
def moveChunks (is_64bit : Bool) (v : BitVec 64) (reg : Nat) :
    List Arm.Instr :=
  let chunks := if is_64bit then 4 else 2
  let zeros := (List.range chunks).countP fun i => chunk v i = 0
  let ones := (List.range chunks).countP fun i => chunk v i = 0xFFFF
  let use_movz := ones ≤ zeros
  let working := if use_movz then v else ~~~v
  let nonzero := (List.range chunks).filter fun i => chunk working i ≠ 0
  let hi_chunk := nonzero.getLastD 0
  let lo_chunk := nonzero.headD 0
  let trivial : BitVec 16 := if use_movz then 0 else 0xFFFF
  .moveWide is_64bit (if use_movz then .movz else .movn)
      (BitVec.ofNat 2 hi_chunk) (chunk working hi_chunk) reg
    :: movks is_64bit v trivial lo_chunk reg hi_chunk

/-- The code of a value that is not zero at its width. -/
def immediateCode (is_64bit : Bool) (v : BitVec 64) (reg : Nat) :
    List Arm.Instr :=
  match is_bitmask_immediate is_64bit v with
  | some enc => [.orrImm is_64bit enc.n enc.immr enc.imms XZR reg]
  | none =>
      -- a 32-bit ORR zero-extends
      match if is_64bit && v >>> 32 = 0 then is_bitmask_immediate false v
          else none with
      | some enc => [.orrImm false enc.n enc.immr enc.imms XZR reg]
      | none => moveChunks is_64bit v reg

/-- The register asked for, or a free one. -/
def resultReg (dst_reg : Nat) : Asm Nat :=
  if dst_reg = XZR then alloc_scratch_gpr else pure dst_reg

/-- Emit the moves of a value, which may be zero at its width. -/
def emitValue (is_64bit : Bool) (v : BitVec 64) (reg : Nat) : Asm Unit :=
  if v = 0 then emit (.moveWide is_64bit .movz 0 0 reg)
  else emitAll (immediateCode is_64bit v reg)

/-- `emit_load_immediate`: the register that holds the value. -/
def emit_load_immediate (is_64bit : Bool) (value : BitVec 64)
    (dst_reg : Nat) : Asm Nat := do
  if value = 0 then
    pure XZR
  else
    let reg ← resultReg dst_reg
    emitValue is_64bit (Arm.narrow is_64bit value) reg
    pure reg

/-- `emit_load_immediate_no_xzr`. -/
def emit_load_immediate_no_xzr (is_64bit : Bool) (value : BitVec 64)
    (dst_reg : Nat) : Asm Unit := do
  let result_reg ← emit_load_immediate is_64bit value dst_reg
  if result_reg = XZR then
    emit (.moveWide is_64bit .movz 0 0 dst_reg)

-- ========================================================== addresses

/-- A displacement as the immediate of an `ADD` or `SUB`. -/
structure DispEncoding where
  isAdd : Bool
  shifted : Bool
  imm12 : BitVec 12
  deriving DecidableEq, Repr

/-- The first part of `compute_mem_operand_address`: may the displacement
be added as an immediate? -/
def dispEncoding (disp : BitVec 64) : Option DispEncoding :=
  if disp < 0x1000 then
    some ⟨true, false, disp.setWidth 12⟩
  else if disp &&& 0xFFFFFFFFFF000FFF = 0 then
    some ⟨true, true, (disp >>> 12).setWidth 12⟩
  else if -disp < 0x1000 then
    some ⟨false, false, (-disp).setWidth 12⟩
  else if -disp &&& 0xFFFFFFFFFF000FFF = 0 then
    some ⟨false, true, ((-disp) >>> 12).setWidth 12⟩
  else none

/-- The `emit_add_imm` of a displacement. -/
def addDisp (is_64bit : Bool) (e : DispEncoding) (rn rd : Nat) :
    Arm.Instr :=
  .addSubImm is_64bit (!e.isAdd) e.shifted e.imm12 rn rd

/-- The register of the result and the one the sum is built in: the
same, unless the caller names one outside the pool. -/
def scratchFor (dst_reg : Nat) : Asm (Nat × Nat) := do
  if is_scratch_pool_reg dst_reg then
    pure (dst_reg, dst_reg)
  else
    let alloc ← alloc_scratch_gpr
    pure (alloc, if dst_reg = XZR then alloc else dst_reg)

/-- Give an intermediate register back and return the result's. -/
def releaseInto (result_reg scratch_reg : Nat) : Asm Nat := do
  if result_reg ≠ scratch_reg then
    free_gpr result_reg
  pure scratch_reg

/-- The sum of base, index and displacement, built in `result_reg` and
left in `scratch_reg`. -/
def baseIndexSum (is_64bit : Bool) (operand : IROperand)
    (result_reg scratch_reg : Nat) : Asm Unit := do
  let base_idx := regIndex operand.baseReg
  let index_idx := regIndex operand.indexReg
  let shift := operand.shiftAmount.setWidth 6
  match dispEncoding operand.value with
  | some e =>
      emit (addDisp is_64bit e base_idx result_reg)
      emit (.addSubShifted is_64bit false index_idx shift result_reg
        scratch_reg)
  | none =>
      emit_load_immediate_no_xzr is_64bit operand.value result_reg
      emit (.addSubShifted is_64bit false index_idx shift result_reg
        result_reg)
      emit (.addSubShifted is_64bit false result_reg 0 base_idx
        scratch_reg)

/-- `compute_mem_operand_address`, case (3): base and index. -/
def baseIndexAddress (is_64bit : Bool) (operand : IROperand)
    (dst_reg : Nat) : Asm Nat := do
  if operand.value ≠ 0 then
    let (result_reg, scratch_reg) ← scratchFor dst_reg
    baseIndexSum is_64bit operand result_reg scratch_reg
    releaseInto result_reg scratch_reg
  else
    let result_reg ← resultReg dst_reg
    emit (.addSubShifted is_64bit false (regIndex operand.indexReg)
      (operand.shiftAmount.setWidth 6) (regIndex operand.baseReg)
      result_reg)
    pure result_reg

/-- Case (1): base only. -/
def baseAddress (is_64bit : Bool) (operand : IROperand)
    (dst_reg : Nat) : Asm Nat := do
  let base_idx := regIndex operand.baseReg
  if operand.value ≠ 0 then
    match dispEncoding operand.value with
    | none =>
        let (result_reg, scratch_reg) ← scratchFor dst_reg
        emit_load_immediate_no_xzr is_64bit operand.value result_reg
        emit (.addSubShifted is_64bit false result_reg 0 base_idx
          scratch_reg)
        releaseInto result_reg scratch_reg
    | some e =>
        let result_reg ← resultReg dst_reg
        emit (addDisp is_64bit e base_idx result_reg)
        pure result_reg
  else if !is_64bit then
    -- a W-form move zero-extends
    let result_reg ← resultReg dst_reg
    emit (.logicalReg false .orr base_idx XZR result_reg)
    pure result_reg
  else pure base_idx

/-- Case (2): index only. -/
def indexAddress (is_64bit : Bool) (operand : IROperand)
    (dst_reg : Nat) : Asm Nat := do
  let index_idx := regIndex operand.indexReg
  let shift := operand.shiftAmount.toNat
  if operand.value ≠ 0 then
    let (disp_reg, result_reg) ← scratchFor dst_reg
    emit_load_immediate_no_xzr is_64bit operand.value disp_reg
    emit (.addSubShifted is_64bit false index_idx
      (operand.shiftAmount.setWidth 6) disp_reg result_reg)
    releaseInto disp_reg result_reg
  else if shift ≠ 0 then
    let result_reg ← resultReg dst_reg
    let reg_width := if is_64bit then 64 else 32
    -- LSL is a UBFM
    emit (.bitfield is_64bit false (BitVec.ofNat 6 (reg_width - shift))
      (BitVec.ofNat 6 (reg_width - shift - 1)) index_idx result_reg)
    pure result_reg
  else if is_64bit then pure index_idx
  else
    let result_reg ← resultReg dst_reg
    emit (.logicalReg false .orr index_idx XZR result_reg)
    pure result_reg

/-- Case (0): displacement only. -/
def dispAddress (is_64bit : Bool) (operand : IROperand)
    (dst_reg : Nat) : Asm Nat := do
  if operand.value ≠ 0 then
    emit_load_immediate is_64bit operand.value dst_reg
  else
    let result_reg ← resultReg dst_reg
    emit (.moveWide false .movz 0 0 result_reg)
    pure result_reg

/-- `compute_mem_operand_address`. -/
def compute_mem_operand_address (is_64bit : Bool) (operand : IROperand)
    (dst_reg : Nat) : Asm Nat :=
  if operand.hasBase then
    if operand.hasIndex then baseIndexAddress is_64bit operand dst_reg
    else baseAddress is_64bit operand dst_reg
  else
    if operand.hasIndex then indexAddress is_64bit operand dst_reg
    else dispAddress is_64bit operand dst_reg

/-- An absolute address. -/
def absoluteAddress (is_64bit : Bool) (op : IROperand) (dst_reg : Nat) :
    Asm Nat := do
  let out_reg ← resultReg dst_reg
  emit_load_immediate_no_xzr is_64bit op.value out_reg
  pure out_reg

/-- The target an `Immediate` operand is fixed up with. -/
def fixupTarget (op : IROperand) : BitVec 32 :=
  if op.memFlags ≠ 0 then op.value.setWidth 32 else 0

/-- The addend that an `Immediate` operand adds at run time. -/
def addRuntime (is_64bit : Bool) (op : IROperand) (out_reg : Nat) :
    Asm Unit := do
  if op.hasBase then pure ()
  else
    let addend_reg ← alloc_scratch_gpr
    emit_load_immediate_no_xzr true op.value addend_reg
    emit (.addSubShifted is_64bit false addend_reg 0 out_reg out_reg)
    free_gpr addend_reg

/-- The address of an `Immediate` operand: `ADRP` and `ADD`, and an
addend unless bit 0 of `mem_flags` says that the target has it. -/
def immediateAddress (is_64bit : Bool) (op : IROperand) (dst_reg : Nat) :
    Asm Nat := do
  let out_reg ← resultReg dst_reg
  emitFixed .arm64Page21 (fixupTarget op) (.adrp out_reg)
  emitFixed .arm64PageOffset12 (fixupTarget op)
    (.insn (.addSubImm is_64bit false false 0 out_reg out_reg))
  addRuntime is_64bit op out_reg
  pure out_reg

/-- The dispatch of `compute_operand_address` on the operand's kind. -/
def kindAddress (addr_size_is_64 : Bool) (op : IROperand)
    (dst_reg : Nat) : Asm Nat :=
  match op.kind with
  | .memRef => compute_mem_operand_address addr_size_is_64 op dst_reg
  | .absMem => absoluteAddress addr_size_is_64 op dst_reg
  | .immediate => immediateAddress addr_size_is_64 op dst_reg
  | _ => Keep.fail

/-- FS: its base is a word of the thread context, which X18 points to. -/
def addFsBase (addr_size_is_64 : Bool) (seg_reg inner_reg : Nat) :
    Asm Unit := do
  let s ← Keep.get
  emit (.ldr false ((s.process.field_8 >>> 2).setWidth 12) 18 seg_reg)
  emit (.addSubShifted addr_size_is_64 false inner_reg 0 seg_reg seg_reg)

/-- The base of GS where `get_tls_base` has left it, or left a pointer
to it. -/
def addTlsBase (tls_tmp seg_reg inner_reg : Nat) : Asm Unit := do
  let s ← Keep.get
  if s.process.translator_variant = 1 then
    emit (.ldr true 6 tls_tmp seg_reg)
    emit (.addSubShifted true false inner_reg 0 seg_reg seg_reg)
  else
    emit (.addSubShifted true false inner_reg 0 tls_tmp seg_reg)

/-- GS: its base comes from the runtime, in X29. -/
def addGsBase (seg_reg inner_reg : Nat) : Asm Unit := do
  let tls_tmp ← alloc_gpr 7
  emitFixed .branch26 kRuntimeRoutine_get_tls_base .bl
  addTlsBase tls_tmp seg_reg inner_reg
  free_gpr tls_tmp

/-- The base of the segment and the offset, in `seg_reg`. -/
def addSegmentBase (addr_size_is_64 : Bool) (seg_override : BitVec 8)
    (seg_reg inner_reg : Nat) : Asm Unit :=
  if seg_override = 1 then addFsBase addr_size_is_64 seg_reg inner_reg
  else if seg_override = 2 then addGsBase seg_reg inner_reg
  else Keep.fail

/-- The offset is not needed any more. -/
def releaseInner (inner_reg dst_reg : Nat) : Asm Unit :=
  if inner_reg ≠ dst_reg then free_gpr inner_reg else pure ()

/-- `compute_operand_address`: the width is the operand's own address
size, if the caller allows 64 bits at all. With a segment it calls itself
on the operand without one; that call comes to `kindAddress` at the same
width. -/
def compute_operand_address (is_64bit : Bool) (op : IROperand)
    (dst_reg : Nat) : Asm Nat := do
  let addr_size_is_64 := is_64bit && op.reg = 3
  if op.segOverride = 0 then kindAddress addr_size_is_64 op dst_reg
  else
    let inner_reg ← kindAddress (addr_size_is_64 && op.reg = 3)
      { op with segOverride := 0 } dst_reg
    let seg_reg ← alloc_scratch_gpr
    addSegmentBase addr_size_is_64 op.segOverride seg_reg inner_reg
    releaseInner inner_reg dst_reg
    pure seg_reg

end Asm

end X87Sidecar
