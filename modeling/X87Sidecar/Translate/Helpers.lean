/-
The code of the stack helpers (`TranslatorX87Helpers.cpp`): what the units
of `Translate.Code` are made of.

The x87 state stands at an offset from the thread register: the control,
status and tag words, and behind them the slots, eight bytes each from +8
on, or ten bytes each from +6 on in Rosetta's own layout. Only the low
eight bytes of a slot hold a double.

Register numbers come from the allocators and are parameters; `Places`
says which register has which of the values that `Translate.Code` names.
-/
import X87Sidecar.Lib.Assign
import X87Sidecar.Translate.Emit
import X87Sidecar.Translate.Fist

namespace X87Sidecar.Helpers

open Lib Lib.Cpu Lines

-- ======================================================== instructions

/-- An instruction, or an access of a floating-point register at a
register offset, which the index scales under `shift`. -/
inductive Instr
  | cpu (i : Cpu.Op)
  /-- `LDR` of `2 ^ size` bytes -/
  | ldrFp (size rm : Nat) (shift : Bool) (rn rt : Nat)
  /-- `STR` of `2 ^ size` bytes -/
  | strFp (size rm : Nat) (shift : Bool) (rn rt : Nat)

/-- Straight-line code. -/
abbrev Code := List Instr

/-- The address of an access at a register offset. -/
def address (c : Cpu) (size rm : Nat) (shift : Bool) (rn : Nat) :
    BitVec 64 :=
  c.regSp rn + c.reg rm <<< (if shift then size else 0)

/-- One instruction. -/
def step (c : Cpu) : Instr → Cpu
  | .cpu i => Cpu.step c i
  | .ldrFp size rm shift rn rt =>
      c.setD rt (c.load size (address c size rm shift rn))
  | .strFp size rm shift rn rt =>
      c.setMem (c.mem.store (address c size rm shift rn) (2 ^ size)
        ((c.d rt).setWidth _))

/-- Run code. -/
abbrev run (code : Code) (c : Cpu) : Cpu := runCode step code c

/-- A line that is an instruction. -/
def ofLine : Line Fist.NoLabel → Option Instr
  | .insn i => some (.cpu i)
  | _ => none

/-- Lines without branches as code. -/
def lines (l : List (Line Fist.NoLabel)) : Code := l.filterMap ofLine

/-- `emit_ldr_str_reg` of a floating-point register. -/
def emit_ldr_str_reg (size : Nat) (store : Bool) (Rm : Nat) (shift : Bool)
    (Rn Rt : Nat) : Instr :=
  if store then .strFp size Rm shift Rn Rt else .ldrFp size Rm shift Rn Rt

-- =========================================================== addresses

/-- `kX87ThreadReg` -/
def kX87ThreadReg : Nat := 18

/-- `kX87NativeSlotOff` -/
def kX87NativeSlotOff : BitVec 12 := 6

/-- `kX87RegFileOff` -/
def kX87RegFileOff : BitVec 12 := 8

/-- `kX87StatusWordImm12` and `kX87TagWordImm12` -/
def kX87StatusWordImm12 : BitVec 12 := 1

def kX87TagWordImm12 : BitVec 12 := 2

/-- `emit_x87_base`. -/
def emit_x87_base (offset Xd : Nat) : List (Line Fist.NoLabel) :=
  if offset ≤ 0xFFF then
    [emit_add_imm true false false false (BitVec.ofNat 12 offset)
      kX87ThreadReg Xd]
  else if offset % 0x1000 = 0 then
    [emit_add_imm true false false true (BitVec.ofNat 12 (offset / 0x1000))
      kX87ThreadReg Xd]
  else
    [emit_add_imm true false false true (BitVec.ofNat 12 (offset / 0x1000))
      kX87ThreadReg Xd,
     emit_add_imm true false false false
      (BitVec.ofNat 12 (offset % 0x1000)) Xd Xd]

/-- `use_x18_direct` of `emit_load_top`. -/
def useX18Direct (offset : Nat) : Bool :=
  (offset + 2) % 2 = 0 && offset + 2 ≤ 0x1FFE

/-- `emit_load_top`. -/
def emit_load_top (offset Xbase Wd_top : Nat) :
    List (Line Fist.NoLabel) :=
  [emit_ldr_imm 1 Wd_top
     (if useX18Direct offset then kX87ThreadReg else Xbase)
     (if useX18Direct offset then BitVec.ofNat 12 ((offset + 2) / 2)
      else kX87StatusWordImm12),
   emit_bitfield false .ubfm 11 13 Wd_top Wd_top]

/-- `emit_store_top`. -/
def emit_store_top (Xbase Wd_new_top Wd_tmp : Nat) :
    List (Line Fist.NoLabel) :=
  [emit_ldr_imm 1 Wd_tmp Xbase kX87StatusWordImm12,
   emit_bitfield false .bfm 21 2 Wd_new_top Wd_tmp,
   emit_str_imm 1 Wd_tmp Xbase kX87StatusWordImm12]

/-- `emit_phys_index`. -/
def emit_phys_index (Wd_top : Nat) (stack_depth : Depth) (Wd_out : Nat) :
    List (Line Fist.NoLabel) :=
  if stack_depth = 0 then
    if Wd_out ≠ Wd_top then [emit_mov_reg false Wd_out Wd_top] else []
  else
    [emit_add_imm false false false false (stack_depth.setWidth 12) Wd_top
       Wd_out,
     emit_logical_imm false .and false 0 2 Wd_out Wd_out]

/-- `emit_native_slot_key`. -/
def emit_native_slot_key (Wd_top : Nat) (stack_depth : Depth)
    (Wd_key : Nat) : List (Line Fist.NoLabel) :=
  (if stack_depth ≠ 0 then
    [emit_add_imm false false false false (stack_depth.setWidth 12) Wd_top
      Wd_key]
  else [])
    ++ [emit_bitfield false .ubfm 31 2
          (if stack_depth ≠ 0 then Wd_key else Wd_top) Wd_key,
        emit_add_sub_shifted_reg false false false .lsl Wd_key 2 Wd_key
          Wd_key]

/-- `emit_native_st_key`; its register is `Wd_tmp`. -/
def emit_native_st_key (Wd_top : Nat) (stack_depth : Depth) (Wd_tmp : Nat)
    (Xbase_st : Option Nat) : List (Line Fist.NoLabel) :=
  emit_native_slot_key Wd_top stack_depth Wd_tmp
    ++ if Xbase_st.isNone then
        [emit_add_imm false false false false kX87NativeSlotOff Wd_tmp
          Wd_tmp]
      else []

/-- `emit_native_st_addr`. -/
def emit_native_st_addr (Xbase Wd_top : Nat) (stack_depth : Depth)
    (Xd : Nat) (Xbase_st : Option Nat) : List (Line Fist.NoLabel) :=
  emit_native_st_key Wd_top stack_depth Xd Xbase_st
    ++ [emit_add_sub_shifted_reg true false false .lsl Xd 0
      (Xbase_st.getD Xbase) Xd]

/-- The key of a slot access: the code that computes it and its register.
`g_x87_native_layout` is `native`. -/
def stKey (native : Bool) (Wd_top : Nat) (stack_depth : Depth)
    (Wd_tmp : Nat) (Xbase_st : Option Nat) :
    List (Line Fist.NoLabel) × Nat :=
  if native then
    (emit_native_st_key Wd_top stack_depth Wd_tmp Xbase_st, Wd_tmp)
  else if Xbase_st.isSome then
    -- TOP's register is the index itself
    if stack_depth = 0 then ([], Wd_top)
    else (emit_phys_index Wd_top stack_depth Wd_tmp, Wd_tmp)
  else
    (emit_phys_index Wd_top stack_depth Wd_tmp
      ++ [emit_bitfield false .ubfm 29 28 Wd_tmp Wd_tmp,
          emit_add_imm false false false false kX87RegFileOff Wd_tmp
            Wd_tmp], Wd_tmp)

/-- The access of a slot at its key. -/
def stAccess (native store : Bool) (Xbase Wd_key Dd : Nat)
    (Xbase_st : Option Nat) : Instr :=
  emit_ldr_str_reg 3 store Wd_key (!native && Xbase_st.isSome)
    (Xbase_st.getD Xbase) Dd

/-- `emit_load_st`, and the register of the key. -/
def emit_load_st (native : Bool) (Xbase Wd_top : Nat)
    (stack_depth : Depth) (Wd_tmp Dd : Nat) (Xbase_st : Option Nat) :
    Code × Nat :=
  let key := stKey native Wd_top stack_depth Wd_tmp Xbase_st
  (lines key.1 ++ [stAccess native false Xbase key.2 Dd Xbase_st], key.2)

/-- `emit_store_st`. -/
def emit_store_st (native : Bool) (Xbase Wd_top : Nat)
    (stack_depth : Depth) (Wd_tmp Dd : Nat) (Xbase_st : Option Nat) :
    Code :=
  let key := stKey native Wd_top stack_depth Wd_tmp Xbase_st
  lines key.1 ++ [stAccess native true Xbase key.2 Dd Xbase_st]

/-- `emit_store_st_at_offset`. -/
def emit_store_st_at_offset (native : Bool) (Xbase Wd_key Dd : Nat)
    (Xbase_st : Option Nat) : Code :=
  [stAccess native true Xbase Wd_key Dd Xbase_st]

/-- `emit_native_slot_image`. -/
def emit_native_slot_image (Xbase Wd_top : Nat) (stack_depth : Depth)
    (Wd_tmp Dd Hd : Nat) (Xbase_st : Option Nat) (store : Bool) : Code :=
  lines (emit_native_st_key Wd_top stack_depth Wd_tmp Xbase_st)
    ++ [emit_ldr_str_reg 3 store Wd_tmp false (Xbase_st.getD Xbase) Dd]
    ++ lines [emit_add_imm false false false false 8 Wd_tmp Wd_tmp]
    ++ [emit_ldr_str_reg 1 store Wd_tmp false (Xbase_st.getD Xbase) Hd]

-- ======================================================== TOP and tags

/-- `(TOP + n) & 7`, or `(TOP - n) & 7` under `is_sub`: the two lines of
`emit_x87_push_fully_deferred`, `emit_x87_pop_top_only` and of all that
move TOP. -/
def emit_top_step (is_sub : Bool) (n : BitVec 12) (Wd_top : Nat) :
    List (Line Fist.NoLabel) :=
  [emit_add_imm false is_sub false false n Wd_top Wd_top,
   emit_logical_imm false .and false 0 2 Wd_top Wd_top]

/-- `emit_x87_push_fully_deferred`. -/
def emit_x87_push_fully_deferred (Wd_top : Nat) :
    List (Line Fist.NoLabel) :=
  emit_top_step true 1 Wd_top

/-- `emit_x87_pop_top_only`. -/
def emit_x87_pop_top_only (Wd_top : Nat) : List (Line Fist.NoLabel) :=
  emit_top_step false 1 Wd_top

/-- The tag mask at a bit position: `MOVZ` and `LSLV`. -/
def emit_tag_mask (Wd_pos Wd_mask : Nat) : List (Line Fist.NoLabel) :=
  [emit_movz false 0 3 Wd_mask, emit_lslv false Wd_pos Wd_mask Wd_mask]

/-- The tag word changed by a mask: `LDRH`, `BIC` or `ORR`, `STRH`. -/
def emit_tag_rmw (clear : Bool) (Xbase Wd_mask Wd_tw : Nat) :
    List (Line Fist.NoLabel) :=
  [emit_ldr_imm 1 Wd_tw Xbase kX87TagWordImm12,
   emit_logical_shifted_reg false (if clear then .and else .orr) clear .lsl
     Wd_mask 0 Wd_tw Wd_tw,
   emit_str_imm 1 Wd_tw Xbase kX87TagWordImm12]

/-- `emit_x87_tag_clear`. -/
def emit_x87_tag_clear (Xbase Wd_top Wd_tmp Wd_tmp2 : Nat) :
    List (Line Fist.NoLabel) :=
  [emit_bitfield false .ubfm 31 30 Wd_top Wd_tmp2]
    ++ emit_tag_mask Wd_tmp2 Wd_tmp
    ++ emit_tag_rmw true Xbase Wd_tmp Wd_tmp2

/-- The bit position of a slot's tag: from TOP itself, or through `ADD`
and `AND`. -/
def emit_tag_position (Wd_top : Nat) (n : BitVec 12) (Wd_pos : Nat) :
    List (Line Fist.NoLabel) :=
  if n = 0 then [emit_bitfield false .ubfm 31 30 Wd_top Wd_pos]
  else
    [emit_add_imm false false false false n Wd_top Wd_pos,
     emit_logical_imm false .and false 0 2 Wd_pos Wd_pos,
     emit_bitfield false .ubfm 31 30 Wd_pos Wd_pos]

/-- A slot's tag set empty: the body of the loop of `emit_x87_pop_n`, the
head of `emit_x87_pop` and the body of `translate_ffree`. -/
def emit_tag_set_empty (Xbase Wd_top : Nat) (n : BitVec 12)
    (Wd_mask Wd_pos : Nat) : List (Line Fist.NoLabel) :=
  emit_tag_position Wd_top n Wd_pos ++ emit_tag_mask Wd_pos Wd_mask
    ++ emit_tag_rmw false Xbase Wd_mask Wd_pos

/-- The tag updates of `emit_x87_pop_n`. -/
def emit_tag_set_empty_next (Xbase Wd_top Wd_tmp Wd_tmp2 n : Nat) :
    List (Line Fist.NoLabel) :=
  (List.range n).flatMap fun i =>
    emit_tag_set_empty Xbase Wd_top (BitVec.ofNat 12 i) Wd_tmp Wd_tmp2

/-- One round of the loop of `emit_x87_tag_set_empty_batch`. -/
def emit_tag_batch_round (Wd_top : Nat) (offset_from_top : BitVec 12)
    (Wd_tmp Wd_tmp2 Wd_tagw : Nat) : List (Line Fist.NoLabel) :=
  [emit_add_imm false true false false offset_from_top Wd_top Wd_tmp,
   emit_logical_imm false .and false 0 2 Wd_tmp Wd_tmp,
   emit_bitfield false .ubfm 31 30 Wd_tmp Wd_tmp]
    ++ emit_tag_mask Wd_tmp Wd_tmp2
    ++ [emit_logical_shifted_reg false .orr false .lsl Wd_tmp2 0 Wd_tagw
      Wd_tagw]

/-- `emit_x87_tag_set_empty_batch`. -/
def emit_x87_tag_set_empty_batch
    (Xbase Wd_top Wd_tmp Wd_tmp2 Wd_tagw count : Nat) :
    List (Line Fist.NoLabel) :=
  [emit_ldr_imm 1 Wd_tagw Xbase kX87TagWordImm12]
    ++ (List.range count).flatMap (fun i =>
      emit_tag_batch_round Wd_top (BitVec.ofNat 12 (count - i)) Wd_tmp
        Wd_tmp2 Wd_tagw)
    ++ [emit_str_imm 1 Wd_tagw Xbase kX87TagWordImm12]

/-- `emit_x87_push`. -/
def emit_x87_push (Xbase Wd_top Wd_tmp Wd_tmp2 : Nat) :
    List (Line Fist.NoLabel) :=
  emit_top_step true 1 Wd_top ++ emit_store_top Xbase Wd_top Wd_tmp
    ++ emit_x87_tag_clear Xbase Wd_top Wd_tmp Wd_tmp2

/-- `emit_x87_pop`. -/
def emit_x87_pop (Xbase Wd_top Wd_tmp Wd_tmp2 : Nat) :
    List (Line Fist.NoLabel) :=
  emit_tag_set_empty Xbase Wd_top 0 Wd_tmp Wd_tmp2
    ++ emit_top_step false 1 Wd_top ++ emit_store_top Xbase Wd_top Wd_tmp

/-- `emit_x87_pop_n_deferred`. -/
def emit_x87_pop_n_deferred (Xbase Wd_top Wd_tmp Wd_tmp2 n : Nat) :
    List (Line Fist.NoLabel) :=
  emit_tag_set_empty_next Xbase Wd_top Wd_tmp Wd_tmp2 n
    ++ emit_top_step false (BitVec.ofNat 12 n) Wd_top

/-- `emit_x87_pop_n`. -/
def emit_x87_pop_n (Xbase Wd_top Wd_tmp Wd_tmp2 n : Nat) :
    List (Line Fist.NoLabel) :=
  emit_x87_pop_n_deferred Xbase Wd_top Wd_tmp Wd_tmp2 n
    ++ emit_store_top Xbase Wd_top Wd_tmp

/-- `emit_fcom_cc_write_sw`. -/
def emit_fcom_cc_write_sw (Xbase Wd_packed Wd_sw : Nat) :
    List (Line Fist.NoLabel) :=
  [emit_ldr_imm 1 Wd_sw Xbase kX87StatusWordImm12,
   emit_bitfield false .bfm 24 2 XZR Wd_sw,
   emit_bitfield false .bfm 18 0 XZR Wd_sw,
   emit_logical_shifted_reg false .orr false .lsl Wd_packed 0 Wd_sw Wd_sw,
   emit_str_imm 1 Wd_sw Xbase kX87StatusWordImm12]

/-- `translate_fxam`, the tag of the slot at TOP. -/
def emit_load_tag (Xbase Wd_top Wd_a Wd_b : Nat) :
    List (Line Fist.NoLabel) :=
  [emit_ldr_imm 1 Wd_a Xbase kX87TagWordImm12,
   emit_bitfield false .ubfm 31 30 Wd_top Wd_b,
   .insn (.shiftBy false .lsr Wd_b Wd_a Wd_a),
   emit_logical_imm false .and false 0 1 Wd_a Wd_a]

end X87Sidecar.Helpers
