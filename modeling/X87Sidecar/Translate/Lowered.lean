/-
A stretch of units as instructions.

`Translate.Code` runs on a machine whose values have names; the translator
writes instructions on registers that its allocators hand out. Going over a
stretch, `lower` picks the helper of each unit and keeps book of which
register has which value: a register written loses what it had.

Guest memory, guest registers and arithmetic are not the helpers'. A piece
of code that does one of those computations comes with what it does to the
machine.
-/
import X87Sidecar.Translate.Helpers
import X87Sidecar.Translate.Run

namespace X87Sidecar.Helpers

open Lib Lib.Cpu Lines

-- ========================================================== registers

/-- What stays for a whole run: the layout of the slots, the offset of the
state from the thread register, the registers of the base and of TOP, the
pinned address of the slots, and the registers the translator may use. -/
structure Regs where
  native : Bool
  offset : Nat
  base : Nat
  top : Nat
  st : Option Nat
  /-- the scratch registers, `base`, `top` and `st` among them -/
  pool : List Nat
  /-- the floating-point scratch registers -/
  fpool : List Nat

/-- The registers that no unit may take for itself. -/
def Regs.reserved (ρ : Regs) : List Nat :=
  [31, kX87ThreadReg, ρ.base, ρ.top] ++ ρ.st.toList

/-- Where a ten-byte image is: in two floating-point registers, or in two
integer registers. -/
inductive Holder
  | fp (d h : Nat)
  | gpr (x w : Nat)

/-- The registers a unit takes for itself. -/
structure Temps where
  tmp : Nat
  tmp2 : Nat
  tagw : Nat
  /-- the pairs of a permutation flush -/
  dSave : Nat
  hSave : Nat
  dChain : Nat
  hChain : Nat
  /-- the register of a value that is loaded -/
  dst : Nat
  /-- the registers of an image that is loaded -/
  image : Holder
  /-- how TOP is moved: the constant, and whether it is subtracted -/
  sub : Bool
  amount : BitVec 12

/-- The registers of an image are its own. -/
def Holder.apart (ρ : Regs) (t : Temps) : Holder → Prop
  | .fp d h => d ≠ h ∧ d ∈ ρ.fpool ∧ h ∈ ρ.fpool
  | .gpr x w =>
      (ρ.reserved ++ [t.tmp, x, w]).Nodup ∧ x ∈ ρ.pool ∧ w ∈ ρ.pool

/-- No register of a unit is another's, and all are the translator's. -/
structure Temps.Apart (ρ : Regs) (t : Temps) : Prop where
  gprs : (ρ.reserved ++ [t.tmp, t.tmp2, t.tagw]).Nodup
  fprs : [t.dSave, t.hSave, t.dChain, t.hChain].Nodup
  image : t.image.apart ρ t
  pool : [ρ.top, t.tmp, t.tmp2, t.tagw] ⊆ ρ.pool
  fpool : [t.dSave, t.hSave, t.dChain, t.hChain] ⊆ ρ.fpool

-- ============================================================= places

/-- Which register has which value. -/
structure Places where
  /-- is TOP in its register? -/
  top : Bool
  /-- integer registers -/
  x : Assign Nat Nat
  /-- those that are known to hold condition codes and nothing else -/
  cc : Nat → Bool
  /-- doubles -/
  d : Assign Nat Nat
  /-- keys -/
  key : Assign Nat Nat
  /-- images -/
  q : Assign Nat Holder
  /-- the slot taken into a rotation, and its last two bytes where they
  are taken along -/
  hold : Option (Nat × Option Nat)

/-- Nothing is in a register. -/
def Places.empty : Places where
  top := false
  x := Assign.none
  cc _ := false
  d := Assign.none
  key := Assign.none
  q := Assign.none
  hold := none

/-- Does an image use one of these registers? -/
def Holder.uses (ws ds : List Nat) : Holder → Bool
  | .fp d h => ds.contains d || ds.contains h
  | .gpr x w => ws.contains x || ws.contains w

/-- Some registers were written. -/
def Places.wrote (P : Places) (ws ds : List Nat) : Places :=
  { P with
    x := P.x.drop ws.contains
    d := P.d.drop ds.contains
    key := P.key.drop ws.contains
    q := P.q.drop (·.uses ws ds)
    hold := P.hold.filter fun p =>
      !ds.contains p.1 && !p.2.any ds.contains }

/-- An integer was loaded. -/
def Places.loadX (P : Places) (x r : Nat) : Places :=
  { P with x := P.x.put x r, cc := Function.update P.cc x false }

-- =========================================================== the units

/-- The load and the store of an image through its address: the copies of
`translate_fsave` and `translate_frstor`. -/
def emit_image_at (ρ : Regs) (d : Depth) (Xaddr x w : Nat) (store : Bool) :
    Code :=
  lines (emit_native_st_addr ρ.base ρ.top d Xaddr ρ.st ++
    if store then [emit_str_imm 3 x Xaddr 0, emit_str_imm 1 w Xaddr 4]
    else [emit_ldr_imm 3 x Xaddr 0, emit_ldr_imm 1 w Xaddr 4])

/-- An image loaded or stored. -/
def emit_image (ρ : Regs) (t : Temps) (d : Depth) (store : Bool) :
    Holder → Code
  | .fp dd hd =>
      emit_native_slot_image ρ.base ρ.top d t.tmp dd hd ρ.st store
  | .gpr x w => emit_image_at ρ d t.tmp x w store

/-- The registers written by the load of an image. -/
def Holder.written : Holder → List Nat × List Nat
  | .fp d h => ([], [d, h])
  | .gpr x w => ([x, w], [])

/-- A slot loaded for a permutation flush. -/
def emit_take (ρ : Regs) (image : Bool) (d : Depth) (tmp dd hd : Nat) :
    Code :=
  if image then
    emit_native_slot_image ρ.base ρ.top d tmp dd hd ρ.st false
  else (emit_load_st ρ.native ρ.base ρ.top d tmp dd ρ.st).1

/-- And stored. -/
def emit_give (ρ : Regs) (image : Bool) (d : Depth) (tmp dd hd : Nat) :
    Code :=
  if image then
    emit_native_slot_image ρ.base ρ.top d tmp dd hd ρ.st true
  else emit_store_st ρ.native ρ.base ρ.top d tmp dd ρ.st

/-- The helper of a unit and the places behind it, if what it reads is in
registers. -/
def lower (ρ : Regs) (t : Temps) (P : Places) : Insn → Option (Code × Places)
  | .loadTop =>
      some (lines (emit_load_top ρ.offset ρ.base ρ.top),
        { P.wrote [ρ.top] [] with top := true })
  | .storeTop =>
      if P.top then
        some (lines (emit_store_top ρ.base ρ.top t.tmp),
          P.wrote [t.tmp] [])
      else none
  | .addTop k =>
      if P.top ∧ k = (if t.sub then -(t.amount.setWidth 3)
          else t.amount.setWidth 3) then
        some (lines (emit_top_step t.sub t.amount ρ.top),
          P.wrote [ρ.top] [])
      else none
  | .zeroTop =>
      some (lines [emit_movz false 0 0 ρ.top],
        { P.wrote [ρ.top] [] with top := true })
  | .topOfX x =>
      (P.x x).map fun r =>
        (lines [emit_bitfield false .ubfm 11 13 r ρ.top],
          { P.wrote [ρ.top] [] with top := true })
  | .tagClear =>
      if P.top then
        some (lines (emit_x87_tag_clear ρ.base ρ.top t.tmp t.tmp2),
          P.wrote [t.tmp, t.tmp2] [])
      else none
  | .tagSetEmpty d =>
      if P.top then
        some (lines (emit_tag_set_empty ρ.base ρ.top (d.setWidth 12) t.tmp
            t.tmp2),
          P.wrote [t.tmp, t.tmp2] [])
      else none
  | .tagSetEmptyBatch n =>
      if P.top then
        some (lines (emit_x87_tag_set_empty_batch ρ.base ρ.top t.tmp t.tmp2
            t.tagw n),
          P.wrote [t.tmp, t.tmp2, t.tagw] [])
      else none
  | .tagSetEmptyNext n =>
      if P.top then
        some (lines (emit_tag_set_empty_next ρ.base ρ.top t.tmp t.tmp2 n),
          P.wrote [t.tmp, t.tmp2] [])
      else none
  | .ldSt d k r =>
      if P.top ∧ t.dst ∈ ρ.fpool then
        let load := emit_load_st ρ.native ρ.base ρ.top d t.tmp t.dst ρ.st
        let P' := P.wrote [t.tmp] [t.dst]
        some (load.1,
          { P' with d := P'.d.put r t.dst, key := P'.key.put k load.2 })
      else none
  | .stSt d r =>
      if P.top then
        (P.d r).map fun dd =>
          (emit_store_st ρ.native ρ.base ρ.top d t.tmp dd ρ.st,
            P.wrote [t.tmp] [])
      else none
  | .stKey k r =>
      (P.key k).bind fun kr => (P.d r).map fun dd =>
        (emit_store_st_at_offset ρ.native ρ.base kr dd ρ.st, P)
  | .ldImage d q =>
      if ρ.native ∧ P.top then
        let written := t.image.written
        let P' := P.wrote (t.tmp :: written.1) written.2
        some (emit_image ρ t d false t.image,
          { P' with q := P'.q.put q t.image })
      else none
  | .stImage d q =>
      if ρ.native ∧ P.top then
        (P.q q).bind fun holder =>
          if holder.uses [t.tmp] [] then none
          else some (emit_image ρ t d true holder, P.wrote [t.tmp] [])
      else none
  | .save image d =>
      if P.top ∧ (image → ρ.native) then
        some (emit_take ρ image d t.tmp t.dSave t.hSave,
          { P.wrote [t.tmp] [t.dSave, t.hSave] with
            hold := some (t.dSave, if image then some t.hSave else none) })
      else none
  | .move image dst src =>
      if P.top ∧ (image → ρ.native) then
        some (emit_take ρ image src t.tmp t.dChain t.hChain
            ++ emit_give ρ image dst t.tmp t.dChain t.hChain,
          P.wrote [t.tmp] [t.dChain, t.hChain])
      else none
  | .restore image d =>
      if P.top ∧ (image → ρ.native) then
        P.hold.bind fun p =>
          if image ∧ p.2.isNone then none
          else some (emit_give ρ image d t.tmp p.1 (p.2.getD p.1),
            P.wrote [t.tmp] [])
      else none
  | .ldSw x =>
      if t.dst ∈ ρ.pool ∧ t.dst ∉ ρ.reserved then
        some (lines [emit_ldr_imm 1 t.dst ρ.base kX87StatusWordImm12],
          (P.wrote [t.dst] []).loadX x t.dst)
      else none
  | .stSw x =>
      (P.x x).map fun r =>
        (lines [emit_str_imm 1 r ρ.base kX87StatusWordImm12], P)
  | .ldTw x =>
      if t.dst ∈ ρ.pool ∧ t.dst ∉ ρ.reserved then
        some (lines [emit_ldr_imm 1 t.dst ρ.base kX87TagWordImm12],
          (P.wrote [t.dst] []).loadX x t.dst)
      else none
  | .stTw x =>
      (P.x x).map fun r =>
        (lines [emit_str_imm 1 r ρ.base kX87TagWordImm12], P)
  | .ldTag x =>
      if P.top then
        some (lines (emit_load_tag ρ.base ρ.top t.tmp t.tmp2),
          (P.wrote [t.tmp, t.tmp2] []).loadX x t.tmp)
      else none
  | .ldTop x => if P.top then some ([], P.loadX x ρ.top) else none
  | .ccWrite x =>
      if P.cc x then
        (P.x x).bind fun r =>
          if r = t.tmp then none
          else some (lines (emit_fcom_cc_write_sw ρ.base r t.tmp),
            P.wrote [t.tmp] [])
      else none
  | .compute _ => none

-- ========================================================= a stretch

/-- A unit with its registers, or a computation with the code that does it
and the places behind that code, if what it reads is in registers. -/
inductive Piece
  | unit (i : Insn) (t : Temps)
  | block (f : Guest → Scratch → Guest × Scratch) (body : Cpu → Cpu)
      (after : Places → Option Places)

/-- The unit of a piece. -/
def Piece.insn : Piece → Insn
  | .unit i _ => i
  | .block f _ _ => .compute f

/-- A piece as instructions. -/
def Piece.lower (ρ : Regs) (P : Places) :
    Piece → Option ((Cpu → Cpu) × Places)
  | .unit i t => (Helpers.lower ρ t P i).map fun r => (run r.1, r.2)
  | .block _ body after => (after P).map fun P' => (body, P')

/-- A stretch as instructions: its pieces one after the other. -/
def lowerAll (ρ : Regs) : List Piece → Places →
    Option ((Cpu → Cpu) × Places)
  | [], P => some (id, P)
  | p :: rest, P =>
      (p.lower ρ P).bind fun r => (lowerAll ρ rest r.2).map fun r' =>
        (r'.1 ∘ r.1, r'.2)

/-- What `x87_begin` puts in registers besides TOP: the base and, where one
is pinned, the address of the slots. -/
def emit_base (ρ : Regs) : List (Line Fist.NoLabel) :=
  emit_x87_base ρ.offset ρ.base ++ ρ.st.toList.map fun s =>
    emit_add_imm true false false false
      (if ρ.native then kX87NativeSlotOff else kX87RegFileOff) ρ.base s

-- =============================================================== a run

end X87Sidecar.Helpers

namespace X87Sidecar

/-- The units of one request. -/
def Call.emit (env : Env) (call : Call) : Emitter := fun c =>
  match call.script env c with
  | none => (c, [])
  | some s => ((s.emit c).1.tick, (s.emit c).2)

/-- The units of a run. -/
def callsEmit (env : Env) (calls : List Call) : Emitter :=
  Lib.Emit.all (calls.map (Call.emit env))

end X87Sidecar
