/-
The shape of the emitters.

Every emitter begins with `x87_begin`, ends in an `x87_end` of as many
instructions as it covers, and leaves the counter of the run to the turn
(`Plain`): those of single instructions but for `fnstsw` and an isolated
`frstor`, and every fusion but the three that absorb an exchange
(`Absorbed`).
-/
import X87Sidecar.Translate.Fusion

namespace X87Sidecar

-- ================================================= who touches the counter

/-- Does a step take an instruction off the counter? -/
def Act.shortens : Act → Bool
  | .shorten => true
  | _ => false

/-- No step of an emitter takes an instruction off the counter. -/
def Script.counts (s : Script) : Bool :=
  s.all fun a => !a.shortens

/-- Does a step pop once, with a tag that may be put off? -/
def Act.pops : Act → Bool
  | .pop => true
  | _ => false

/-- How many steps of an emitter do. -/
def Script.pops (s : Script) : Nat := s.countP Act.pops

namespace Script

variable {s t : Script} {a : Act}

@[simp] theorem counts_nil : Script.counts [] = true := rfl

@[simp] theorem counts_cons :
    Script.counts (a :: s) = (!a.shortens && s.counts) := rfl

@[simp] theorem counts_append :
    Script.counts (s ++ t) = (s.counts && t.counts) := List.all_append

@[simp] theorem counts_ite {p : Prop} [Decidable p] :
    Script.counts (if p then s else t)
      = if p then s.counts else t.counts := by
  split <;> rfl

@[simp] theorem counts_onlyIf {b : Bool} :
    Script.counts (onlyIf b s) = (!b || s.counts) := by
  cases b <;> rfl

/-- One piece of code for each register, none of which counts. -/
theorem counts_eachDepth {f : Depth → Script}
    (h : ∀ d, (f d).counts = true) : (eachDepth f).counts = true := by
  unfold eachDepth counts
  rw [List.all_flatMap]
  exact List.all_eq_true.mpr fun d _ => h d

end Script

/-- An emitter that loads the registers first, ends its instructions last
and counts nothing off itself. -/
structure Plain (n : Nat) (s : Script) : Prop where
  begins : s.head? = some .begin
  ends : s.getLast? = some (.finish n)
  counts : s.counts = true

/-- Either of two plain emitters is plain. -/
theorem Plain.ite {n : Nat} {s t : Script} {p : Prop} [Decidable p]
    (hs : Plain n s) (ht : Plain n t) : Plain n (if p then s else t) := by
  split
  · exact hs
  · exact ht

variable {c : X87Cache} {n : Nat} {s : Script}

-- ===================================================== single emitters

variable {env : Env} {i : IRInstr}

attribute [local simp] Act.shortens Act.setD Act.setX Act.setQ Act.onGuest
  flushTags clearCC compareCC List.getLast?_cons

attribute [local simp] translate_fst translate_fcom translate_fcmov arith
  translate_fcomi intStore loadConst translate_fbld translate_fild
  translate_fild_native arithp iarith unary translate_int_store_native
  translate_fbstp translate_ficom translate_ftst translate_fxam
  translate_fldcw translate_fnstcw translate_fnop translate_fdecstp
  translate_fincstp translate_ffree binaryOn0 binaryPop trig trigPair
  translate_fyl2xp1 translate_f2xm1 translate_fxtract arithSt arithMem
  loadSt0

/-- The emitters of single instructions: all but `fnstsw` and an isolated
`frstor` are plain. -/
theorem plain_single (h : Emitted env c i s) :
    Plain 1 s ∨ i.opcode = .fstsw ∧ s = translate_fstsw env i
      ∨ c.active = false ∧ s = translate_frstor env c i := by
  cases h with
  | fstsw hop => exact .inr (.inl ⟨hop, rfl⟩)
  | frstor =>
      cases ha : c.active with
      | false => exact .inr (.inr ⟨rfl, rfl⟩)
      | true =>
          refine .inl ⟨?_, ?_, ?_⟩
          · simp [translate_frstor, ha, onlyIf]
          · simp [translate_frstor, ha, onlyIf]
          · simp [translate_frstor]
            exact Script.counts_eachDepth fun d => by simp
  | fsave =>
      refine .inl ⟨?_, ?_, ?_⟩
      · simp [translate_fsave]
      · simp [translate_fsave]
      · simp [translate_fsave]
        exact Script.counts_eachDepth fun d => by simp
  | fld =>
      left
      unfold translate_fld
      dsimp only
      refine .ite (.ite ?_ ?_) (.ite ?_ (.ite ?_ ?_))
      all_goals constructor
      all_goals simp
  | fxch =>
      left
      unfold translate_fxch
      dsimp only
      refine .ite ?_ (.ite ?_ (.ite ?_ ?_))
      all_goals constructor
      all_goals simp
  | _ =>
      left
      constructor
      all_goals simp

-- ============================================================== fusions

/-- What holds of a fusion that matched. -/
def Yields (P : Fused → Prop) (r : Option Fused) : Prop :=
  ∀ f, r = some f → P f

namespace Yields

variable {P Q : Fused → Prop} {r r' : Option Fused}

theorem none : Yields P none := fun _ h => by cases h

theorem some {f : Fused} (h : P f) : Yields P (some f) := by
  intro f' hf
  cases hf
  exact h

theorem bind {α : Type} {m : Option α} {k : α → Option Fused}
    (h : ∀ a, m = Option.some a → Yields P (k a)) :
    Yields P (m >>= k) := by
  intro f hf
  obtain ⟨a, hm, hk⟩ := Option.bind_eq_some_iff.mp hf
  exact h a hm f hk

/-- A check in front leaves a fusion or nothing. -/
theorem guarded {p : Prop} [Decidable p] {k : Unit → Option Fused}
    (h : p → Yields P (k ())) : Yields P (guard p >>= k) := by
  unfold guard
  by_cases hp : p
  · rw [if_pos hp]
    exact h hp
  · rw [if_neg hp]
    exact none

/-- The first of two fusions that matches. -/
theorem orElse (h : Yields P r) (h' : Yields P r') :
    Yields P (r <|> r') := by
  intro f hf
  cases r with
  | none => exact h' f hf
  | some f' => exact h f hf

/-- A fusion chosen by a condition. -/
theorem ite {p : Prop} [Decidable p] (h : Yields P r)
    (h' : Yields P r') : Yields P (if p then r else r') := by
  split
  · exact h
  · exact h'

/-- What follows from what holds of a fusion. -/
theorem mono (h : Yields P r) (hpq : ∀ f, P f → Q f) : Yields Q r :=
  fun f hf => hpq f (h f hf)

end Yields

/-- All instructions covered are x87 instructions. -/
def handledTo (instrs : List IRInstr) (n : Nat) : Bool :=
  (instrs.take n).all fun i => isHandledX87 i.opcode

/-- Instructions behind those that are covered do not matter. -/
theorem handledTo_append {l r : List IRInstr} (h : n ≤ l.length) :
    handledTo (l ++ r) n = handledTo l n := by
  unfold handledTo
  rw [List.take_append_of_le_length h]

/-- A fusion of the first instructions of a list, with a plain emitter. -/
structure Whole (instrs : List IRInstr) (f : Fused) : Prop where
  least : 2 ≤ f.count
  most : f.count ≤ instrs.length
  handled : handledTo instrs f.count = true
  plain : Plain f.count f.script

/-- A fusion of the first instructions of a list is one of a longer list.
-/
theorem Whole.append {l : List IRInstr} {f : Fused} (h : Whole l f)
    (r : List IRInstr) : Whole (l ++ r) f where
  least := h.least
  most := by
    rw [List.length_append]
    exact Nat.le_trans h.most (Nat.le_add_right _ _)
  handled := by rw [handledTo_append h.most, h.handled]
  plain := h.plain

theorem handled_fild : isHandledX87 .fild = true := rfl

theorem handled_fmul : isHandledX87 .fmul = true := rfl

/-- A load that a fusion takes apart is an x87 instruction. -/
theorem handled_of_classify {src : FldSource}
    (h : classify_fld_source i = some src) :
    isHandledX87 i.opcode = true := by
  unfold classify_fld_source at h
  generalize i.opcode = o at h ⊢
  cases o
  all_goals first
    | rfl
    | cases h

/-- An arithmetic instruction that a fusion joins is one. -/
theorem handled_of_arithOp {o : Opcode}
    {f : BitVec 64 → BitVec 64 → BitVec 64}
    (h : arithOp env o = some f) : isHandledX87 o = true := by
  cases o
  all_goals first
    | rfl
    | cases h

/-- A popping arithmetic instruction that a fusion joins is one. -/
theorem handled_of_arithpOp {o : Opcode}
    {f : BitVec 64 → BitVec 64 → BitVec 64}
    (h : arithpOp env o = some f) : isHandledX87 o = true := by
  cases o
  all_goals first
    | rfl
    | cases h

/-- What becomes the addition of an FMA is one. -/
theorem handled_of_fmaOf {o : Opcode}
    {f : BitVec 64 → BitVec 64 → BitVec 64 → BitVec 64}
    (h : fmaOf env o = some f) : isHandledX87 o = true := by
  cases o
  all_goals first
    | rfl
    | cases h

/-- A comparison that a fusion joins is one. -/
theorem handled_of_isFcom {o : Opcode} (h : isFcom o = true) :
    isHandledX87 o = true := by
  cases o
  all_goals first
    | rfl
    | cases h

/-- A comparison that pops is one. -/
theorem handled_of_isFcomp {o : Opcode} (h : isFcomp o = true) :
    isHandledX87 o = true := by
  unfold isFcomp at h
  simp only [decide_eq_true_iff] at h
  rcases h with h | h
  all_goals rw [h]; rfl

/-- A comparison that pops twice is one. -/
theorem handled_of_isFcompp {o : Opcode} (h : isFcompp o = true) :
    isHandledX87 o = true := by
  unfold isFcompp at h
  simp only [decide_eq_true_iff] at h
  rcases h with h | h
  all_goals rw [h]; rfl

/-- A store that pops is one. -/
theorem handled_of_isFstp {o : Opcode} (h : isFstp o = true) :
    isHandledX87 o = true := by
  unfold isFstp at h
  simp only [decide_eq_true_iff] at h
  rcases h with h | h
  all_goals rw [h]; rfl

/-- An integer store is one. -/
theorem handled_of_isIntStore (h : isIntStore i = true) :
    isHandledX87 i.opcode = true := by
  unfold isIntStore at h
  simp only [decide_eq_true_iff] at h
  rcases h with h | h
  all_goals rw [h]; rfl

/-- `fnstsw ax` is one. -/
theorem handled_of_isFstswAx (h : i.isFstswAx = true) :
    isHandledX87 i.opcode = true := by
  unfold IRInstr.isFstswAx at h
  simp only [decide_eq_true_iff] at h
  rw [h.1]
  rfl

/-- A store to memory that pops is one. -/
theorem handled_of_isFstpMem (h : i.isFstpMem = true) :
    isHandledX87 i.opcode = true := by
  unfold IRInstr.isFstpMem at h
  simp only [decide_eq_true_iff] at h
  rw [h.1]
  rfl

@[simp] theorem counts_emit_fld_value {src : FldSource} {r : Nat}
    {fromReg : Depth → StDepth} :
    Script.counts (emit_fld_value env src i r fromReg) = true := by
  cases src <;> simp [emit_fld_value]

@[simp] theorem counts_emit_second_fld {src : FldSource} :
    Script.counts (emit_second_fld env src i) = true := by
  cases src <;> simp [emit_second_fld]

@[simp] theorem counts_writeSw {ax : Option Nat} {patch : Script} :
    Script.counts (writeSw ax patch) = (ax.isNone || patch.counts) := by
  cases ax <;> simp [writeSw]

attribute [local simp] storePlain patchTop packCC beginNetZero
  comparePushed

section
variable (env : Env) (cfg : FusionConfig) (c : X87Cache)
  (cur next i2 : IRInstr)

/-- A load, and arithmetic that pops it. -/
theorem whole_fld_arithp :
    Yields (Whole [cur, next]) (try_fuse_fld_arithp env cur next) := by
  unfold try_fuse_fld_arithp
  refine .bind fun _ hc => .bind fun _ ha => .guarded fun _ => .some ?_
  refine ⟨by simp, by simp, ?_, by simp, by simp, by simp⟩
  simp [handledTo, handled_of_classify hc, handled_of_arithpOp ha]

/-- A load and arithmetic with it. -/
theorem whole_fld_arith :
    Yields (Whole [cur, next]) (try_fuse_fld_arith env cur next) := by
  unfold try_fuse_fld_arith
  refine .bind fun _ hc => .bind fun _ ha => .guarded fun _ => .some ?_
  refine ⟨by simp, by simp, ?_, by simp, by simp, by simp⟩
  simp [handledTo, handled_of_classify hc, handled_of_arithOp ha]

/-- A load that is stored at once. -/
theorem whole_fld_fstp :
    Yields (Whole [cur, next]) (try_fuse_fld_fstp env cur next) := by
  unfold try_fuse_fld_fstp
  refine .guarded fun hs => .guarded fun _ => .bind fun _ hc => .some ?_
  refine ⟨by simp, by simp, ?_, by simp, by simp, by simp⟩
  simp [handledTo, handled_of_classify hc, handled_of_isFstp hs]

/-- An integer that is copied. -/
theorem whole_fild_fistp :
    Yields (Whole [cur, next]) (try_fuse_fild_fistp env cur next) := by
  unfold try_fuse_fild_fistp
  refine .guarded fun hl => .guarded fun hs => .guarded fun _ => .some ?_
  refine ⟨by simp, by simp, ?_, by simp, by simp, by simp⟩
  simp [handledTo, hl, handled_of_isIntStore hs, handled_fild]

/-- An 80-bit value that is copied. -/
theorem whole_fld_fstp_m80 :
    Yields (Whole [cur, next]) (try_fuse_fld_fstp_m80 env cur next) := by
  unfold try_fuse_fld_fstp_m80
  refine .guarded fun ho => .guarded fun _ => .guarded fun _ => .some ?_
  refine ⟨by simp, by simp, ?_, by simp, by simp, by simp⟩
  simp [handledTo, ho, isHandledX87]

/-- A load, arithmetic, a store of the result. -/
theorem whole_fld_arith_fstp :
    Yields (Whole [cur, next, i2])
      (try_fuse_fld_arith_fstp env cur next i2) := by
  unfold try_fuse_fld_arith_fstp
  refine .bind fun _ hc => .bind fun _ ha => .guarded fun _ =>
    .guarded fun hs => .guarded fun _ => .some ?_
  refine ⟨by simp, by simp, ?_, by simp, by simp, by simp⟩
  simp [handledTo, handled_of_classify hc, handled_of_arithOp ha,
    handled_of_isFstp hs]

/-- A load and two arithmetic instructions. -/
theorem whole_fld_arith_arithp :
    Yields (Whole [cur, next, i2])
      (try_fuse_fld_arith_arithp env cfg cur next i2) := by
  unfold try_fuse_fld_arith_arithp
  refine .bind fun _ hc => .bind fun _ ha => .guarded fun _ =>
    .bind fun _ hp => .guarded fun _ => .some ?_
  refine ⟨by simp, by simp, ?_, by simp, by simp, ?_⟩
  swap
  · simp
    split
    · simp
    · simp
  simp [handledTo, handled_of_classify hc, handled_of_arithOp ha,
    handled_of_arithpOp hp]

/-- A load that is compared, popped, and the status read. -/
theorem whole_fld_fcomp_fstsw :
    Yields (Whole [cur, next, i2])
      (try_fuse_fld_fcomp_fstsw env c cur next i2) := by
  unfold try_fuse_fld_fcomp_fstsw
  refine .guarded fun hf => .guarded fun _ => .guarded fun hs =>
    .bind fun _ hc => .some ?_
  refine ⟨by simp, by simp, ?_, by simp, by simp, by simp⟩
  simp [handledTo, handled_of_classify hc, handled_of_isFcomp hf,
    handled_of_isFstswAx hs]

/-- A load that is compared and popped. -/
theorem whole_fld_fcomp :
    Yields (Whole [cur, next]) (try_fuse_fld_fcomp env cur next) := by
  unfold try_fuse_fld_fcomp
  refine .guarded fun hf => .guarded fun _ => .bind fun _ hc => .some ?_
  refine ⟨by simp, by simp, ?_, by simp, by simp, by simp⟩
  simp [handledTo, handled_of_classify hc, handled_of_isFcomp hf]

/-- A load that is compared, both popped, and the status read. -/
theorem whole_fld_fcompp_fstsw :
    Yields (Whole [cur, next, i2])
      (try_fuse_fld_fcompp_fstsw env cur next i2) := by
  unfold try_fuse_fld_fcompp_fstsw
  refine .guarded fun hf => .guarded fun hs => .bind fun _ hc => .some ?_
  refine ⟨by simp, by simp, ?_, by simp, by simp, by simp⟩
  simp [handledTo, handled_of_classify hc, handled_of_isFcompp hf,
    handled_of_isFstswAx hs]

/-- An exchange and the store of what it brings to the top. -/
theorem whole_fxch_fstp :
    Yields (Whole [cur, next]) (try_fuse_fxch_fstp cur next) := by
  unfold try_fuse_fxch_fstp
  refine .guarded fun hx => .guarded fun _ => .guarded fun hs =>
    .guarded fun _ => .guarded fun _ => .some ?_
  refine ⟨by simp, by simp, ?_, by simp, by simp, by simp⟩
  simp [handledTo, hx, hs, isHandledX87]

/-- A comparison and the status read. -/
theorem whole_fcom_fstsw (hcom : isFcom cur.opcode = true) :
    Yields (Whole [cur, next]) (try_fuse_fcom_fstsw env cur next) := by
  unfold try_fuse_fcom_fstsw
  refine .guarded fun hs => .some ?_
  refine ⟨by simp, by simp, ?_, by simp, by simp, ?_⟩
  swap
  · cases isFcompp cur.opcode with
    | true => simp
    | false => simp
  simp [handledTo, handled_of_isFcom hcom, handled_of_isFstswAx hs]

/-- Arithmetic that pops, and a store of the result. -/
theorem whole_arithp_fstp :
    Yields (Whole [cur, next]) (try_fuse_arithp_fstp env cur next) := by
  unfold try_fuse_arithp_fstp
  refine .bind fun _ ha => .guarded fun _ => .guarded fun hs => .some ?_
  refine ⟨by simp, by simp, ?_, by simp, by simp, by simp⟩
  simp [handledTo, handled_of_arithpOp ha, handled_of_isFstpMem hs]

/-- Arithmetic and a store of its result. -/
theorem whole_arith_fstp :
    Yields (Whole [cur, next]) (try_fuse_arith_fstp env cur next) := by
  unfold try_fuse_arith_fstp
  refine .bind fun _ ha => .guarded fun _ => .guarded fun hs => .some ?_
  refine ⟨by simp, by simp, ?_, by simp, by simp, by simp⟩
  simp [handledTo, handled_of_arithOp ha, handled_of_isFstpMem hs]

/-- A product and the sum it goes into. -/
theorem whole_arith_faddp :
    Yields (Whole [cur, next]) (try_fuse_arith_faddp env cfg cur next) := by
  unfold try_fuse_arith_faddp
  refine .guarded fun hm => .guarded fun _ => .bind fun _ ha =>
    .guarded fun _ => .some ?_
  refine ⟨by simp, by simp, ?_, by simp, by simp, by simp⟩
  simp [handledTo, hm, handled_of_fmaOf ha, handled_fmul]

/-- A store, arithmetic, a store. -/
theorem whole_fstp_arith_fstp :
    Yields (Whole [cur, next, i2])
      (try_fuse_fstp_arith_fstp env cur next i2) := by
  unfold try_fuse_fstp_arith_fstp
  refine .guarded fun h1 => .bind fun _ ha => .guarded fun _ =>
    .guarded fun h2 => .some ?_
  refine ⟨by simp, by simp, ?_, by simp, by simp, by simp⟩
  simp [handledTo, handled_of_isFstpMem h1, handled_of_arithOp ha,
    handled_of_isFstpMem h2]

/-- A store and the next load. -/
theorem whole_fstp_fld (hstp : isFstp cur.opcode = true) :
    Yields (Whole [cur, next]) (try_fuse_fstp_fld env cur next) := by
  unfold try_fuse_fstp_fld
  refine .guarded fun _ => .bind fun _ hc => .some ?_
  refine ⟨by simp, by simp, ?_, by simp, by simp, by simp⟩
  simp [handledTo, handled_of_classify hc, handled_of_isFstp hstp]

/-- Two loads that are compared and popped, with the status read behind
them or not. -/
theorem whole_fld_fld_fucompp (i3 : Option IRInstr) :
    Yields (Whole ([cur, next, i2] ++ i3.toList))
      (try_fuse_fld_fld_fucompp env c cur next i2 i3) := by
  unfold try_fuse_fld_fld_fucompp
  refine .bind fun _ hc => .bind fun _ hc' => .guarded fun hf =>
    .some ?_
  have hthree : handledTo [cur, next, i2] 3 = true := by
    simp [handledTo, handled_of_classify hc, handled_of_classify hc',
      handled_of_isFcompp hf]
  cases i3 with
  | none =>
      refine ⟨by simp, by simp, ?_, by simp, by simp, by simp⟩
      exact hthree
  | some i =>
      by_cases hs : i.isFstswAx = true
      · refine ⟨by simp [hs], by simp [hs], ?_, by simp, by simp, ?_⟩
        · simp [hs, handledTo, handled_of_classify hc,
            handled_of_classify hc', handled_of_isFcompp hf,
            handled_of_isFstswAx hs]
        · simp
          right
          split
          · simp
          · simp
      · refine ⟨by simp [hs], by simp [hs], ?_, by simp, by simp, ?_⟩
        · simp [hs, handledTo, handled_of_classify hc,
            handled_of_classify hc', handled_of_isFcompp hf]
        · simp [hs]

/-- Integers loaded one after the other and stored in reverse. -/
theorem whole_nestedCopy (k : Nat) (instrs : List IRInstr)
    (hnest : isNested k instrs = true) (hk : 2 ≤ k) :
    Whole instrs ⟨2 * k, nestedCopy env k instrs⟩ := by
  unfold isNested at hnest
  simp only [Bool.and_eq_true, decide_eq_true_iff, List.all_eq_true]
    at hnest
  obtain ⟨⟨hlen, hloads⟩, hstores⟩ := hnest
  refine ⟨?_, hlen, ?_, ?_⟩
  · show 2 ≤ 2 * k
    omega
  · show handledTo instrs (2 * k) = true
    unfold handledTo
    rw [show 2 * k = k + k by omega, List.take_add, List.all_append,
      Bool.and_eq_true, List.all_eq_true, List.all_eq_true]
    refine ⟨fun i hi => ?_, fun i hi => ?_⟩
    · rw [(hloads i hi).1]
      rfl
    · exact handled_of_isIntStore (hstores i hi).1
  · unfold nestedCopy
    refine ⟨by simp, by simp, ?_⟩
    simp
    unfold Script.counts
    simp

/-- Three of them, or two. -/
theorem whole_nested (instrs : List IRInstr) :
    Yields (Whole instrs)
      (try_fuse_fild_fistp_nested env cfg c instrs) := by
  unfold try_fuse_fild_fistp_nested
  dsimp only
  split
  · rename_i h3
    exact .guarded fun _ => .some (whole_nestedCopy env 3 _ h3 (by omega))
  · split
    · rename_i h2
      exact .guarded fun _ =>
        .some (whole_nestedCopy env 2 _ h2 (by omega))
    · exact .none

-- ========================================================== the groups

/-- A fusion that may be switched off, of the first of the instructions. -/
theorem whole_unless {id : FusionId} {l r : List IRInstr}
    {m : Option Fused} (h : Yields (Whole l) m) :
    Yields (Whole (l ++ r)) (cfg.unless id m) :=
  .ite .none (h.mono fun _ hf => hf.append r)

/-- The fusions that begin with a load. -/
theorem whole_fld_group (rest : List IRInstr) :
    Yields (Whole (cur :: next :: rest))
      (try_fuse_fld_group env cfg c (cur :: next :: rest) cur next
        rest) := by
  unfold try_fuse_fld_group
  dsimp only
  refine .orElse (.ite .none (.ite .none (.orElse (.ite .none ?_) ?_))) ?_
  · exact whole_nested env cfg c (cur :: next :: rest)
  · exact (whole_fild_fistp env cur next).mono
      fun _ hf => hf.append rest
  refine .orElse ?_ (.orElse ?_ ?_)
  · split
    · exact whole_unless cfg
        (whole_fld_fld_fucompp env c cur next _ (some _))
    · exact .none
  · cases rest with
    | nil => exact .none
    | cons i2 rest =>
        refine .orElse ?_ (.orElse ?_ (.orElse ?_ (.orElse ?_ ?_)))
        · exact whole_unless cfg (whole_fld_arith_fstp env cur next i2)
        · exact whole_unless cfg
            (whole_fld_arith_arithp env cfg cur next i2)
        · exact whole_unless cfg
            (whole_fld_fcomp_fstsw env c cur next i2)
        · exact whole_unless cfg (whole_fld_fcompp_fstsw env cur next i2)
        · exact whole_unless cfg
            (whole_fld_fld_fucompp env c cur next i2 none)
  · refine .orElse ?_ (.orElse ?_ (.orElse ?_ (.orElse ?_ ?_)))
    · exact whole_unless cfg (whole_fld_arithp env cur next)
    · exact whole_unless cfg (whole_fld_fstp_m80 env cur next)
    · exact whole_unless cfg (whole_fld_fstp env cur next)
    · exact whole_unless cfg (whole_fld_fcomp env cur next)
    · exact whole_unless cfg (whole_fld_arith env cur next)

/-- The fusions that begin with arithmetic. -/
theorem whole_arith_group (rest : List IRInstr) :
    Yields (Whole (cur :: next :: rest))
      (try_fuse_arith_group env cfg cur next) :=
  .orElse (whole_unless cfg (whole_arith_faddp env cfg cur next))
    (whole_unless cfg (whole_arith_fstp env cur next))

/-- The fusions that begin with a store. -/
theorem whole_fstp_group (rest : List IRInstr)
    (hstp : isFstp cur.opcode = true) :
    Yields (Whole (cur :: next :: rest))
      (try_fuse_fstp_group env cfg cur next rest) := by
  unfold try_fuse_fstp_group
  refine .orElse ?_ ?_
  · cases rest with
    | nil => exact .none
    | cons i2 rest =>
        exact whole_unless cfg (whole_fstp_arith_fstp env cur next i2)
  · exact whole_unless cfg (whole_fstp_fld env cur next hstp)

-- ============================================= an exchange that is absorbed

/-- A fusion of the first instructions of a list that takes an exchange off
the counter itself, with a plain emitter for the others. -/
inductive Absorbed (instrs : List IRInstr) : Fused → Prop
  | arithp {k : Nat} {s : Script} (hk : 1 ≤ k) (hn : k + 1 ≤ instrs.length)
      (hh : handledTo instrs (k + 1) = true) (h : Plain k s) :
      Absorbed instrs ⟨k + 1, .shorten :: s⟩
  | compare {k : Nat} {s : Script} (d : Depth) (hk : 1 ≤ k)
      (hn : k + 1 ≤ instrs.length)
      (hh : handledTo instrs (k + 1) = true) (h : Plain k s) :
      Absorbed instrs ⟨k + 1, .exchange d :: .shorten :: s⟩

/-- The exchange at the head is absorbed: all but an `fstp` do so. -/
def absorbsExchange : List IRInstr → Bool
  | cur :: next :: _ => cur.opcode = .fxch ∧ next.opcode ≠ .fstp_stack
  | _ => false

/-- The arithmetic behind an exchange, with its operands swapped. -/
theorem plain_swapped {body : Script}
    (h : swappedArithp env next = some body) :
    Plain 1 body ∧ next.opcode ≠ .fstp_stack
      ∧ isHandledX87 next.opcode = true := by
  unfold swappedArithp at h
  split at h
  all_goals cases h
  all_goals rename_i hop
  all_goals refine ⟨⟨?_, ?_, ?_⟩, ?_, ?_⟩
  all_goals simp [translate_faddp, translate_fmulp, translate_fsubp,
    translate_fsubrp, translate_fdivp, translate_fdivrp, hop]
  all_goals rfl

/-- A comparison is no store. -/
theorem not_fstp_stack_of_isFcom (h : isFcom next.opcode = true) :
    next.opcode ≠ .fstp_stack := by
  intro hop
  rw [hop] at h
  cases h

/-- What the fusions of an exchange come to. -/
def Exchanged (cur next : IRInstr) (rest : List IRInstr) (f : Fused) :
    Prop :=
  if next.opcode = .fstp_stack then Whole (cur :: next :: rest) f
  else Absorbed (cur :: next :: rest) f

theorem handled_fxch : isHandledX87 .fxch = true := rfl

/-- What absorbs an exchange is a comparison. -/
theorem absorbsFxch_iff (h : absorbsFxch cur next = true) :
    cur.opcode = .fxch ∧ isFcom next.opcode = true := by
  unfold absorbsFxch at h
  simp only [decide_eq_true_iff] at h
  exact ⟨h.1, h.2.2.2⟩

/-- The fusions that begin with an exchange. -/
theorem exchanged_fxch_group (rest : List IRInstr) :
    Yields (Exchanged cur next rest)
      (try_fuse_fxch_group env cfg cur next rest) := by
  unfold try_fuse_fxch_group
  refine .orElse ?_ (.orElse ?_ (.orElse ?_ ?_))
  · cases rest with
    | nil => exact .none
    | cons i2 rest =>
        refine .ite .none ?_
        unfold try_fuse_fxch_fcom_fstsw
        refine .guarded fun habs => .guarded fun hs => .bind ?_
        intro inner hinner
        obtain ⟨hx, hfcom⟩ := absorbsFxch_iff cur next habs
        have hwhole := whole_fcom_fstsw env next i2 hfcom inner hinner
        refine .some ?_
        unfold Exchanged
        rw [if_neg (not_fstp_stack_of_isFcom next hfcom)]
        have hleast := hwhole.least
        have hmost : inner.count ≤ 2 := hwhole.most
        refine .compare _ (by omega) (by simp; omega) ?_ hwhole.plain
        obtain hcount : inner.count = 2 := by omega
        rw [hcount]
        simp [handledTo, hx, handled_fxch, handled_of_isFcom hfcom,
          handled_of_isFstswAx hs]
  · refine .ite .none ?_
    unfold try_fuse_fxch_arithp
    refine .guarded fun hx => .guarded fun _ => .bind fun body hbody => ?_
    refine .guarded fun _ => .some ?_
    obtain ⟨hplain, hop, hh⟩ := plain_swapped env next hbody
    unfold Exchanged
    rw [if_neg hop]
    refine .arithp (by omega) (by simp) ?_ hplain
    simp [handledTo, hx, handled_fxch, hh]
  · refine .ite .none ?_
    intro f hf
    have hop : next.opcode = .fstp_stack := by
      by_contra hne
      unfold try_fuse_fxch_fstp at hf
      simp [guard, hne] at hf
    unfold Exchanged
    rw [if_pos hop]
    exact (whole_fxch_fstp cur next f hf).append rest
  · refine .ite .none ?_
    unfold try_fuse_fxch_fcom
    refine .guarded fun habs => .some ?_
    obtain ⟨hx, hfcom⟩ := absorbsFxch_iff cur next habs
    unfold Exchanged
    rw [if_neg (not_fstp_stack_of_isFcom next hfcom)]
    refine .compare _ (by omega) (by simp) ?_ ⟨?_, ?_, ?_⟩
    · simp [handledTo, hx, handled_fxch, handled_of_isFcom hfcom]
    all_goals simp

/-- The fusions that begin with anything else. -/
theorem whole_peephole (rest : List IRInstr) (hop : cur.opcode ≠ .fxch) :
    Yields (Whole (cur :: next :: rest))
      (try_peephole env cfg c (cur :: next :: rest)) := by
  unfold try_peephole
  dsimp only
  split
  all_goals rename_i ho
  all_goals first
    | exact whole_fld_group env cfg c cur next rest
    | exact absurd ho hop
    | exact whole_unless cfg
        (whole_fcom_fstsw env cur next (by rw [ho]; rfl))
    | exact whole_unless cfg (whole_arithp_fstp env cur next)
    | exact whole_arith_group env cfg cur next rest
    | exact whole_fstp_group env cfg cur next rest (by rw [ho]; rfl)
    | exact .none

/-- The fusions are plain but for those that absorb an exchange. -/
theorem covered_peephole (instrs : List IRInstr) :
    Yields (fun f =>
        if absorbsExchange instrs then Absorbed instrs f
        else Whole instrs f)
      (try_peephole env cfg c instrs) := by
  rcases instrs with _ | ⟨cur, _ | ⟨next, rest⟩⟩
  · exact .none
  · exact .none
  · by_cases hop : cur.opcode = .fxch
    · unfold try_peephole
      simp only [hop]
      refine (exchanged_fxch_group env cfg cur next rest).mono ?_
      intro f hf
      unfold Exchanged at hf
      by_cases hnext : next.opcode = .fstp_stack
      · simpa [absorbsExchange, hop, hnext] using hf
      · simpa [absorbsExchange, hop, hnext] using hf
    · refine (whole_peephole env cfg c cur next rest hop).mono ?_
      intro f hf
      simpa [absorbsExchange, hop] using hf

/-- A fusion covers instructions that are there, all of them x87. -/
theorem fused_within {instrs : List IRInstr} {f : Fused}
    (h : try_peephole env cfg c instrs = some f) :
    2 ≤ f.count ∧ f.count ≤ instrs.length
      ∧ handledTo instrs f.count = true := by
  have hcov := covered_peephole env cfg c instrs f h
  split at hcov
  · cases hcov with
    | arithp hk hn hh _ => exact ⟨Nat.succ_le_succ hk, hn, hh⟩
    | compare _ hk hn hh _ => exact ⟨Nat.succ_le_succ hk, hn, hh⟩
  · exact ⟨hcov.least, hcov.most, hcov.handled⟩

end

end X87Sidecar
