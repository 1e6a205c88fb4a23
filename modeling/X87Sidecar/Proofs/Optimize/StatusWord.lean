/-
What an `fnstsw` of an optimised run hands out.

`StatusWord.Correct` asks of each status read that the condition codes in
AX are the ones last written, by a comparison or by a transcendental
instruction, that the TOP field is where the stack stands, and that the
register a fused comparison keeps its packed codes in is read once, while
it holds them, and released.

The code does this exactly when the Context the fusion pass is given is
`StatusWord.Ordered`. The pass pairs every status read with the last
comparison before it, and what it does not ask is whether the comparison
has been paired already, or whether the condition codes have been cleared
since.
-/
import X87Sidecar.Proofs.Optimize.Status

namespace X87Sidecar

open Lib BuildWf Denote

variable {V : Type}

namespace StatusWord

-- ==================================================== what is promised

/-- The condition codes after a node, dead or not. -/
def ccStep (fp : Fp V) (x : Exec V) (n : Node) (cc : BitVec 16) :
    BitVec 16 :=
  match n.op with
  | .FCmp => (fp.cmp (x.val n.in0) (x.val n.in1)).cc
  | .FTst => (fp.cmp (x.val n.in0) fp.zero).cc
  | .FSin | .FCos | .FPtan => 0
  | _ => cc

/-- The condition codes last written before node `k`, in program order;
those of the incoming status word when none were. -/
def ccAt (fp : Fp V) (init : X87 V) (junk : Nat → V)
    (nodes : List Node) : Nat → BitVec 16
  | 0 => ccOf init.guest.sw
  | k + 1 =>
      match nodes[k]? with
      | some n =>
          ccStep fp (execTo fp init nodes (start init junk) k) n
            (ccAt fp init junk nodes k)
      | none => ccAt fp init junk nodes k

/-- AX, after the status read `n`. -/
def ax (n : Node) (x : Exec V) : BitVec 16 :=
  (x.guest.regs n.in1.toNat).setWidth 16

/-- Status reads hand out the right status word, and hand-offs of packed
condition codes are in order. -/
structure Correct (run : List IRInstr) (c : Context) : Prop where
  codes : ∀ (V : Type) (fp : Fp V) (init : X87 V) (junk : Nat → V)
    (s : Nat) (n : Node), c.nodes[s]? = some n → n.op = .FStsw →
    ccOf (ax n (execTo fp init c.nodes (start init junk) (s + 1)))
      = ccAt fp init junk c.nodes s
  top : ∀ (V : Type) (fp : Fp V) (init : X87 V) (junk : Nat → V)
    (s : Nat) (n : Node), c.nodes[s]? = some n → n.op = .FStsw →
    ∃ j, c.nodeSrc[s]? = some j
      ∧ topOf (ax n (execTo fp init c.nodes (start init junk) (s + 1)))
        = init.top + BitVec.ofInt 3 (Reference.depth (run.take j))
  /-- one reader for each register reserved -/
  once : ∀ (j : Nat) (n : Node), c.nodes[j]? = some n →
    n.isCmp = true → n.flags.fcomFused = true →
    ∃! s, Reads c.nodes s j
  /-- the register holds codes when it is read -/
  held : ∀ (V : Type) (fp : Fp V) (init : X87 V) (junk : Nat → V)
    (s j : Nat), Reads c.nodes s j →
    ((execTo fp init c.nodes (start init junk) s).packed j).isSome
  /-- and every one is released by the end -/
  released : ∀ (V : Type) (fp : Fp V) (init : X87 V) (junk : Nat → V)
    (j : Nat), (body fp init junk c).packed j = none

/-- Node `t` is a transcendental instruction's, dead or not. -/
def TrigAt (l : List Node) (t : Nat) : Prop :=
  ∃ m, l[t]? = some m ∧ m.op.isTrig = true

/-- Node `t` is one that dead store elimination has left alive. -/
def LiveTrigAt (l : List Node) (t : Nat) : Prop :=
  ∃ m, l[t]? = some m ∧ m.op.isTrig = true ∧ m.flags.dead = false

/-- Node `s` is a status read that names no comparison. -/
def Unpaired (l : List Node) (s : Nat) : Prop :=
  ∃ n, l[s]? = some n ∧ n.op = .FStsw ∧ n.in0 < 0

/-- No comparison is named by two status reads, the codes are not cleared
between a comparison and the read that names it, and if they are cleared
before a read that names none, some instruction that clears them is still
there. -/
structure Ordered (l : List Node) : Prop where
  once : ∀ s s' j, Reads l s j → Reads l s' j → s = s'
  undisturbed : ∀ s j t, Reads l s j → j < t → t < s → ¬TrigAt l t
  cleared : ∀ s t, Unpaired l s → t < s → TrigAt l t →
    ∃ t', t' < s ∧ LiveTrigAt l t'

-- ===================================================== what a node does

variable {fp : Fp V} {init : X87 V} {nodes : List Node} {id : Nat}
  {n : Node} {x : Exec V}

/-- A node that is not a status node leaves the status word alone. -/
theorem execOp_plain (h : n.op.isStatus = false) :
    (execOp fp init id n x).guest.sw = x.guest.sw
      ∧ (execOp fp init id n x).packed = x.packed := by
  unfold execOp
  cases hop : n.op <;> rw [hop] at h <;> first
    | exact ⟨rfl, rfl⟩
    | cases h

theorem execNode_plain (h : n.op.isStatus = false) :
    (execNode fp init nodes id n x).guest.sw = x.guest.sw
      ∧ (execNode fp init nodes id n x).packed = x.packed := by
  unfold execNode
  split
  · exact ⟨rfl, rfl⟩
  split
  · exact ⟨rfl, rfl⟩
  split
  · exact ⟨rfl, rfl⟩
  · exact execOp_plain h

/-- A transcendental node that is alive clears the codes. -/
theorem execNode_trig (h : n.op.isTrig = true)
    (htags : n.flags.fmaReduceMember = false) :
    (execNode fp init nodes id n x).guest.sw
        = (if n.flags.dead then x.guest.sw else withCC x.guest.sw 0)
      ∧ (execNode fp init nodes id n x).packed = x.packed := by
  have hop : n.op ≠ .FMAdd := by
    intro hop
    rw [hop] at h
    cases h
  unfold execNode
  cases hd : n.flags.dead with
  | true => exact ⟨rfl, rfl⟩
  | false =>
      simp only [htags, hop, Bool.false_eq_true, if_false, Bool.false_and,
        decide_false]
      unfold execOp
      cases hop : n.op <;> rw [hop] at h <;> first
        | exact ⟨rfl, rfl⟩
        | cases h

/-- The codes of a comparison. -/
def cmpCodes (fp : Fp V) (n : Node) (x : Exec V) : BitVec 16 :=
  if n.op = .FCmp then (fp.cmp (x.val n.in0) (x.val n.in1)).cc
  else (fp.cmp (x.val n.in0) fp.zero).cc

theorem execNode_cmp (h : n.isCmp = true) (hd : n.flags.dead = false)
    (htags : n.flags.fmaReduceMember = false) :
    execNode fp init nodes id n x
      = compareNode id n (cmpCodes fp n x) x := by
  unfold execNode execOp cmpCodes
  rcases Node.isCmp_iff.mp h with hop | hop <;>
    simp [hd, htags, hop]

theorem execNode_stsw (h : n.op = .FStsw) (hd : n.flags.dead = false)
    (htags : n.flags.fmaReduceMember = false) :
    execNode fp init nodes id n x = stsw init.top n x := by
  unfold execNode execOp
  simp [hd, htags, h]

theorem ccStep_plain {cc : BitVec 16} (h : n.op.isStatus = false) :
    ccStep fp x n cc = cc := by
  unfold ccStep
  cases hop : n.op <;> rw [hop] at h <;> first
    | rfl
    | cases h

theorem ccStep_trig {cc : BitVec 16} (h : n.op.isTrig = true) :
    ccStep fp x n cc = 0 := by
  unfold ccStep
  cases hop : n.op <;> rw [hop] at h <;> first
    | rfl
    | cases h

theorem ccStep_stsw {cc : BitVec 16} (h : n.op = .FStsw) :
    ccStep fp x n cc = cc := by
  unfold ccStep
  rw [h]

theorem ccStep_cmp {cc : BitVec 16} (h : n.isCmp = true) :
    ccStep fp x n cc = cmpCodes fp n x := by
  unfold ccStep cmpCodes
  rcases Node.isCmp_iff.mp h with hop | hop <;> simp [hop]

/-- What AX holds after a status read. -/
theorem ax_stsw {top : BitVec 3} :
    ax n (stsw top n x) = statusWord top n.in2 (unpack n x).guest.sw := by
  unfold ax stsw Guest.setReg16 Guest.setReg
  dsimp only
  rw [Function.update_self]
  ext i hi
  simp

@[simp] theorem ccOf_statusWord (top : BitVec 3) (td : Int)
    (sw : BitVec 16) : ccOf (statusWord top td sw) = ccOf sw := by
  unfold statusWord
  split
  · rfl
  · exact ccOf_withTop _ _

/-- No node moves TOP; the epilogue does. -/
theorem execNode_top :
    topOf (execNode fp init nodes id n x).guest.sw
      = topOf x.guest.sw := by
  cases hs : n.op.isStatus with
  | false => rw [(execNode_plain hs).1]
  | true =>
      unfold execNode
      split
      · rfl
      split
      · rfl
      split
      · rfl
      unfold execOp
      cases hop : n.op <;> rw [hop] at hs
      case FCmp | FTst =>
        unfold compareNode
        dsimp only
        split
        · rfl
        · exact topOf_withCC _ _
      case FStsw =>
        show topOf (unpack n x).guest.sw = _
        unfold unpack
        split
        · exact topOf_withCC _ _
        · rfl
      case FSin | FCos | FPtan => exact topOf_withCC _ _
      all_goals cases hs

-- ================================================= stretches of a run

section Stretch

variable {l : List Node} {junk : Nat → V} {a b j k s : Nat}

/-- The state between the nodes below `k` and node `k`. -/
abbrev before (fp : Fp V) (init : X87 V) (junk : Nat → V)
    (l : List Node) (k : Nat) : Exec V :=
  execTo fp init l (start init junk) k

theorem before_succ (h : l[k]? = some n) :
    before fp init junk l (k + 1)
      = execNode fp init l k n (before fp init junk l k) :=
  execTo_succ h

theorem before_none (h : l[k]? = none) :
    before fp init junk l (k + 1) = before fp init junk l k :=
  execTo_none h

theorem ccAt_succ (h : l[k]? = some n) :
    ccAt fp init junk l (k + 1)
      = ccStep fp (before fp init junk l k) n (ccAt fp init junk l k) := by
  rw [ccAt, h]

theorem ccAt_none (h : l[k]? = none) :
    ccAt fp init junk l (k + 1) = ccAt fp init junk l k := by
  rw [ccAt, h]

theorem before_top : topOf (before fp init junk l k).guest.sw
    = init.top := by
  induction k with
  | zero => rfl
  | succ k ih =>
      cases hn : l[k]? with
      | none => rw [before_none hn, ih]
      | some n => rw [before_succ hn, execNode_top, ih]

variable (fp init junk) in
/-- A stretch without status nodes. -/
theorem before_quiet (hab : a ≤ b)
    (hq : ∀ (k : Nat) (n : Node), a ≤ k → k < b → l[k]? = some n →
      n.op.isStatus = false) :
    (before fp init junk l b).packed = (before fp init junk l a).packed
      ∧ ccAt fp init junk l b = ccAt fp init junk l a := by
  induction b, hab using Nat.le_induction with
  | base => exact ⟨rfl, rfl⟩
  | succ k hak ih =>
      obtain ⟨ih1, ih2⟩ := ih fun i n hi hik =>
        hq i n hi (Nat.lt_succ_of_lt hik)
      cases hn : l[k]? with
      | none => exact ⟨by rw [before_none hn, ih1], by rw [ccAt_none hn, ih2]⟩
      | some n =>
          have hs := hq k n hak (Nat.lt_succ_self k) hn
          refine ⟨?_, ?_⟩
          · rw [before_succ hn, (execNode_plain hs).2, ih1]
          · rw [ccAt_succ hn, ccStep_plain hs, ih2]

/-- A status node is of one of three kinds. -/
theorem isStatus_cases (h : n.op.isStatus = true) :
    n.isCmp = true ∨ n.op = .FStsw ∨ n.op.isTrig = true := by
  unfold Node.isCmp
  cases hop : n.op <;> rw [hop] at h <;> simp_all [Op.isTrig, Op.isStatus]

/-- A node leaves the register of comparison `j` alone, unless it is that
comparison and fused, or reads it. -/
theorem execNode_packed (h : Shaped l) (hn : l[k]? = some n)
    (hj : k ≠ j ∨ ∀ s, ¬Reads l s j) (hr : ¬Reads l k j) :
    (execNode fp init l k n x).packed j = x.packed j := by
  cases hs : n.op.isStatus with
  | false => rw [(execNode_plain hs).2]
  | true =>
      have htags := (h.tags k n hn hs).2
      rcases isStatus_cases hs with hcmp | hop | htrig
      · have hd : n.flags.dead = false := by
          refine h.live k n hn hs ?_
          rcases Node.isCmp_iff.mp hcmp with hop | hop <;> rw [hop] <;> rfl
        rw [execNode_cmp hcmp hd htags]
        unfold compareNode
        split
        · next hf =>
          have hkj : k ≠ j := by
            rintro rfl
            obtain ⟨s, hs⟩ := (h.cmp k n hn hcmp).mp hf
            rcases hj with hj | hj
            · exact hj rfl
            · exact hj s hs
          exact Function.update_of_ne (Ne.symm hkj) _ _
        · rfl
      · have hd := h.live k n hn hs (by rw [hop]; rfl)
        rw [execNode_stsw hop hd htags]
        show (unpack n x).packed j = _
        unfold unpack
        split
        · next hf =>
          have h0 := (h.reader k n hn hop).mp hf
          refine Function.update_of_ne (fun hj => hr ?_) _ _
          exact ⟨n, hn, hop, by omega⟩
        · rfl
      · rw [(execNode_trig htrig htags).2]

theorem before_packed (h : Shaped l) (hab : a ≤ b)
    (hj : (∀ k, a ≤ k → k < b → k ≠ j) ∨ ∀ s, ¬Reads l s j)
    (hr : ∀ k, a ≤ k → k < b → ¬Reads l k j) :
    (before fp init junk l b).packed j
      = (before fp init junk l a).packed j := by
  induction b, hab using Nat.le_induction with
  | base => rfl
  | succ k hak ih =>
      have ih := ih (hj.imp_left fun hj i hi hik =>
        hj i hi (Nat.lt_succ_of_lt hik)) fun i hi hik =>
          hr i hi (Nat.lt_succ_of_lt hik)
      cases hn : l[k]? with
      | none => rw [before_none hn, ih]
      | some n =>
          rw [before_succ hn, execNode_packed h hn
            (hj.imp_left fun hj => hj k hak (Nat.lt_succ_self k))
            (hr k hak (Nat.lt_succ_self k)), ih]

/-- Once cleared, the codes stay clear until a comparison. -/
theorem ccAt_clear (hab : a ≤ b) (h0 : ccAt fp init junk l a = 0)
    (hno : ∀ (k : Nat) (n : Node), a ≤ k → k < b → l[k]? = some n →
      n.isCmp = false) : ccAt fp init junk l b = 0 := by
  induction b, hab using Nat.le_induction with
  | base => exact h0
  | succ k hak ih =>
      have ih := ih fun i n hi hik => hno i n hi (Nat.lt_succ_of_lt hik)
      cases hn : l[k]? with
      | none => rw [ccAt_none hn, ih]
      | some n =>
          rw [ccAt_succ hn]
          cases hs : n.op.isStatus with
          | false => rw [ccStep_plain hs, ih]
          | true =>
              rcases isStatus_cases hs with hcmp | hop | htrig
              · rw [hno k n hak (Nat.lt_succ_self k) hn] at hcmp
                cases hcmp
              · rw [ccStep_stsw hop, ih]
              · exact ccStep_trig htrig

end Stretch

-- ========================================================= the readers

section Readers

variable {l : List Node} {junk : Nat → V} {j s k : Nat}

/-- A status read past a comparison, with none in between, names it. -/
theorem reads_of_between (h : Shaped l) {m : Node} (hjk : j < k)
    (hj : l[j]? = some m) (hcmp : m.isCmp = true)
    (hno : ∀ (i : Nat) (m : Node), j < i → i < k → l[i]? = some m →
      m.isCmp = false)
    (hk : l[k]? = some n) (hop : n.op = .FStsw) : Reads l k j := by
  have hj' : (l.take k)[j]? = some m := by
    rw [List.getElem?_take, if_pos hjk]
    exact hj
  refine ⟨n, hk, hop, ?_⟩
  rcases h.last k n hk hop with ⟨-, hnone⟩ | ⟨i, c, hi, hc, hcc, hlast⟩
  · have := hnone m (List.mem_of_getElem? hj')
    rw [hcmp] at this
    cases this
  · rcases Nat.lt_trichotomy i j with hlt | rfl | hgt
    · have := hlast j m hlt hj'
      rw [hcmp] at this
      cases this
    · exact hi
    · rw [List.getElem?_take] at hc
      split at hc
      case isFalse => cases hc
      next hik =>
      have := hno i c hgt hik hc
      rw [hcc] at this
      cases this

/-- A comparison that is read leaves its codes in its register. -/
theorem before_cmp (h : Shaped l) (hr : Reads l s j) {m : Node}
    (hj : l[j]? = some m) (hcmp : m.isCmp = true) :
    (before fp init junk l (j + 1)).packed j
      = some (cmpCodes fp m (before fp init junk l j)) := by
  have hs : m.op.isStatus = true ∧ m.op.isTrig = false := by
    rcases Node.isCmp_iff.mp hcmp with hop | hop <;> rw [hop] <;>
      exact ⟨rfl, rfl⟩
  have hf : m.flags.fcomFused = true := (h.cmp j m hj hcmp).mpr ⟨s, hr⟩
  rw [before_succ hj, execNode_cmp hcmp (h.live j m hj hs.1 hs.2)
    (h.tags j m hj hs.1).2]
  unfold compareNode
  rw [if_pos hf]
  exact Function.update_self ..

variable (fp init junk) in
/-- The first status read of a comparison finds its codes. -/
theorem before_reader (h : Shaped l) (hr : Reads l s j) {m : Node}
    (hj : l[j]? = some m) (hcmp : m.isCmp = true)
    (hfirst : ∀ i, i < s → ¬Reads l i j) :
    (before fp init junk l s).packed j
      = some (cmpCodes fp m (before fp init junk l j)) := by
  have hlt := (h.reads hr).1
  rw [before_packed h hlt (.inl fun k hk _ => by omega)
    fun k _ hk => hfirst k hk]
  exact before_cmp h hr hj hcmp

/-- The condition codes a status read hands out. -/
theorem ccOf_ax (h : Shaped l) (hn : l[s]? = some n)
    (hop : n.op = .FStsw) :
    ccOf (ax n (before fp init junk l (s + 1)))
      = if 0 ≤ n.in0 then
          ((before fp init junk l s).packed n.in0.toNat).getD 0 &&& ccMask
        else ccOf (before fp init junk l s).guest.sw := by
  have hs : n.op.isStatus = true := by
    rw [hop]
    rfl
  rw [before_succ hn, execNode_stsw hop
    (h.live s n hn hs (by rw [hop]; rfl)) (h.tags s n hn hs).2, ax_stsw,
    ccOf_statusWord]
  unfold unpack
  by_cases h0 : 0 ≤ n.in0
  · rw [if_pos ((h.reader s n hn hop).mpr h0), if_pos h0]
    exact ccOf_withCC _ _
  · have hf : ¬n.flags.fcomFused = true := fun hf =>
      h0 ((h.reader s n hn hop).mp hf)
    rw [if_neg hf, if_neg h0]

/-- And the TOP field. -/
theorem topOf_ax (h : Shaped l) (hn : l[s]? = some n)
    (hop : n.op = .FStsw) :
    topOf (ax n (before fp init junk l (s + 1)))
      = init.top + BitVec.ofInt 3 n.in2 := by
  have hs : n.op.isStatus = true := by
    rw [hop]
    rfl
  rw [before_succ hn, execNode_stsw hop
    (h.live s n hn hs (by rw [hop]; rfl)) (h.tags s n hn hs).2, ax_stsw]
  have htop : topOf (unpack n (before fp init junk l s)).guest.sw
      = init.top := by
    unfold unpack
    split
    · exact (topOf_withCC _ _).trans before_top
    · exact before_top
  rw [statusWord_eq htop, topOf_withTop]

/-- The codes of a comparison lie within the mask. -/
theorem cmpCodes_mask (m : Node) :
    cmpCodes fp m x &&& ccMask = cmpCodes fp m x := by
  have hcc : ∀ c : Cmp, c.cc &&& ccMask = c.cc := by
    intro c
    cases c <;> decide
  unfold cmpCodes
  split <;> exact hcc _

/-- A status read that names a comparison, with nothing in between, hands
out its codes. -/
theorem codes_of_ordered (h : Shaped l) (ho : Ordered l)
    (hn : l[s]? = some n) (hop : n.op = .FStsw) (h0 : 0 ≤ n.in0) :
    ccOf (ax n (before fp init junk l (s + 1)))
      = ccAt fp init junk l s := by
  have hr : Reads l s n.in0.toNat := ⟨n, hn, hop, by omega⟩
  obtain ⟨hlt, ⟨m, hj, hcmp⟩, hno⟩ := h.reads hr
  have hquiet : ∀ (k : Nat) (m : Node), n.in0.toNat + 1 ≤ k → k < s →
      l[k]? = some m → m.op.isStatus = false := by
    intro k m' hk hks hm'
    by_contra hs
    rcases isStatus_cases (by simpa using hs) with hc | hst | htrig
    · rw [hno k m' hk hks hm'] at hc
      cases hc
    · have := reads_of_between h hk hj hcmp (fun i m hi hik =>
        hno i m hi (Nat.lt_trans hik hks)) hm' hst
      have := ho.once _ _ _ this hr
      omega
    · exact ho.undisturbed s _ k hr hk hks ⟨m', hm', htrig⟩
  obtain ⟨hpacked, hcc⟩ := before_quiet fp init junk hlt hquiet
  rw [ccOf_ax h hn hop, if_pos h0, hpacked, before_cmp h hr hj hcmp, hcc,
    ccAt_succ hj, ccStep_cmp hcmp]
  exact cmpCodes_mask m

/-- A value that some steps clear and the others keep. -/
theorem cleared_or_kept {v : Nat → BitVec 16} {q : Nat → Prop}
    (hclear : ∀ k, k < s → q k → v (k + 1) = 0)
    (hkeep : ∀ k, k < s → ¬q k → v (k + 1) = v k) :
    ((∃ k, k < s ∧ q k) → v s = 0) ∧ ((∀ k, k < s → ¬q k) → v s = v 0) := by
  induction s with
  | zero => simp
  | succ s ih =>
      obtain ⟨ih0, ih1⟩ := ih (fun k hk => hclear k (Nat.lt_succ_of_lt hk))
        fun k hk => hkeep k (Nat.lt_succ_of_lt hk)
      refine ⟨fun ⟨k, hk, hq⟩ => ?_, fun hno => ?_⟩
      · by_cases hs : q s
        · exact hclear s (Nat.lt_succ_self s) hs
        · rw [hkeep s (Nat.lt_succ_self s) hs]
          refine ih0 ⟨k, ?_, hq⟩
          have hne : k ≠ s := by
            rintro rfl
            exact hs hq
          omega
      · rw [hkeep s (Nat.lt_succ_self s) (hno s (Nat.lt_succ_self s))]
        exact ih1 fun k hk => hno k (Nat.lt_succ_of_lt hk)

variable (fp init junk) in
/-- Before the first comparison, only transcendental instructions set
condition codes. -/
theorem ccAt_noCmp
    (hno : ∀ (k : Nat) (n : Node), k < s → l[k]? = some n →
      n.isCmp = false) :
    ((∃ k, k < s ∧ TrigAt l k) → ccAt fp init junk l s = 0) ∧
      ((∀ k, k < s → ¬TrigAt l k) →
        ccAt fp init junk l s = ccOf init.guest.sw) := by
  refine cleared_or_kept (v := ccAt fp init junk l) ?_ ?_
  · rintro k - ⟨m, hm, htrig⟩
    rw [ccAt_succ hm, ccStep_trig htrig]
  · intro k hk hq
    cases hn : l[k]? with
    | none => rw [ccAt_none hn]
    | some n =>
        rw [ccAt_succ hn]
        cases hs : n.op.isStatus with
        | false => exact ccStep_plain hs
        | true =>
            rcases isStatus_cases hs with hcmp | hop | htrig
            · rw [hno k n hk hn] at hcmp
              cases hcmp
            · exact ccStep_stsw hop
            · exact absurd ⟨n, hn, htrig⟩ hq

variable (fp init junk) in
/-- And only those left alive clear the status word. -/
theorem before_noCmp (h : Shaped l)
    (hno : ∀ (k : Nat) (n : Node), k < s → l[k]? = some n →
      n.isCmp = false) :
    ((∃ k, k < s ∧ LiveTrigAt l k) →
        ccOf (before fp init junk l s).guest.sw = 0) ∧
      ((∀ k, k < s → ¬LiveTrigAt l k) →
        ccOf (before fp init junk l s).guest.sw
          = ccOf init.guest.sw) := by
  refine cleared_or_kept
    (v := fun k => ccOf (before fp init junk l k).guest.sw) ?_ ?_
  · rintro k - ⟨m, hm, htrig, hd⟩
    have hs : m.op.isStatus = true := by
      cases hop : m.op <;> rw [hop] at htrig <;> first
        | rfl
        | cases htrig
    rw [before_succ hm, (execNode_trig htrig (h.tags k m hm hs).2).1, hd]
    exact ccOf_withCC _ _
  · intro k hk hq
    cases hn : l[k]? with
    | none => rw [before_none hn]
    | some n =>
        rw [before_succ hn]
        cases hs : n.op.isStatus with
        | false => rw [(execNode_plain hs).1]
        | true =>
            have htags := (h.tags k n hn hs).2
            rcases isStatus_cases hs with hcmp | hop | htrig
            · rw [hno k n hk hn] at hcmp
              cases hcmp
            · -- a status read that names no comparison is not fused
              have hf : ¬n.flags.fcomFused = true := fun hf => by
                have h0 := (h.reader k n hn hop).mp hf
                obtain ⟨hlt, ⟨m, hm, hcmp⟩, -⟩ := h.reads
                  (j := n.in0.toNat) ⟨n, hn, hop, by omega⟩
                rw [hno _ m (Nat.lt_trans hlt hk) hm] at hcmp
                cases hcmp
              rw [execNode_stsw hop
                (h.live k n hn hs (by rw [hop]; rfl)) htags]
              show ccOf (unpack n _).guest.sw = _
              unfold unpack
              rw [if_neg hf]
            · have hd : n.flags.dead = true := by
                by_contra hd
                exact hq ⟨n, hn, htrig, by simpa using hd⟩
              rw [(execNode_trig htrig htags).1, hd, if_pos rfl]

/-- A status read that names no comparison has none before it. -/
theorem noCmp_of_unread (h : Shaped l) (hn : l[s]? = some n)
    (hop : n.op = .FStsw) (h0 : n.in0 < 0) :
    ∀ (k : Nat) (m : Node), k < s → l[k]? = some m →
      m.isCmp = false := by
  intro k m hk hm
  rcases h.last s n hn hop with ⟨-, hnone⟩ | ⟨i, c, hi, -⟩
  · refine hnone m (List.mem_of_getElem? (i := k) ?_)
    rw [List.getElem?_take, if_pos hk]
    exact hm
  · omega

theorem codes_of_cleared (h : Shaped l) (ho : Ordered l)
    (hn : l[s]? = some n) (hop : n.op = .FStsw) (h0 : n.in0 < 0) :
    ccOf (ax n (before fp init junk l (s + 1)))
      = ccAt fp init junk l s := by
  have hno := noCmp_of_unread h hn hop h0
  obtain ⟨hc, hk⟩ := ccAt_noCmp fp init junk hno
  obtain ⟨hc', hk'⟩ :=
    before_noCmp fp init junk h hno
  rw [ccOf_ax h hn hop, if_neg (by omega)]
  by_cases htrig : ∃ k, k < s ∧ TrigAt l k
  · obtain ⟨k, hk, hm⟩ := htrig
    rw [hc ⟨k, hk, hm⟩, hc' (ho.cleared s k ⟨n, hn, hop, h0⟩ hk hm)]
  · rw [hk fun k hk hm => htrig ⟨k, hk, hm⟩, hk' fun k hk hm => ?_]
    obtain ⟨m, hm, ht, -⟩ := hm
    exact htrig ⟨k, hk, m, hm, ht⟩

end Readers

-- ============================================================== the claim

/-- In an ordered Context every hand-off is in order. -/
theorem released_of_ordered {l : List Node} {junk : Nat → V}
    (h : Shaped l) (ho : Ordered l) (j : Nat) :
    (before fp init junk l l.length).packed j = none := by
  by_cases hr : ∃ s, Reads l s j
  · obtain ⟨s, hr⟩ := hr
    obtain ⟨n, hn, hop, hj⟩ := id hr
    obtain ⟨hlt, -⟩ := List.getElem?_eq_some_iff.mp hn
    have hjs := (h.reads hr).1
    rw [before_packed h hlt (.inl fun k hk _ => by omega)
      fun k hk _ hrk => by
        have := ho.once _ _ _ hrk hr
        omega]
    have hs : n.op.isStatus = true := by
      rw [hop]
      rfl
    rw [before_succ hn, execNode_stsw hop
      (h.live s n hn hs (by rw [hop]; rfl)) (h.tags s n hn hs).2]
    show (unpack n _).packed j = none
    unfold unpack
    rw [if_pos ((h.reader s n hn hop).mpr (by omega)), hj]
    exact Function.update_self ..
  · have hr : ∀ s, ¬Reads l s j := fun s hs => hr ⟨s, hs⟩
    rw [before_packed h (Nat.zero_le _) (.inr hr) fun k _ _ => hr k]
    rfl

/-- What `Ordered` looks at. -/
theorem Ordered.congr {l l' : List Node}
    (hreads : ∀ s j, Reads l' s j ↔ Reads l s j)
    (htrig : ∀ t, TrigAt l' t ↔ TrigAt l t)
    (hlive : ∀ t, LiveTrigAt l' t ↔ LiveTrigAt l t)
    (hun : ∀ s, Unpaired l' s ↔ Unpaired l s) :
    Ordered l' ↔ Ordered l := by
  constructor
  · rintro ⟨h1, h2, h3⟩
    simp only [hreads, htrig, hlive, hun] at h1 h2 h3
    exact ⟨h1, h2, h3⟩
  · rintro ⟨h1, h2, h3⟩
    refine ⟨?_, ?_, ?_⟩ <;> simp only [hreads, htrig, hlive, hun] <;>
      assumption

theorem isStatus_of_isTrig (h : n.op.isTrig = true) :
    n.op.isStatus = true := by
  cases hop : n.op <;> rw [hop] at h <;> first
    | rfl
    | cases h

theorem ordered_fused {c : Context} (h : Unfused c.nodes) :
    Ordered (Optimize.passFcomFstswFusion c).nodes ↔ Ordered c.nodes := by
  have hl := passFcomFstswFusion_getElem? h
  refine Ordered.congr (fun s j => reads_fusedIf hl) (fun t => ?_)
    (fun t => ?_) fun s => ?_
  · unfold TrigAt
    rw [hl]
    cases c.nodes[t]? <;> simp [fusedIf]
  · unfold LiveTrigAt
    rw [hl]
    cases c.nodes[t]? <;> simp [fusedIf]
  · unfold Unpaired
    rw [hl]
    cases c.nodes[s]? <;> simp [fusedIf]

theorem ordered_exact {l l' : List Node} (h : StatusExact l l') :
    Ordered l' ↔ Ordered l := by
  refine Ordered.congr (fun s j => h.reads) (fun t => ?_) (fun t => ?_)
    fun s => ?_
  · refine exists_congr fun m => and_congr_left fun ht => ?_
    exact h.iff (isStatus_of_isTrig ht)
  · refine exists_congr fun m => and_congr_left fun ht => ?_
    exact h.iff (isStatus_of_isTrig ht.1)
  · refine exists_congr fun m => and_congr_left fun ht => ?_
    exact h.iff (by rw [ht.1]; rfl)

/-- `Ordered` looks at nothing that the last two passes change. -/
theorem ordered_optimize (cfg : OptConfig) {c : Context}
    (h : Unfused (optimizeValues cfg c).nodes) :
    Ordered (optimize cfg c).nodes
      ↔ Ordered (optimizeValues cfg c).nodes :=
  (ordered_exact (passExactI64Copy_status cfg _)).trans (ordered_fused h)

-- ------------------------------------------------------ the payloads

theorem nodeSrc_optimize (cfg : OptConfig) (c : Context) :
    (optimize cfg c).nodeSrc = c.nodeSrc := by
  unfold optimize optimizeValues beforeReduce Optimize.passExactI64Copy
    Optimize.passFmaReduce
  dsimp only
  split <;> split <;> split <;> rfl

/-- A status read of an optimised run holds the depth its instruction met
the stack at. -/
theorem depth_optimize (cfg : OptConfig) (mode : Build.BridgeMode)
    (run : List IRInstr) {s : Nat} {n : Node}
    (hn : (optimize cfg (build mode run)).nodes[s]? = some n)
    (hop : n.op = .FStsw) :
    ∃ j, (optimize cfg (build mode run)).nodeSrc[s]? = some j
      ∧ n.in2 = Reference.depth (run.take j) := by
  have hbuilt := build_ofRun mode run
  have hkept := optimizeValues_status cfg (build mode run)
  have hfused := passFcomFstswFusion_getElem?
    (hbuilt.wf.unfused.of_kept hkept) s
  rw [nodeSrc_optimize]
  have hn' := ((passExactI64Copy_status cfg _).iff
    (by rw [hop]; rfl)).mp hn
  rw [hfused] at hn'
  obtain ⟨m, hm, rfl⟩ := Option.map_eq_some_iff.mp hn'
  obtain ⟨n₀, hn₀, hsame⟩ := hkept.was hm
  have hop₀ : n₀.op = .FStsw := (hsame.op_iff rfl).mp hop
  obtain ⟨d, rfl, -⟩ := hsame.same (by rw [hop₀]; rfl)
  exact hbuilt.stsw s n₀ hn₀ hop₀

-- -------------------------------------------------------- both directions

section Claim

variable {run : List IRInstr} {c : Context}

theorem correct_of_ordered (h : Shaped c.nodes) (ho : Ordered c.nodes)
    (hdepth : ∀ (s : Nat) (n : Node), c.nodes[s]? = some n →
      n.op = .FStsw → ∃ j, c.nodeSrc[s]? = some j
        ∧ n.in2 = Reference.depth (run.take j)) : Correct run c where
  codes V fp init junk s n hn hop := by
    by_cases h0 : 0 ≤ n.in0
    · exact codes_of_ordered h ho hn hop h0
    · exact codes_of_cleared h ho hn hop (by omega)
  top V fp init junk s n hn hop := by
    obtain ⟨j, hj, hd⟩ := hdepth s n hn hop
    refine ⟨j, hj, ?_⟩
    rw [← hd]
    exact topOf_ax h hn hop
  once j n hn hcmp hf := by
    obtain ⟨s, hs⟩ := (h.cmp j n hn hcmp).mp hf
    exact ⟨s, hs, fun s' hs' => ho.once s' s j hs' hs⟩
  held V fp init junk s j hr := by
    obtain ⟨-, ⟨m, hm, hcmp⟩, -⟩ := h.reads hr
    have := before_reader fp init junk h hr hm
      hcmp fun i hi hri => by
        have := ho.once _ _ _ hri hr
        omega
    rw [this]
    rfl
  released V fp init junk j := released_of_ordered h ho j

/-- A machine whose incoming condition codes are all set. -/
def codesSet : X87 Unit where
  guest := { Guest.blank with sw := ccMask }
  st _ := ()
  empty _ := false

/-- The unordered outcome of every comparison of `Fp.blank`. -/
theorem cmpCodes_blank (m : Node) (x : Exec Unit) :
    cmpCodes Fp.blank m x = 0x4500 := by
  unfold cmpCodes
  split <;> rfl

theorem ordered_of_correct (h : Shaped c.nodes)
    (hc : Correct run c) : Ordered c.nodes := by
  have honce : ∀ s s' j, Reads c.nodes s j → Reads c.nodes s' j →
      s = s' := by
    intro s s' j hs hs'
    obtain ⟨-, ⟨m, hm, hcmp⟩, -⟩ := h.reads hs
    exact (hc.once j m hm hcmp ((h.cmp j m hm hcmp).mpr ⟨s, hs⟩)).unique
      hs hs'
  refine ⟨honce, fun s j t hr hjt hts htrig => ?_,
    fun s t hun hts htrig => ?_⟩
  · -- the read still finds the codes of the comparison
    obtain ⟨n, hn, hop, hj⟩ := id hr
    obtain ⟨-, ⟨m, hm, hcmp⟩, hno⟩ := h.reads hr
    obtain ⟨k, hk, htrig⟩ := htrig
    have hcodes := hc.codes Unit Fp.blank codesSet (fun _ => ()) s n hn hop
    have hzero : ccAt Fp.blank codesSet (fun _ => ()) c.nodes s = 0 :=
      ccAt_clear hts (by rw [ccAt_succ hk, ccStep_trig htrig])
        fun i n' hi his hn' => hno i n' (by omega) his hn'
    have hread := before_reader Fp.blank codesSet (fun _ => ())
      h hr hm hcmp fun i hi hri => by
        have := honce _ _ _ hri hr
        omega
    rw [ccOf_ax h hn hop, if_pos (by omega), hj, Int.toNat_natCast, hread,
      cmpCodes_blank, hzero] at hcodes
    revert hcodes
    decide
  · -- the incoming codes come through
    obtain ⟨n, hn, hop, h0⟩ := hun
    have hno := noCmp_of_unread h hn hop h0
    have hcodes := hc.codes Unit Fp.blank codesSet (fun _ => ()) s n hn hop
    rw [ccOf_ax h hn hop, if_neg (by omega),
      (ccAt_noCmp _ _ _ hno).1 ⟨t, hts, htrig⟩] at hcodes
    by_contra hlive
    rw [(before_noCmp _ _ _ h hno).2 fun k hk hl => hlive ⟨k, hk, hl⟩] at hcodes
    revert hcodes
    decide

end Claim

/-- Every `fnstsw` of an optimised run hands out the right status word,
through hand-offs that are all in order, exactly when the Context given
to the fusion pass is ordered. -/
theorem fnstsw_correct_iff (cfg : OptConfig) (mode : Build.BridgeMode)
    (run : List IRInstr) :
    Correct run (optimize cfg (build mode run))
      ↔ Ordered (optimizeValues cfg (build mode run)).nodes := by
  have hunfused := (build_ofRun mode run).wf.unfused.of_kept
    (optimizeValues_status cfg _)
  rw [← ordered_optimize cfg hunfused]
  constructor
  · exact ordered_of_correct (optimize_shaped cfg mode run)
  · intro ho
    exact correct_of_ordered (optimize_shaped cfg mode run) ho
      fun s n hn hop => depth_optimize cfg mode run hn hop

/-- A comparison whose outcome is read twice. -/
def rereads : List IRInstr :=
  [{ opcode := .fld, numOperands := 1, op0 := .based .s32 0 0 },
   { opcode := .fcom, numOperands := 2, op0 := .st 0, op1 := .st 1 },
   { opcode := .fstsw, numOperands := 1,
     op0 := ⟨.register, .s16, 0x20, 0, 0, 0, 0, 0, 0⟩ },
   { opcode := .fstsw, numOperands := 1,
     op0 := ⟨.register, .s16, 0x20, 0, 0, 0, 0, 0, 0⟩ }]

/-- The first read releases the register of the packed codes, and the
second hands out codes that are all clear. -/
theorem not_fnstsw_correct_rereads :
    (build {} rereads).consumed = 4
      ∧ ¬Correct rereads (optimize {} (build {} rereads)) := by
  refine ⟨by decide, fun h => ?_⟩
  have hread : ∃ n, (optimize {} (build {} rereads)).nodes[4]? = some n
      ∧ n.op = .FStsw
      ∧ ccOf (ax n (before Fp.blank codesSet (fun _ => ())
          (optimize {} (build {} rereads)).nodes 5)) = 0
      ∧ ccAt Fp.blank codesSet (fun _ => ())
          (optimize {} (build {} rereads)).nodes 4 = 0x4500 := by
    refine ⟨{ op := .FStsw, flags := { fcomFused := true }, in0 := 2,
              in1 := 0, in2 := -1 }, ?_⟩
    decide
  obtain ⟨n, hn, hop, hax, hcc⟩ := hread
  have hcodes := h.codes Unit Fp.blank codesSet (fun _ => ()) 4 n hn hop
  rw [hcc] at hcodes
  exact absurd (hax.symm.trans hcodes) (by decide)

end StatusWord

end X87Sidecar
