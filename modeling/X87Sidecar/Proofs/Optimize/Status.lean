/-
The status nodes of an optimised Context: the comparisons, the status
word reads and the transcendental nodes that clear the condition codes.

No pass moves or rewrites one. Dead store elimination may kill a
transcendental node, the fusion pass marks a comparison and its readers,
and that is all (`optimize_shaped`).
-/
import X87Sidecar.Proofs.Build.Wf
import X87Sidecar.Proofs.Optimize.Chain

namespace X87Sidecar

open Lib Optimize BuildWf

/-- The operations that clear the condition codes. -/
def Op.isTrig : Op → Bool
  | .FSin | .FCos | .FPtan => true
  | _ => false

/-- The operations that write or read the condition codes. -/
def Op.isStatus : Op → Bool
  | .FCmp | .FTst | .FStsw | .FSin | .FCos | .FPtan => true
  | _ => false

-- ============================================= before the fusion pass

/-- A pass rewrites nodes that are not status nodes into nodes that are
not, and leaves status nodes alone, except that it may kill a
transcendental one. -/
structure StatusSame (n m : Node) : Prop where
  kind : m.op.isStatus = n.op.isStatus
  same : n.op.isStatus = true → ∃ dead, m = { n with flags.dead := dead }
    ∧ (n.op.isTrig = false → dead = n.flags.dead)

namespace StatusSame

variable {n m k : Node}

theorem refl (n : Node) : StatusSame n n :=
  ⟨rfl, fun _ => ⟨n.flags.dead, rfl, fun _ => rfl⟩⟩

theorem trans (h : StatusSame n m) (h' : StatusSame m k) :
    StatusSame n k := by
  refine ⟨h'.kind.trans h.kind, fun hn => ?_⟩
  obtain ⟨d, rfl, hd⟩ := h.same hn
  obtain ⟨d', rfl, hd'⟩ := h'.same hn
  exact ⟨d', rfl, fun ht => (hd' ht).trans (hd ht)⟩

/-- A node that is no status node becomes another such node. -/
theorem of_plain (hn : n.op.isStatus = false)
    (hm : m.op.isStatus = false) : StatusSame n m :=
  ⟨hm.trans hn.symm, fun h => absurd h (by simp [hn])⟩

/-- A node killed, unless it is a comparison or a status read. -/
theorem kill (h : n.op.isStatus = true → n.op.isTrig = true) :
    StatusSame n (kill n) :=
  ⟨rfl, fun hn => ⟨true, rfl, fun ht => absurd (h hn) (by simp [ht])⟩⟩

end StatusSame

/-- `StatusSame` at every node. -/
abbrev StatusKept (l l' : List Node) : Prop :=
  Pointwise (fun _ => StatusSame) l l'

theorem StatusKept.refl (l : List Node) : StatusKept l l :=
  Pointwise.refl (fun _ => StatusSame.refl) l

theorem StatusKept.trans {l l' l'' : List Node} (h : StatusKept l l')
    (h' : StatusKept l' l'') : StatusKept l l'' :=
  Pointwise.trans h h' fun _ _ _ _ => StatusSame.trans

/-- `pass_dse` never kills a comparison or a status read. -/
theorem isTrig_of_not_sideEffect {op : Op} (h : sideEffect op = false)
    (hs : op.isStatus = true) : op.isTrig = true := by
  cases op <;> simp_all [sideEffect, Op.isStatus, Op.isTrig]

/-- One node of `pass_dse`. -/
theorem dseNode_status (i : Nat) (p : Pass) :
    StatusKept p.nodes (dseNode i p).nodes := by
  unfold dseNode
  split
  · next n hn =>
    split
    · exact .refl _
    · next hc =>
      refine Pointwise.modify (fun _ => StatusSame.refl) fun a ha => ?_
      rw [hn] at ha
      cases ha
      simp only [Bool.or_eq_true, not_or, Bool.not_eq_true] at hc
      exact .kill (isTrig_of_not_sideEffect hc.1.2)
  · exact .refl _

/-- One sweep of it. -/
theorem dseSweep_status (n : Nat) (p : Pass) :
    StatusKept p.nodes (forNodesDown dseNode n p).nodes := by
  induction n generalizing p with
  | zero => exact .refl _
  | succ n ih => exact (dseNode_status n p).trans (ih _)

/-- Both sweeps. -/
theorem passDse_status (c : Context) :
    StatusKept c.nodes (passDse c).nodes :=
  (dseSweep_status c.nodes.length ⟨c.nodes, countUses c⟩).trans
    (dseSweep_status c.nodes.length _)

/-- A fused multiply-add is no status node. -/
theorem fmaOp_plain (op : Op) (first : Bool) :
    (fmaOp op first).isStatus = false := by
  unfold fmaOp
  split
  · rfl
  · split <;> rfl

/-- A sum becomes a multiply-add and its product is killed. -/
theorem tryFuse_status {i : Nat} {n : Node} {first : Bool} {p q : Pass}
    (hn : p.nodes[i]? = some n) (hop : n.op = .FAdd ∨ n.op = .FSub)
    (h : tryFuse i n first p = some q) : StatusKept p.nodes q.nodes := by
  have hplain : n.op.isStatus = false := by
    rcases hop with hop | hop <;> rw [hop] <;> rfl
  obtain ⟨m, mul, other, -, hmul, hmop, hq⟩ := tryFuse_spec h
  rw [hq]
  refine StatusKept.trans
    (Pointwise.set (fun _ => StatusSame.refl) fun a ha => ?_)
    (Pointwise.modify (fun _ => StatusSame.refl) fun a ha => ?_)
  · rw [hn] at ha
    cases ha
    exact .of_plain hplain (fmaOp_plain _ _)
  · refine .kill fun hs => absurd hs (?_ : ¬a.op.isStatus = true)
    rw [List.getElem?_set] at ha
    split at ha
    · split at ha
      · cases ha
        simp [fmaOp_plain]
      · cases ha
    · rw [hmul] at ha
      cases ha
      simp [hmop, Op.isStatus]

/-- One node of `pass_fma`. -/
theorem fmaNode_status (i : Nat) (p : Pass) :
    StatusKept p.nodes (fmaNode i p).nodes := by
  rcases fmaNode_cases i p with h | ⟨n, first, q, hn, hop, hq, h⟩
  · rw [h]
    exact .refl _
  · rw [h]
    exact tryFuse_status hn hop hq

/-- The whole pass. -/
theorem passFma_status (c : Context) :
    StatusKept c.nodes (passFma c).nodes :=
  foldl_range_induct (fun _ (p : Pass) => StatusKept c.nodes p.nodes)
    (.refl _) fun i p _ h => h.trans (fmaNode_status i p)

/-- Tags go to loads and multiply-adds only. -/
theorem tagChain_status {nodes : List Node} {uses : Nat → Int}
    {i : Nat} {elem : Op} {chain : List Nat}
    (h : Chain nodes uses i elem chain) :
    StatusKept nodes (tagChain nodes chain) := by
  refine Pointwise.of_getElem? (tagChain_getElem? nodes chain)
    fun a n hn => ?_
  by_cases ha : absorbed nodes chain a = true
  · obtain ⟨n', hn', hop⟩ := h.absorbed_op ha
    rw [hn] at hn'
    cases hn'
    have hplain : n.op.isStatus = false := by
      rcases hop with hop | hop
      · rw [hop]
        rfl
      · rw [hop]
        rcases elemOp_load h.width with rfl | rfl <;> rfl
    exact .of_plain hplain hplain
  · have hhead : a ≠ chain.headD 0 := fun heq => ha (by
      rw [heq]
      exact h.absorbed_head)
    rw [Bool.eq_false_iff.mpr ha, decide_eq_false hhead, tagged_false]
    exact .refl n

/-- So does all that `pass_fma_reduce` does. -/
theorem passFmaReduce_status (cfg : OptConfig) (c : Context) :
    StatusKept c.nodes (passFmaReduce cfg c).nodes := by
  unfold passFmaReduce
  split
  · exact .refl _
  · refine foldl_range_induct (fun _ l => StatusKept c.nodes l)
      (.refl _) fun i l _ h => h.trans ?_
    unfold reduceNode
    split
    · next chain hchain =>
      obtain ⟨elem, hspec⟩ := findChain_spec hchain
      exact tagChain_status hspec
    · exact .refl _

/-- The passes before it together. -/
theorem beforeReduce_status (cfg : OptConfig) (c : Context) :
    StatusKept c.nodes (beforeReduce cfg c).nodes := by
  unfold beforeReduce
  dsimp only
  split
  · exact (passDse_status c).trans (passFma_status _)
  · exact passDse_status c

/-- What the fusion pass is given has the status nodes of the Context
that was built. -/
theorem optimizeValues_status (cfg : OptConfig) (c : Context) :
    StatusKept c.nodes (optimizeValues cfg c).nodes :=
  (beforeReduce_status cfg c).trans (passFmaReduce_status _ _)

-- ======================================================= the fusion pass

/-- Comparison `j` is the one that status read `s` names. -/
def Reads (l : List Node) (s j : Nat) : Prop :=
  ∃ m, l[s]? = some m ∧ m.op = .FStsw ∧ m.in0 = (j : Int)

/-- A status node keeps its opcode. -/
theorem StatusSame.op_iff {n m : Node} {op : Op} (h : StatusSame n m)
    (hop : op.isStatus = true) : m.op = op ↔ n.op = op := by
  constructor
  · intro hm
    have hn : n.op.isStatus = true := by
      rw [← h.kind, hm]
      exact hop
    obtain ⟨d, rfl, -⟩ := h.same hn
    exact hm
  · intro hn
    obtain ⟨d, rfl, -⟩ := h.same (by rw [hn]; exact hop)
    exact hn

/-- A comparison stays one, and nothing becomes one. -/
theorem StatusSame.isCmp {n m : Node} (h : StatusSame n m) :
    m.isCmp = n.isCmp := by
  unfold Node.isCmp
  rw [decide_eq_decide.mpr (h.op_iff (show Op.FCmp.isStatus = true from rfl)),
    decide_eq_decide.mpr (h.op_iff (show Op.FTst.isStatus = true from rfl))]

/-- The comparisons. -/
theorem Node.isCmp_iff {n : Node} :
    n.isCmp = true ↔ n.op = .FCmp ∨ n.op = .FTst := by
  simp [Node.isCmp]

/-- The last comparison of a list depends on the comparisons only. -/
theorem BuildWf.LastCmp.of_same {R : Nat → Node → Node → Prop}
    {l l' : List Node} {j : Int} (h : LastCmp l j)
    (hl : Pointwise R l l') (hR : ∀ i n m, R i n m → m.isCmp = n.isCmp) :
    LastCmp l' j := by
  rcases h with ⟨rfl, h⟩ | ⟨i, n, rfl, hi, hn, hlast⟩
  · refine .inl ⟨rfl, fun m hm => ?_⟩
    obtain ⟨k, hk⟩ := List.getElem?_of_mem hm
    obtain ⟨n, hn, hnm⟩ := hl.was hk
    rw [hR k n m hnm]
    exact h n (List.mem_of_getElem? hn)
  · obtain ⟨m, hm, hnm⟩ := hl.get hi
    refine .inr ⟨i, m, rfl, hm, (hR i n m hnm).trans hn,
      fun i' m' hlt hm' => ?_⟩
    obtain ⟨n', hn', hnm'⟩ := hl.was hm'
    rw [hR i' n' m' hnm']
    exact hlast i' n' hlt hn'

/-- The status nodes as the fusion pass meets them. -/
structure Unfused (l : List Node) : Prop where
  last : ∀ (s : Nat) (n : Node), l[s]? = some n → n.op = .FStsw →
    LastCmp (l.take s) n.in0
  fresh : ∀ (k : Nat) (n : Node), l[k]? = some n →
    n.op.isStatus = true → n.op.isTrig = false → Denote.Fresh n
  tags : ∀ (k : Nat) (n : Node), l[k]? = some n →
    n.op.isStatus = true →
    n.flags.fmaReduceHead = false ∧ n.flags.fmaReduceMember = false

/-- Passes that keep the status nodes keep them unfused. -/
theorem Unfused.of_kept {l l' : List Node} (h : Unfused l)
    (hl : StatusKept l l') : Unfused l' where
  last s m hm hop := by
    obtain ⟨n, hn, hnm⟩ := hl.was hm
    have hop' : n.op = .FStsw := (hnm.op_iff rfl).mp hop
    obtain ⟨d, rfl, -⟩ := hnm.same (by rw [hop']; rfl)
    exact (h.last s n hn hop').of_same (Pointwise.take hl s)
      fun _ _ _ => StatusSame.isCmp
  fresh k m hm hs ht := by
    obtain ⟨n, hn, hnm⟩ := hl.was hm
    have hs' : n.op.isStatus = true := hnm.kind ▸ hs
    obtain ⟨d, rfl, hd⟩ := hnm.same hs'
    obtain ⟨h1, h2, h3, h4⟩ := h.fresh k n hn hs' ht
    exact ⟨(hd ht).trans h1, h2, h3, h4⟩
  tags k m hm hs := by
    obtain ⟨n, hn, hnm⟩ := hl.was hm
    have hs' : n.op.isStatus = true := hnm.kind ▸ hs
    obtain ⟨d, rfl, -⟩ := hnm.same hs'
    exact h.tags k n hn hs'

/-- The builder leaves the status nodes unfused. -/
theorem BuildWf.Wf.unfused {c : Context} (h : Wf c) :
    Unfused c.nodes where
  last := h.stsw
  fresh _ n hn _ _ := h.fresh n (List.mem_of_getElem? hn)
  tags _ n hn _ :=
    have hf := h.fresh n (List.mem_of_getElem? hn)
    ⟨hf.2.2.1, hf.2.2.2⟩

/-- The comparison a status read names is the last one before it. -/
theorem lastCmp_reads {l : List Node} {s j : Nat} {n : Node}
    (h : LastCmp (l.take s) n.in0) (hj : n.in0 = (j : Int)) :
    j < s ∧ (∃ m, l[j]? = some m ∧ m.isCmp = true)
      ∧ ∀ (k : Nat) (m : Node), j < k → k < s → l[k]? = some m →
        m.isCmp = false := by
  rcases h with ⟨h, -⟩ | ⟨i, m, hi, hm, hcmp, hlast⟩
  · omega
  · have hij : i = j := by omega
    subst hij
    rw [List.getElem?_take] at hm
    split at hm
    case isFalse => cases hm
    next hlt =>
    refine ⟨hlt, ⟨m, hm, hcmp⟩, fun k m' hik hks hm' => ?_⟩
    refine hlast k m' hik ?_
    rw [List.getElem?_take, if_pos hks]
    exact hm'

/-- A status read comes after the comparison it names, and none is in
between. -/
theorem Unfused.reads {l : List Node} {s j : Nat} (h : Unfused l)
    (hr : Reads l s j) :
    j < s ∧ (∃ m, l[j]? = some m ∧ m.isCmp = true)
      ∧ ∀ (k : Nat) (m : Node), j < k → k < s → l[k]? = some m →
        m.isCmp = false := by
  obtain ⟨n, hn, hop, hj⟩ := hr
  exact lastCmp_reads (h.last s n hn hop) hj

/-- A node with the mark of the fusion pass, if it gets one. -/
def fusedIf (b : Bool) (n : Node) : Node :=
  { n with flags.fcomFused := n.flags.fcomFused || b }

/-- Is node `k` one of a pair whose status read is below `i`? -/
def pairedBelow (l : List Node) (i k : Nat) : Bool :=
  (List.range i).any fun s => l[s]?.any fun m =>
    m.op = .FStsw && 0 ≤ m.in0 && (k = s || k = m.in0.toNat)

/-- Being one of a pair, spelt out. -/
theorem pairedBelow_iff {l : List Node} {i k : Nat} :
    pairedBelow l i k = true ↔
      ∃ s j, s < i ∧ Reads l s j ∧ (k = s ∨ k = j) := by
  unfold pairedBelow Reads
  simp only [List.any_eq_true, List.mem_range, Option.any_eq_true,
    Bool.and_eq_true, Bool.or_eq_true, decide_eq_true_eq]
  constructor
  · rintro ⟨s, hs, m, hm, ⟨hop, h0⟩, hk⟩
    exact ⟨s, m.in0.toNat, hs, ⟨m, hm, hop, by omega⟩, hk⟩
  · rintro ⟨s, j, hs, ⟨m, hm, hop, hj⟩, hk⟩
    exact ⟨s, hs, m, hm, ⟨hop, by omega⟩, by omega⟩

/-- A mark set on one node. -/
theorem modify_fuse (l : List Node) (i k : Nat) :
    (l.modify i fuse)[k]? = l[k]?.map (fusedIf (decide (k = i))) := by
  rw [List.getElem?_modify]
  cases l[k]? with
  | none => rfl
  | some n =>
      by_cases h : i = k
      · simp [h, fuse, fusedIf]
      · simp [h, Ne.symm h, fusedIf]

/-- Marks add up. -/
theorem fusedIf_fusedIf (b b' : Bool) (n : Node) :
    fusedIf b (fusedIf b' n) = fusedIf (b' || b) n := by
  simp [fusedIf, Bool.or_assoc]

/-- Marks do not change what a node compares or reads. -/
theorem cleanBetween_reads {l l' : List Node} {s j : Nat}
    {f : Nat → Bool} (h : Unfused l) (hr : Reads l s j)
    (hl : ∀ k : Nat, l'[k]? = l[k]?.map (fusedIf (f k))) :
    cleanBetween l' j s = true := by
  obtain ⟨-, -, hclean⟩ := h.reads hr
  unfold cleanBetween
  refine List.all_eq_true.mpr fun k hk => ?_
  by_cases hjk : j < k
  · rw [hl]
    cases hn : l[k]? with
    | none => simp
    | some n =>
        have hcmp := hclean k n hjk (List.mem_range.mp hk) hn
        unfold Node.isCmp at hcmp
        simp [liveCmp, fusedIf, hcmp]
  · simp [hjk]

/-- One turn of the fusion pass. -/
theorem fuseNode_getElem? {l l' : List Node} {i : Nat} (h : Unfused l)
    (hl : ∀ k : Nat, l'[k]? = l[k]?.map (fusedIf (pairedBelow l i k))) :
    ∀ k : Nat, (fuseNode i l')[k]?
      = l[k]?.map (fusedIf (pairedBelow l (i + 1) k)) := by
  have hsucc : ∀ k, pairedBelow l (i + 1) k = (pairedBelow l i k
      || l[i]?.any fun m =>
        m.op = .FStsw && 0 ≤ m.in0 && (k = i || k = m.in0.toNat)) := by
    intro k
    simp only [pairedBelow, List.range_succ, List.any_append,
      List.any_cons, List.any_nil, Bool.or_false]
  -- a node that is not a paired status read changes nothing
  have hskip : (∀ j, ¬Reads l i j) → ∀ k : Nat,
      l'[k]? = l[k]?.map (fusedIf (pairedBelow l (i + 1) k)) := by
    intro hno k
    rw [hl, hsucc, Bool.or_eq_left_iff_imp.mpr]
    intro hany
    obtain ⟨m, hm, hcond⟩ := Option.any_eq_true .. |>.mp hany
    simp only [Bool.and_eq_true, decide_eq_true_eq] at hcond
    exact absurd ⟨m, hm, hcond.1.1, by omega⟩ (hno m.in0.toNat)
  unfold fuseNode
  rw [hl i]
  cases hn : l[i]? with
  | none =>
      refine hskip fun j hj => ?_
      obtain ⟨m, hm, -⟩ := hj
      rw [hn] at hm
      cases hm
  | some n =>
      simp only [Option.map_some]
      by_cases hop : n.op = .FStsw ∧ 0 ≤ n.in0
      case neg =>
        have hno : ∀ j, ¬Reads l i j := by
          rintro j ⟨m, hm, hmop, hj⟩
          rw [hn] at hm
          cases hm
          exact hop ⟨hmop, by omega⟩
        rw [if_pos]
        · exact hskip hno
        · by_cases hs : n.op = .FStsw
          · have : n.in0 < 0 := by
              by_contra hge
              exact hop ⟨hs, by omega⟩
            simp [fusedIf, this]
          · simp [fusedIf, hs]
      have hr : Reads l i n.in0.toNat := ⟨n, hn, hop.1, by omega⟩
      obtain ⟨hlt, ⟨c, hc, hcmp⟩, -⟩ := h.reads hr
      have hlive : n.flags.dead = false :=
        (h.fresh i n hn (by rw [hop.1]; rfl) (by rw [hop.1]; rfl)).1
      have hcond : ((c.op = .FCmp) || (c.op = .FTst)) = true := hcmp
      have hclean := cleanBetween_reads h hr hl
      rw [if_neg (by simp [fusedIf, hlive, hop.1, hop.2])]
      simp only [fusedIf] at hclean ⊢
      rw [hl, hc]
      simp only [Option.map_some, fusedIf, hcond, hclean, Bool.and_self,
        if_true]
      intro k
      rw [modify_fuse, modify_fuse, hl, hsucc, hn]
      simp only [Option.map_map, Function.comp_def, fusedIf_fusedIf,
        Option.any_some, hop.1, hop.2, decide_true, Bool.true_and]
      congr 2
      rw [Bool.or_assoc, Bool.or_comm (decide (k = n.in0.toNat))]

/-- The fusion pass marks each status read that names a comparison, and
that comparison. -/
theorem passFcomFstswFusion_getElem? {c : Context}
    (h : Unfused c.nodes) (k : Nat) :
    (passFcomFstswFusion c).nodes[k]? = c.nodes[k]?.map
      (fusedIf (pairedBelow c.nodes c.nodes.length k)) := by
  refine foldl_range_induct (fun i (l' : List Node) => ∀ k : Nat,
    l'[k]? = c.nodes[k]?.map (fusedIf (pairedBelow c.nodes i k)))
    (fun k => ?_) (fun i l' _ hl => fuseNode_getElem? h hl) k
  cases c.nodes[k]? <;> simp [pairedBelow, fusedIf]

-- ===================================================== optimised Contexts

/-- The status nodes of an optimised Context. -/
structure Shaped (l : List Node) : Prop where
  last : ∀ (s : Nat) (n : Node), l[s]? = some n → n.op = .FStsw →
    LastCmp (l.take s) n.in0
  live : ∀ (k : Nat) (n : Node), l[k]? = some n →
    n.op.isStatus = true → n.op.isTrig = false → n.flags.dead = false
  tags : ∀ (k : Nat) (n : Node), l[k]? = some n →
    n.op.isStatus = true →
    n.flags.fmaReduceHead = false ∧ n.flags.fmaReduceMember = false
  reader : ∀ (s : Nat) (n : Node), l[s]? = some n → n.op = .FStsw →
    (n.flags.fcomFused = true ↔ 0 ≤ n.in0)
  cmp : ∀ (j : Nat) (n : Node), l[j]? = some n → n.isCmp = true →
    (n.flags.fcomFused = true ↔ ∃ s, Reads l s j)

/-- The same after the fusion pass. -/
theorem Shaped.reads {l : List Node} {s j : Nat} (h : Shaped l)
    (hr : Reads l s j) :
    j < s ∧ (∃ m, l[j]? = some m ∧ m.isCmp = true)
      ∧ ∀ (k : Nat) (m : Node), j < k → k < s → l[k]? = some m →
        m.isCmp = false := by
  obtain ⟨n, hn, hop, hj⟩ := hr
  exact lastCmp_reads (h.last s n hn hop) hj

/-- Equal up to the mark of the fusion pass. -/
theorem reads_fusedIf {l l' : List Node} {f : Nat → Bool}
    (hl : ∀ k : Nat, l'[k]? = l[k]?.map (fusedIf (f k))) {s j : Nat} :
    Reads l' s j ↔ Reads l s j := by
  unfold Reads
  rw [hl]
  cases l[s]? <;> simp [fusedIf]

/-- The fusion pass marks every comparison that is read, and its reader. -/
theorem passFcomFstswFusion_shaped {c : Context}
    (h : Unfused c.nodes) : Shaped (passFcomFstswFusion c).nodes := by
  have hl := passFcomFstswFusion_getElem? h
  have hread : ∀ {s j}, Reads (passFcomFstswFusion c).nodes s j
      ↔ Reads c.nodes s j := reads_fusedIf hl
  have hpw : Pointwise (fun k n m => m = fusedIf
      (pairedBelow c.nodes c.nodes.length k) n) c.nodes
      (passFcomFstswFusion c).nodes :=
    Pointwise.of_getElem? hl fun _ _ _ => rfl
  refine ⟨fun s m hm hop => ?_, fun k m hm hs ht => ?_,
    fun k m hm hs => ?_, fun s m hm hop => ?_, fun j m hm hcmp => ?_⟩
  · obtain ⟨n, hn, rfl⟩ := hpw.was hm
    refine (h.last s n hn hop).of_same (hpw.take s) fun i a b hab => ?_
    rw [hab]
    rfl
  · obtain ⟨n, hn, rfl⟩ := hpw.was hm
    exact (h.fresh k n hn hs ht).1
  · obtain ⟨n, hn, rfl⟩ := hpw.was hm
    exact h.tags k n hn hs
  · obtain ⟨n, hn, rfl⟩ := hpw.was hm
    have hop' : n.op = .FStsw := hop
    have hf : n.flags.fcomFused = false :=
      (h.fresh s n hn (by rw [hop']; rfl) (by rw [hop']; rfl)).2.1
    simp only [fusedIf, hf, Bool.false_or, pairedBelow_iff]
    constructor
    · rintro ⟨s', j, -, hr, rfl | rfl⟩
      · obtain ⟨n', hn', -, hj⟩ := hr
        rw [hn] at hn'
        cases hn'
        omega
      · obtain ⟨-, ⟨n', hn', hcmp⟩, -⟩ := h.reads hr
        rw [hn] at hn'
        cases hn'
        simp [Node.isCmp, hop'] at hcmp
    · intro h0
      obtain ⟨hlt, -⟩ := List.getElem?_eq_some_iff.mp hn
      exact ⟨s, n.in0.toNat, hlt, ⟨n, hn, hop', by omega⟩, .inl rfl⟩
  · obtain ⟨n, hn, rfl⟩ := hpw.was hm
    have hcmp' : n.isCmp = true := hcmp
    have hf : n.flags.fcomFused = false := by
      refine (h.fresh j n hn ?_ ?_).2.1
      · rcases Node.isCmp_iff.mp hcmp' with hop | hop <;> rw [hop] <;> rfl
      · rcases Node.isCmp_iff.mp hcmp' with hop | hop <;> rw [hop] <;> rfl
    simp only [fusedIf, hf, Bool.false_or, pairedBelow_iff, hread]
    constructor
    · rintro ⟨s, j', -, hr, rfl | rfl⟩
      · obtain ⟨n', hn', hop, -⟩ := hr
        rw [hn] at hn'
        cases hn'
        simp [Node.isCmp, hop] at hcmp'
      · exact ⟨s, hr⟩
    · rintro ⟨s, hr⟩
      obtain ⟨m, hm, -⟩ := id hr
      obtain ⟨hlt, -⟩ := List.getElem?_eq_some_iff.mp hm
      exact ⟨s, j, hlt, hr, .inr rfl⟩

-- ------------------------------------------------ the exact copy pass

/-- A status node is left as it is. -/
structure StatusEqual (n m : Node) : Prop where
  kind : m.op.isStatus = n.op.isStatus
  same : n.op.isStatus = true → m = n

namespace StatusEqual

variable {n m k : Node}

theorem refl (n : Node) : StatusEqual n n := ⟨rfl, fun _ => rfl⟩

theorem trans (h : StatusEqual n m) (h' : StatusEqual m k) :
    StatusEqual n k := by
  refine ⟨h'.kind.trans h.kind, fun hn => ?_⟩
  have hm := h.same hn
  subst hm
  exact h'.same hn

theorem of_plain (hn : n.op.isStatus = false)
    (hm : m.op.isStatus = false) : StatusEqual n m :=
  ⟨hm.trans hn.symm, fun h => absurd h (by simp [hn])⟩

/-- What is equal is kept. -/
theorem statusSame (h : StatusEqual n m) : StatusSame n m :=
  ⟨h.kind, fun hn => ⟨n.flags.dead, h.same hn, fun _ => rfl⟩⟩

end StatusEqual

/-- `StatusEqual` at every node. -/
abbrev StatusExact (l l' : List Node) : Prop :=
  Pointwise (fun _ => StatusEqual) l l'

theorem StatusExact.refl (l : List Node) : StatusExact l l :=
  Pointwise.refl (fun _ => StatusEqual.refl) l

theorem StatusExact.trans {l l' l'' : List Node} (h : StatusExact l l')
    (h' : StatusExact l' l'') : StatusExact l l'' :=
  Pointwise.trans h h' fun _ _ _ _ => StatusEqual.trans

/-- The copy pass rewrites integer loads and stores only. -/
theorem passExactI64Copy_status (cfg : OptConfig) (c : Context) :
    StatusExact c.nodes (passExactI64Copy cfg c).nodes := by
  unfold passExactI64Copy
  split
  · exact .refl _
  · refine foldl_range_induct (fun _ l => StatusExact c.nodes l)
      (.refl _) fun i l _ h => h.trans ?_
    unfold copyNode
    split
    · next n hn =>
      split
      · exact .refl _
      · next hc =>
        have hop : n.op = .LoadI64 := by
          simp only [Bool.or_eq_true, not_or, Bool.not_eq_true,
            decide_eq_true_eq] at hc
          simpa using hc.1.1.1.1
        have hset : StatusExact l (l.set i { n with op := .LoadF64 }) := by
          refine Pointwise.set (fun _ => StatusEqual.refl) fun a ha => ?_
          rw [hn] at ha
          cases ha
          exact .of_plain (by rw [hop]; rfl) rfl
        refine hset.trans (Pointwise.mapIdx fun j s hs => ?_)
        split
        · next hcond =>
          have hs' : s.op = .StoreI64 := by
            simp only [Bool.and_eq_true, decide_eq_true_eq] at hcond
            exact hcond.1.1.2
          exact .of_plain (by rw [hs']; rfl) rfl
        · exact .refl s
    · exact .refl _

/-- A status node of the one is a status node of the other. -/
theorem StatusExact.iff {l l' : List Node} (h : StatusExact l l')
    {k : Nat} {n : Node} (hn : n.op.isStatus = true) :
    l'[k]? = some n ↔ l[k]? = some n := by
  constructor
  · intro hk
    obtain ⟨m, hm, hmn⟩ := h.was hk
    rw [hmn.same (hmn.kind ▸ hn)]
    exact hm
  · intro hk
    obtain ⟨m, hm, hnm⟩ := h.get hk
    rw [← hnm.same hn]
    exact hm

/-- So the same status reads name the same comparisons. -/
theorem StatusExact.reads {l l' : List Node} (h : StatusExact l l')
    {s j : Nat} : Reads l' s j ↔ Reads l s j := by
  constructor
  · rintro ⟨m, hm, hop, hj⟩
    exact ⟨m, (h.iff (by rw [hop]; rfl)).mp hm, hop, hj⟩
  · rintro ⟨m, hm, hop, hj⟩
    exact ⟨m, (h.iff (by rw [hop]; rfl)).mpr hm, hop, hj⟩

/-- And the shape stays. -/
theorem Shaped.of_exact {l l' : List Node} (h : Shaped l)
    (hl : StatusExact l l') : Shaped l' where
  last s n hn hop := by
    have hn' := (hl.iff (by rw [hop]; rfl)).mp hn
    exact (h.last s n hn' hop).of_same (Pointwise.take hl s)
      fun _ _ _ hnm => hnm.statusSame.isCmp
  live k n hn hs ht := h.live k n ((hl.iff hs).mp hn) hs ht
  tags k n hn hs := h.tags k n ((hl.iff hs).mp hn) hs
  reader s n hn hop :=
    h.reader s n ((hl.iff (by rw [hop]; rfl)).mp hn) hop
  cmp j n hn hcmp := by
    have hs : n.op.isStatus = true := by
      rcases Node.isCmp_iff.mp hcmp with hop | hop <;> rw [hop] <;> rfl
    simp only [hl.reads]
    exact h.cmp j n ((hl.iff hs).mp hn) hcmp

/-- The status nodes of an optimised run. -/
theorem optimize_shaped (cfg : OptConfig) (mode : Build.BridgeMode)
    (run : List IRInstr) :
    Shaped (optimize cfg (build mode run)).nodes := by
  have hbuilt := (build_ofRun mode run).wf.unfused
  have hgiven := hbuilt.of_kept (optimizeValues_status cfg _)
  exact (passFcomFstswFusion_shaped hgiven).of_exact
    (passExactI64Copy_status _ _)

end X87Sidecar
