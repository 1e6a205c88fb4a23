/-
Folding a chain of multiply-adds, and when it is right to.

A reduction issues the loads of its chain at its head. `Safe` says that
nothing alive between a load and the head may change what the load reads.
Under it the Context after a chain is tagged behaves as the one before
(`Fold.sim`): the two states differ in the absorbed nodes only, and
in the last of these only until its own point is reached.
-/
import X87Sidecar.Proofs.Optimize.Tags
import X87Sidecar.Proofs.Optimize.Streams
import X87Sidecar.Proofs.Optimize.Frame

namespace X87Sidecar

open Lib Denote
open Optimize hiding elemLoad

variable {V : Type}

-- ================================================= what disturbs a load

/-- The bytes an absorbed load reads. -/
def Node.loadBytes (n : Node) : Nat := if n.op = .LoadF64 then 8 else 4

/-- May the node change what the load reads: by a store that can overlap
it, or by writing its base register? -/
def Node.MayDisturb (q ld : Node) : Prop :=
  q.destReg = some (regIndex ld.mem.baseReg) ∨
    ∃ g : Guest, ¬Mem.Disjoint (g.address q.mem) q.storeBytes
      (g.address ld.mem) ld.loadBytes

/-- Strictly between two nodes, whichever comes first. -/
def Between (a b q : Nat) : Prop := a < q ∧ q < b ∨ b < q ∧ q < a

/-- No load of the chain would be moved across a node that may disturb
it. -/
def Safe (l : List Node) (head : Nat) (chain : List Nat) : Prop :=
  ∀ k ∈ chain, ∀ m, l[k]? = some m → ∀ a ∈ [m.in0, m.in1], ∀ ld,
    l[a.toNat]? = some ld → ∀ q n, Between a.toNat head q →
      l[q]? = some n → n.flags.dead = false → ¬n.MayDisturb ld

/-- A load is unaffected by what does not disturb it. -/
structure SameLoad (ld : Node) (g g' : Guest) : Prop where
  base : g'.regs (regIndex ld.mem.baseReg)
    = g.regs (regIndex ld.mem.baseReg)
  bytes : g'.mem.load (g.address ld.mem) ld.loadBytes
    = g.mem.load (g.address ld.mem) ld.loadBytes

/-- The address of a simple operand is its base register's business. -/
theorem address_congr {ld : Node} {g g' : Guest}
    (h : (extractSimpleMem ld).isSome = true)
    (hbase : g'.regs (regIndex ld.mem.baseReg)
      = g.regs (regIndex ld.mem.baseReg)) :
    g'.address ld.mem = g.address ld.mem := by
  have hsimple := extractSimpleMem_spec h
  rw [hsimple.address, hsimple.address, hbase]

theorem SameLoad.refl (ld : Node) (g : Guest) : SameLoad ld g g :=
  ⟨rfl, rfl⟩

section Load

variable {fp : Fp V} {init : X87 V} {l : List Node} {id : Nat}
  {n ld : Node} {x : Exec V} {g : Guest}

/-- One node that does not disturb the load. -/
theorem SameLoad.execNode (h : SameLoad ld g x.guest)
    (hsimple : (extractSimpleMem ld).isSome = true)
    (hn : n.flags.dead = false → ¬n.MayDisturb ld) :
    SameLoad ld g (execNode fp init l id n x).guest := by
  unfold Denote.execNode
  split
  · exact h
  next hd =>
  split
  · exact h
  split
  · exact h
  obtain ⟨hreg, hmem⟩ := not_or.mp (hn (by simpa using hd))
  refine ⟨?_, ?_⟩
  · rw [execOp_regs fun d hd hrd => hreg (by rw [hd, hrd])]
    exact h.base
  · rw [← h.bytes, execOp_load]
    have := not_exists_not.mp hmem x.guest
    rwa [address_congr hsimple h.base] at this

/-- A stretch of nodes that do not disturb the load. -/
theorem SameLoad.execTo {a b : Nat} (hab : a ≤ b)
    (hsimple : (extractSimpleMem ld).isSome = true)
    (hq : ∀ (q : Nat) (n : Node), a ≤ q → q < b → l[q]? = some n →
      n.flags.dead = false → ¬n.MayDisturb ld) :
    SameLoad ld (execTo fp init l x a).guest
      (execTo fp init l x b).guest := by
  induction b, hab using Nat.le_induction with
  | base => exact .refl _ _
  | succ k hak ih =>
      have ih := ih fun q n hq' hqk => hq q n hq' (Nat.lt_succ_of_lt hqk)
      cases hn : l[k]? with
      | none =>
          rw [execTo_none hn]
          exact ih
      | some n =>
          rw [execTo_succ hn]
          exact ih.execNode hsimple (hq k n hak (Nat.lt_succ_self k) hn)

end Load

-- ============================================== the order of additions

/-- Arithmetic in which the terms of a sum may be added in any order: what
it takes to compare a reduction, which adds them in two lanes, with the
chain it replaces. -/
structure Fp.Reorders (fp : Fp V) : Prop where
  add_zero : ∀ x, fp.add x fp.zero = x
  fma_add : ∀ a b x y, fp.add (fp.fma a b x) y = fp.fma a b (fp.add x y)
  add_fma : ∀ a b x y, fp.add x (fp.fma a b y) = fp.fma a b (fp.add x y)
  fma_comm : ∀ a b c d x,
    fp.fma a b (fp.fma c d x) = fp.fma c d (fp.fma a b x)

/-- Both lanes together add the products to their sum. -/
theorem lanes_eq {fp : Fp V} (h : fp.Reorders) (a b : V)
    (ts : List (V × V)) :
    lanes fp a b ts
      = ts.foldl (fun acc t => fp.fma t.1 t.2 acc) (fp.add a b) := by
  induction ts using List.twoStepInduction generalizing a b with
  | nil => rfl
  | singleton t => rfl
  | cons_cons t t' rest ih _ =>
      rw [lanes, ih, h.fma_add, h.add_fma, h.fma_comm]
      rfl

-- ==================================================== values of nodes

section Values

variable {c : Context} {fp : Fp V} {init : X87 V} {l : List Node}
  {i j k tail fuel : Nat} {n m : Node} {x : Exec V} {elem : Op}
  {chain : List Nat}

theorem Tagging.was (ht : Tagging c i l) (hm : l[k]? = some m) :
    ∃ n, c.nodes[k]? = some n ∧ m.op = n.op ∧ m.inputs = n.inputs
      ∧ m.flags.dead = n.flags.dead := by
  obtain ⟨n, hn, h, t, rfl⟩ := ht.same.was hm
  exact ⟨n, hn, rfl, rfl, rfl⟩

/-- A node refers to older nodes with the inputs it computes with. -/
theorem Tagging.operand (hok : NodesOk c.nodes) (ht : Tagging c i l)
    (hm : l[k]? = some m) {a : Int} (ha : a ∈ m.inputs.take (arity m.op)) :
    0 ≤ a ∧ a < k := by
  obtain ⟨n, hn, hop, hin, -⟩ := ht.was hm
  rw [hop, hin] at ha
  refine ⟨(hok k n hn).operands a ha, (hok k n hn).refs a ?_⟩
  refine (mem_nodeRefs fun hstsw => ?_).mpr (List.mem_of_mem_take ha)
  rw [hstsw] at ha
  cases ha

theorem Tagging.user (ht : Tagging c i l) (hm : l[k]? = some m)
    (hlive : m.flags.dead = false) {a : Nat} (ha : (a : Int) ∈ m.inputs) :
    UserOf c.nodes a k := by
  obtain ⟨n, hn, -, hin, hd⟩ := ht.was hm
  exact ⟨n, hn, hd ▸ hlive, hin ▸ ha⟩

theorem rewalk_mem (h : j ∈ rewalk l fuel tail) : ∃ m, MemberAt l j m := by
  induction fuel generalizing tail with
  | zero => cases h
  | succ fuel ih =>
      unfold rewalk at h
      cases hnext : nextMember l tail with
      | none =>
          rw [hnext] at h
          cases h
      | some b =>
          rw [hnext] at h
          rcases List.mem_cons.mp h with rfl | h
          · obtain ⟨⟨-, m, hm, -⟩, -⟩ := nextMember_eq_some.mp hnext
            exact ⟨m, hm⟩
          · exact ih h

/-- The last node of a chain is one of them. -/
theorem getLastD_mem (a d : Nat) (r : List Nat) :
    (a :: r).getLastD d ∈ a :: r := by
  rw [List.getLastD_cons]
  exact List.getLastD_mem_cons

/-- A value without a tag is written at its own point only. -/
theorem execNode_env_untagged (hjk : j ≠ k)
    (hj : ∀ m, l[j]? = some m → m.flags.fmaReduceMember = false) :
    (execNode fp init l k n x).env j = x.env j := by
  unfold execNode
  split
  · rfl
  split
  · rfl
  split
  · unfold execReduce
    refine Function.update_of_ne (fun hlast => ?_) _ _
    have hmem := getLastD_mem k k (rewalk l (kMaxNodes - 1) k)
    rw [show k :: rewalk l (kMaxNodes - 1) k = chainOf l k from rfl,
      ← hlast] at hmem
    rcases List.mem_cons.mp hmem with h | h
    · exact hjk h
    · obtain ⟨m, hm⟩ := rewalk_mem h
      have := hj m hm.at_
      rw [hm.member] at this
      cases this
  · exact execOp_env_of_ne hjk

theorem execTo_env_untagged (hjk : j < k)
    (hj : ∀ m, l[j]? = some m → m.flags.fmaReduceMember = false) :
    (execTo fp init l x k).env j = (execTo fp init l x (j + 1)).env j := by
  induction k, hjk using Nat.le_induction with
  | base => rfl
  | succ k hjk ih =>
      cases hn : l[k]? with
      | none => rw [execTo_none hn, ih]
      | some n =>
          rw [execTo_succ hn, execNode_env_untagged (by omega) hj, ih]

end Values

-- ========================================================== one chain

/-- Loads and multiply-adds disturb nothing. -/
theorem not_mayDisturb {n ld : Node}
    (h : n.op = .FMAdd ∨ n.op = .LoadF32 ∨ n.op = .LoadF64) :
    ¬n.MayDisturb ld := by
  have hreg : n.destReg = none := by
    unfold Node.destReg
    rcases h with h | h | h <;> rw [h]
  have hstore : n.storeBytes = 0 := by
    unfold Node.storeBytes
    rcases h with h | h | h <;> rw [h]
  rintro (hd | ⟨g, hg⟩)
  · rw [hreg] at hd
    cases hd
  · refine hg fun i _ => ?_
    rw [hstore]
    exact Nat.zero_le _

/-- The value of an absorbed load, read in the state `g`. -/
theorem elemLoad_congr {fp : Fp V} {l : List Node} {elem : Op}
    {input : Int} {ld : Node} {g g' : Guest}
    (hld : l[input.toNat]? = some ld) (hop : ld.op = elem)
    (hwidth : elem = .LoadF32 ∨ elem = .LoadF64)
    (hsimple : (extractSimpleMem ld).isSome = true)
    (h : SameLoad ld g g') :
    elemLoad fp l elem g' input = elemLoad fp l elem g input := by
  have haddr := address_congr hsimple h.base
  have hbytes := h.bytes
  unfold elemLoad elemAt loadMem
  simp only [hld, Option.map_some, Option.getD_some, haddr]
  rcases hwidth with rfl | rfl
  · rw [show ld.loadBytes = 4 by simp [Node.loadBytes, hop]] at hbytes
    rw [if_neg (by simp), if_neg (by simp), hbytes]
  · rw [show ld.loadBytes = 8 by simp [Node.loadBytes, hop]] at hbytes
    rw [if_pos rfl, if_pos rfl, hbytes]

section Fold

variable {c : Context} {fp : Fp V} {init : X87 V} {l : List Node}
  {i j k tail fuel : Nat} {n m : Node} {x : Exec V} {elem : Op}
  {chain : List Nat}

/-- A load that a chain absorbs, at its own point. -/
theorem Optimize.Absorbable.own {uses : Nat → Int} {input : Int}
    (h : Absorbable l uses elem input)
    (hwidth : elem = .LoadF32 ∨ elem = .LoadF64) :
    (execTo fp init l x (input.toNat + 1)).env input.toNat
      = Denote.elemLoad fp l elem
          (execTo fp init l x input.toNat).guest input := by
  obtain ⟨ld, hld, hop, hd, hmem, -⟩ := h.node
  rw [execTo_succ hld]
  unfold execNode Denote.elemLoad elemAt loadMem
  rcases hwidth with rfl | rfl <;>
    simp [hd, hmem, hop, execOp, hld, Exec.assign, Guest.read]

variable (fp init x) in
/-- And at the head of the chain, if nothing in between disturbs it. -/
theorem Optimize.Absorbable.hoisted {uses : Nat → Int} {input : Int}
    (h : Absorbable l uses elem input)
    (hwidth : elem = .LoadF32 ∨ elem = .LoadF64)
    (hhead : ∃ m, l[i]? = some m ∧ m.op = .FMAdd)
    (hsafe : ∀ ld, l[input.toNat]? = some ld → ∀ q n,
      Between input.toNat i q → l[q]? = some n →
      n.flags.dead = false → ¬n.MayDisturb ld) :
    Denote.elemLoad fp l elem (execTo fp init l x i).guest input
      = (execTo fp init l x (input.toNat + 1)).env input.toNat := by
  rw [h.own hwidth]
  obtain ⟨ld, hld, hop, -, -, hsimple⟩ := h.node
  obtain ⟨m, hm, hmop⟩ := hhead
  have hpure : ∀ (q : Nat) (n : Node), q = i ∨ q = input.toNat →
      l[q]? = some n → ¬n.MayDisturb ld := by
    rintro q n (rfl | rfl) hn
    · rw [hm] at hn
      cases hn
      exact not_mayDisturb (.inl hmop)
    · rw [hld] at hn
      cases hn
      exact not_mayDisturb (.inr (hop ▸ hwidth))
  -- the stretch from the earlier of the two to the later
  have hstretch : ∀ (q : Nat) (n : Node),
      q = i ∨ q = input.toNat ∨ Between input.toNat i q →
      l[q]? = some n → n.flags.dead = false → ¬n.MayDisturb ld := by
    rintro q n (hq | hq | hq) hn hd
    · exact hpure q n (.inl hq) hn
    · exact hpure q n (.inr hq) hn
    · exact hsafe ld hld q n hq hn hd
  rcases Nat.le_total input.toNat i with hle | hle
  · refine elemLoad_congr hld hop hwidth hsimple
      (SameLoad.execTo hle hsimple fun q n hq hqi hn hd => ?_)
    refine hstretch q n ?_ hn hd
    unfold Between
    omega
  · refine (elemLoad_congr hld hop hwidth hsimple
      (SameLoad.execTo hle hsimple fun q n hq hqi hn hd => ?_)).symm
    refine hstretch q n ?_ hn hd
    unfold Between
    omega

variable (hok : NodesOk c.nodes) (ht : Tagging c i l)
  (hc : Chain l (countUses c) i elem chain) (hsafe : Safe l i chain)

include hok ht hc hsafe

variable (fp init x) in
/-- A multiply-add of the chain, at its own point. -/
theorem Fold.member_value (hk : k ∈ chain) (hm : l[k]? = some m) :
    0 ≤ m.in2 ∧ m.in2 < k ∧
    (execTo fp init l x (k + 1)).env k
      = term fp l elem (execTo fp init l x i).guest
          ((execTo fp init l x k).env m.in2.toNat) k := by
  obtain ⟨m', hm'⟩ := hc.member k hk
  have hmm := hm'.at_
  rw [hm] at hmm
  cases hmm
  have hwidth := elemOp_load hc.width
  have hhead : ∃ m, l[i]? = some m ∧ m.op = .FMAdd := by
    obtain ⟨rest, rfl, -⟩ := hc.start
    obtain ⟨m, hm⟩ := hc.member i (List.mem_cons_self ..)
    exact ⟨m, hm.at_, hm.op⟩
  have hop := hm'.op
  have hin : ∀ a, a ∈ m.inputs → 0 ≤ a ∧ a < k := fun a ha =>
    ht.operand hok hm (by rw [hop]; exact ha)
  have hload : ∀ a ∈ [m.in0, m.in1], Absorbable l (countUses c) elem a →
      elemLoad fp l elem (execTo fp init l x i).guest a
        = (execTo fp init l x k).env a.toNat := by
    intro a ha habs
    have hlt : 0 ≤ a ∧ a < k := by
      refine hin a ?_
      simp only [List.mem_cons, List.not_mem_nil, or_false] at ha
      rcases ha with rfl | rfl <;> simp [Node.inputs]
    rw [habs.hoisted fp init x hwidth hhead fun ld hld q n hq hn hd =>
      hsafe k hk m hm a ha ld hld q n hq hn hd]
    refine (execTo_env_untagged (by omega) fun ld hld => ?_).symm
    obtain ⟨ld', hld', -, -, hfree, -⟩ := habs.node
    rw [hld] at hld'
    cases hld'
    exact hfree
  obtain ⟨h0, hlt⟩ := hin m.in2 (by simp [Node.inputs])
  refine ⟨h0, hlt, ?_⟩
  have hfree := ht.fresh_member hc hk m hm
  have hnotHead : m.flags.fmaReduceHead = false := by
    by_contra hh
    have := (ht.head k m hm (by simpa using hh)).1
    rw [hfree] at this
    cases this
  rw [execTo_succ hm]
  unfold execNode term
  simp only [hm, hm'.live, hfree, hnotHead, hop, execOp, Exec.assign,
    Exec.val, Bool.false_eq_true, if_false, Bool.false_and,
    Bool.and_false, Function.update_self]
  rw [hload m.in0 (by simp) hm'.left, hload m.in1 (by simp) hm'.right]

variable (fp init x) in
/-- From one multiply-add of the chain on, the values are the partial
sums of its terms, all read at the head. -/
theorem Fold.partial_value {rest : List Nat}
    (hsub : tail :: rest ⊆ chain)
    (hlink : (tail :: rest).IsChain (Link l (countUses c))) :
    (execTo fp init l x (rest.getLastD tail + 1)).env
        (rest.getLastD tail)
      = rest.foldl (term fp l elem (execTo fp init l x i).guest)
          ((execTo fp init l x (tail + 1)).env tail) := by
  induction rest generalizing tail with
  | nil => rfl
  | cons b rest ih =>
      obtain ⟨htb, hrest⟩ := List.isChain_cons_cons.mp hlink
      obtain ⟨hlt, m, hm, -, -, hin⟩ := nextFma_spec htb.next
      have hb : b ∈ chain := hsub (by simp)
      have htail : tail ∈ chain := hsub (by simp)
      obtain ⟨-, -, hval⟩ := Fold.member_value fp init x hok ht hc
        hsafe hb hm
      rw [hin, Int.toNat_natCast,
        execTo_env_untagged hlt (ht.fresh_member hc htail)] at hval
      rw [List.getLastD_cons, List.foldl_cons, ← hval]
      exact ih (fun a ha => hsub (List.mem_cons_of_mem _ ha)) hrest

variable (fp init x) in
/-- The value of the chain. -/
theorem Fold.chain_value (hm : l[i]? = some m) :
    0 ≤ m.in2 ∧ m.in2 < i ∧
    (execTo fp init l x (chain.getLastD i + 1)).env (chain.getLastD i)
      = chain.foldl (term fp l elem (execTo fp init l x i).guest)
          ((execTo fp init l x i).env m.in2.toNat) := by
  obtain ⟨rest, hrest, -⟩ := hc.start
  have hi : i ∈ chain := hrest ▸ List.mem_cons_self ..
  obtain ⟨h0, hlt, hval⟩ := Fold.member_value fp init x hok ht hc hsafe
    hi hm
  have hlink := hc.linked
  have hpart := Fold.partial_value fp init x hok ht hc hsafe
    (show i :: rest ⊆ chain from hrest ▸ fun _ h => h) (hrest ▸ hlink)
  refine ⟨h0, hlt, ?_⟩
  rw [hrest, List.getLastD_cons, List.foldl_cons, hpart, hval]

omit hok hsafe

/-- An absorbed node is used inside the chain, unless it is its last. -/
theorem Fold.absorbed_use {a : Nat} (ha : absorbed l chain a = true)
    (hlast : a ≠ chain.getLastD i) :
    countUses c a = 1 ∧ ∃ k, absorbed l chain k = true
      ∧ UserOf c.nodes a k := by
  have hload : ∀ b ∈ chain, ∀ m, Member l (countUses c) elem b m →
      ∀ input ∈ [m.in0, m.in1],
      Absorbable l (countUses c) elem input → a = input.toNat →
      countUses c a = 1 ∧ ∃ k, absorbed l chain k = true
        ∧ UserOf c.nodes a k := by
    intro b hb m hm input hin habs hai
    have h0 := habs.nonneg
    refine ⟨hai ▸ habs.single, b, hc.absorbed_of_mem hb,
      ht.user hm.at_ hm.live ?_⟩
    rw [hai, Int.toNat_of_nonneg h0]
    simp only [List.mem_cons, List.not_mem_nil, or_false] at hin
    rcases hin with rfl | rfl <;> simp [Node.inputs]
  unfold absorbed at ha
  obtain ⟨b, hb, hba⟩ := List.any_eq_true.mp ha
  obtain ⟨m, hm⟩ := hc.member b hb
  unfold touches at hba
  rw [hm.at_] at hba
  simp only [Option.any_some, Bool.or_eq_true, decide_eq_true_eq] at hba
  rcases hba with rfl | hba | hba
  · -- a multiply-add before the last has a successor
    obtain ⟨b', hb', hlink⟩ : ∃ b' ∈ chain, Link l (countUses c) a b' := by
      have hlinked := hc.linked
      obtain ⟨rest, rfl, -⟩ := hc.start
      rw [List.getLastD_cons] at hlast
      exact linked_mem_init hlinked a hb hlast
    obtain ⟨-, m', hm', hlive, -, hin⟩ := nextFma_spec hlink.next
    refine ⟨hlink.single, b', hc.absorbed_of_mem hb',
      ht.user hm' hlive ?_⟩
    rw [← hin]
    simp [Node.inputs]
  · exact hload b hb m hm m.in0 (by simp) hm.left hba
  · exact hload b hb m hm m.in1 (by simp) hm.right hba

/-- The operands of a node outside the chain are outside it too, or the
last of it, at an older point. -/
theorem Fold.operand_outside (hok : NodesOk c.nodes)
    (hk : absorbed l chain k = false) (hm : l[k]? = some m)
    (hlive : m.flags.dead = false) {a : Int}
    (ha : a ∈ m.inputs.take (arity m.op)) :
    absorbed l chain a.toNat = false
      ∨ a.toNat = chain.getLastD i ∧ chain.getLastD i < k := by
  obtain ⟨h0, hlt⟩ := ht.operand hok hm ha
  cases habs : absorbed l chain a.toNat with
  | false => exact .inl rfl
  | true =>
      refine .inr ?_
      by_cases hlast : a.toNat = chain.getLastD i
      · exact ⟨hlast, by omega⟩
      · obtain ⟨h1, b, hb, huser⟩ := Fold.absorbed_use ht hc habs hlast
        have hin : (a.toNat : Int) ∈ m.inputs := by
          rw [Int.toNat_of_nonneg h0]
          exact List.mem_of_mem_take ha
        have hkb := single_user h1 (ht.user hm hlive hin) huser
        rw [hkb, hb] at hk
        cases hk

/-- Nor does the final stack hold an absorbed node but the last. -/
theorem Fold.slot_outside {d : Fin 8} {a : Nat}
    (hd : c.slotVal d = .node a) :
    absorbed l chain a = false ∨ a = chain.getLastD i := by
  cases habs : absorbed l chain a with
  | false => exact .inl rfl
  | true =>
      refine .inr ?_
      by_contra hlast
      obtain ⟨h1, b, -, huser⟩ := Fold.absorbed_use ht hc habs hlast
      exact single_user_slot h1 huser hd

/-- The addend of the head lies outside the chain. -/
theorem Fold.root_outside (hok : NodesOk c.nodes) (hm : l[i]? = some m) :
    absorbed l chain m.in2.toNat = false := by
  obtain ⟨rest, hrest, -⟩ := hc.start
  have hi : i ∈ chain := hrest ▸ List.mem_cons_self ..
  obtain ⟨m', hm'⟩ := hc.member i hi
  have hmm := hm'.at_
  rw [hm] at hmm
  cases hmm
  obtain ⟨h0, hlt⟩ := ht.operand hok hm (a := m.in2)
    (by rw [hm'.op]; simp [Node.inputs, arity])
  by_contra habs
  simp only [Bool.not_eq_false] at habs
  -- it is older than every multiply-add of the chain, so it is a load
  unfold absorbed at habs
  obtain ⟨b, hb, hba⟩ := List.any_eq_true.mp habs
  obtain ⟨mb, hmb⟩ := hc.member b hb
  unfold touches at hba
  rw [hmb.at_] at hba
  simp only [Option.any_some, Bool.or_eq_true, decide_eq_true_eq] at hba
  have hge := hc.ge_head b hb
  have hload : ∀ input ∈ [mb.in0, mb.in1],
      Absorbable l (countUses c) elem input →
      m.in2.toNat = input.toNat → False := by
    intro input hin habs heq
    have hin0 := habs.nonneg
    have heq' : input = m.in2 := by omega
    have hcast : (m.in2.toNat : Int) = m.in2 := Int.toNat_of_nonneg h0
    have hmem : (m.in2.toNat : Int) ∈ mb.inputs := by
      rw [hcast, ← heq']
      simp only [List.mem_cons, List.not_mem_nil, or_false] at hin
      rcases hin with rfl | rfl <;> simp [Node.inputs]
    have h1 : countUses c m.in2.toNat = 1 := heq ▸ habs.single
    have hib := single_user h1
      (ht.user hm hm'.live (by rw [hcast]; simp [Node.inputs]))
      (ht.user hmb.at_ hmb.live hmem)
    -- the head itself would refer to it twice
    subst hib
    have hmbm := hmb.at_
    rw [hm] at hmbm
    cases hmbm
    obtain ⟨n, hn, -, hinputs, hd⟩ := ht.was hm
    have hcount := single_count h1 hn (hd ▸ hm'.live)
    rw [← hinputs, hcast] at hcount
    simp only [List.mem_cons, List.not_mem_nil, or_false] at hin
    rcases hin with rfl | rfl
    · simp [Node.inputs, heq', List.count_cons] at hcount
    · simp [Node.inputs, heq', List.count_cons] at hcount
      omega
  rcases hba with hba | hba | hba
  · omega
  · exact hload _ (by simp) hmb.left hba
  · exact hload _ (by simp) hmb.right hba

-- --------------------------------------------------------- the two runs

/-- The states before and after a chain is tagged: they differ in the
nodes it absorbs, and from the head on the last of these holds the value
`r` of the chain. -/
structure Fold.Rel (chain : List Nat) (l : List Node) (i k : Nat) (r : V)
    (x y : Exec V) : Prop where
  guest : y.guest = x.guest
  packed : y.packed = x.packed
  env : ∀ j, absorbed l chain j = false → y.env j = x.env j
  sum : i < k → y.env (chain.getLastD i) = r

omit ht in
/-- Folding a chain changes tags only. -/
theorem Optimize.Chain.tags : Pointwise
    (fun _ n m => ∃ h t, m = tagged h t n) l (tagChain l chain) :=
  Pointwise.of_getElem? hc.get fun _ _ _ => ⟨_, _, rfl⟩

/-- The new tags do not change how a node of the Context before runs. -/
theorem Fold.execNode_same (hm : l[k]? = some m) :
    execNode fp init (tagChain l chain) k m x
      = execNode fp init l k m x := by
  unfold execNode
  split
  · rfl
  split
  · rfl
  split
  · next hhead =>
    have hhead : m.op = .FMAdd ∧ m.flags.fmaReduceHead = true := by
      simpa using hhead
    have hmem := (ht.head k m hm hhead.2).1
    unfold execReduce chainOf
    rw [ht.rewalk_old hc ⟨hm, hhead.1, hmem⟩,
      hc.tags.map_eq fun _ n m ⟨_, _, h⟩ => by rw [h]; rfl]
    simp only [streamVals_tagged hc.tags, List.mem_cons, true_or,
      or_true]
  · rfl

/-- A node outside the chain has the same effect on both sides. -/
theorem Fold.outside (hok : NodesOk c.nodes) {x y : Exec V} {r : V}
    (hrel : Fold.Rel chain l i k r x y)
    (hlast : chain.getLastD i < k →
      y.env (chain.getLastD i) = x.env (chain.getLastD i))
    (hk : absorbed l chain k = false) (hm : l[k]? = some m) :
    Fold.Rel chain l i (k + 1) r (execNode fp init l k m x)
      (execNode fp init (tagChain l chain) k m y) := by
  rw [Fold.execNode_same ht hc hm]
  have hmem : chain.getLastD i ∈ chain := by
    obtain ⟨rest, rfl, -⟩ := hc.start
    exact getLastD_mem _ _ _
  have hfree := ht.fresh_member hc hmem
  have hne : chain.getLastD i ≠ k := by
    rintro rfl
    rw [hc.absorbed_of_mem hmem] at hk
    cases hk
  have hik : i ≠ k := by
    rintro rfl
    obtain ⟨rest, rfl, -⟩ := hc.start
    rw [hc.absorbed_of_mem (List.mem_cons_self ..)] at hk
    cases hk
  have hsum : i < k + 1 →
      (execNode fp init l k m y).env (chain.getLastD i) = r := fun hlt => by
    rw [execNode_env_untagged hne hfree]
    exact hrel.sum (by omega)
  have hin : m.flags.dead = false → ∀ a ∈ m.inputs.take (arity m.op),
      y.env a.toNat = x.env a.toNat := by
    intro hlive a ha
    rcases Fold.operand_outside ht hc hok hk hm hlive ha
      with hout | ⟨heq, hlt⟩
    · exact hrel.env _ hout
    · rw [heq]
      exact hlast hlt
  obtain ⟨hg, hp, he⟩ :=
    execNode_congr fp init l k hrel.guest hrel.packed hin
  exact ⟨hg, hp, fun j hj => he j (hrel.env j hj), hsum⟩

/-- An absorbed node but the head: skipped now, and without effect on
anything else before. -/
theorem Fold.inside {x y : Exec V} {r : V}
    (hrel : Fold.Rel chain l i k r x y)
    (hk : absorbed l chain k = true) (hik : k ≠ i) (hm : l[k]? = some m) :
    Fold.Rel chain l i (k + 1) r (execNode fp init l k m x)
      (execNode fp init (tagChain l chain) k
        (tagged (decide (k = i)) (absorbed l chain k) m) y) := by
  have hfree := ht.fresh_chain hc hk m hm
  have hhead : m.flags.fmaReduceHead = false := by
    by_contra hh
    have := (ht.head k m hm (by simpa using hh)).1
    rw [hfree] at this
    cases this
  have hskip : execNode fp init (tagChain l chain) k
      (tagged (decide (k = i)) (absorbed l chain k) m) y = y := by
    simp [execNode, tagged, hk, hik, hhead]
  have hpure : (execNode fp init l k m x).guest = x.guest
      ∧ (execNode fp init l k m x).packed = x.packed := by
    obtain ⟨m', hm', hop⟩ := hc.absorbed_op hk
    rw [hm] at hm'
    cases hm'
    unfold execNode execOp
    rcases hop with hop | hop
    · cases m.flags.dead <;> simp [hop, hfree, hhead, Exec.assign]
    · rcases elemOp_load hc.width with helem | helem <;>
        rw [helem] at hop <;>
        cases m.flags.dead <;> simp [hop, hfree, Exec.assign]
  rw [hskip]
  refine ⟨hrel.guest.trans hpure.1.symm, hrel.packed.trans hpure.2.symm,
    fun j hj => ?_, fun hlt => hrel.sum (by omega)⟩
  have hjk : j ≠ k := by
    rintro rfl
    rw [hk] at hj
    cases hj
  rw [execNode_env_of_ne hjk hhead]
  exact hrel.env j hj

omit ht in
/-- The head: the whole chain is computed. -/
theorem Fold.atHead (hok : NodesOk c.nodes) (ht : Tagging c i l)
    (haim : Aimed l elem chain) (hfp : fp.Reorders) {x y : Exec V} {r : V}
    (hrel : Fold.Rel chain l i i r x y) (hm : l[i]? = some m)
    (hr : r = chain.foldl (term fp l elem x.guest)
      (x.env m.in2.toNat)) :
    Fold.Rel chain l i (i + 1) r (execNode fp init l i m x)
      (execNode fp init (tagChain l chain) i
        (tagged (decide (i = i)) (absorbed l chain i) m) y) := by
  obtain ⟨rest, hrest, -⟩ := hc.start
  have hi : i ∈ chain := hrest ▸ List.mem_cons_self ..
  obtain ⟨m', hm'⟩ := hc.member i hi
  have hmm := hm'.at_
  rw [hm] at hmm
  cases hmm
  have hfree := hc.free m hm
  have hhead : m.flags.fmaReduceHead = false := by
    by_contra hh
    have := (ht.head i m hm (by simpa using hh)).1
    rw [hfree] at this
    cases this
  have hx : execNode fp init l i m x = execOp fp init i m x := by
    simp [execNode, hm'.live, hfree, hhead]
  have hy : execNode fp init (tagChain l chain) i
      (tagged (decide (i = i)) (absorbed l chain i) m) y
      = y.assign (chain.getLastD i)
          (chain.foldl (term fp l elem x.guest) (x.env m.in2.toNat)) := by
    have hreduce : execNode fp init (tagChain l chain) i
        (tagged (decide (i = i)) (absorbed l chain i) m) y
        = execReduce fp (tagChain l chain) i
            (tagged (decide (i = i)) (absorbed l chain i) m) y := by
      simp [execNode, tagged, hm'.live, hm'.op]
    have helem : ((tagChain l chain)[m.in0.toNat]?.map Node.op).getD
        .LoadF32 = elem := by
      obtain ⟨ld, hld, hop, -⟩ := hm'.left.node
      rw [hc.get, hld]
      exact hop
    rw [hreduce]
    unfold execReduce
    dsimp only [tagged]
    rw [helem, ht.chainOf_new hc, hrel.guest,
      streamVals_tagged hc.tags (by simp),
      streamVals_tagged hc.tags (by simp), haim.streamVals (by simp),
      haim.streamVals (by simp), lanes_eq hfp, zip_streams,
      hfp.add_zero]
    unfold Exec.val
    rw [hrel.env _ (Fold.root_outside ht hc hok hm)]
  rw [hx, hy]
  refine ⟨?_, ?_, fun j hj => ?_, fun _ => ?_⟩
  · simp [execOp, hm'.op, Exec.assign, hrel.guest]
  · simp [execOp, hm'.op, Exec.assign, hrel.packed]
  · have hlast : j ≠ chain.getLastD i := by
      rintro rfl
      rw [hc.absorbed_of_mem (by rw [hrest]; exact getLastD_mem _ _ _)]
        at hj
      cases hj
    have hji : j ≠ i := by
      rintro rfl
      rw [hc.absorbed_of_mem hi] at hj
      cases hj
    rw [execOp_env_of_ne hji, ← hrel.env j hj]
    exact Function.update_of_ne hlast _ _
  · rw [hr]
    exact Function.update_self ..

include ht

variable (init x) in
/-- The run with the chain folded and the run without it. -/
theorem Fold.sim (hok : NodesOk c.nodes) (hsafe : Safe l i chain)
    (haim : Aimed l elem chain) (hfp : fp.Reorders) (k : Nat) :
    Fold.Rel chain l i k
      ((execTo fp init l x (chain.getLastD i + 1)).env (chain.getLastD i))
      (execTo fp init l x k) (execTo fp init (tagChain l chain) x k) := by
  obtain ⟨rest, hrest, -⟩ := hc.start
  have hi : i ∈ chain := hrest ▸ List.mem_cons_self ..
  have hlastMem : chain.getLastD i ∈ chain := by
    rw [hrest]
    exact getLastD_mem _ _ _
  induction k with
  | zero =>
      exact ⟨rfl, rfl, fun _ _ => rfl, fun h => absurd h (Nat.not_lt_zero i)⟩
  | succ k ih =>
      cases hm : l[k]? with
      | none =>
          have hm' : (tagChain l chain)[k]? = none := by
            rw [hc.get, hm]
            rfl
          rw [execTo_none hm, execTo_none hm']
          refine ⟨ih.guest, ih.packed, ih.env, fun hlt => ih.sum ?_⟩
          -- the head exists, so it is not here
          obtain ⟨m, hmi⟩ := hc.member i hi
          have hne : i ≠ k := by
            rintro rfl
            rw [hmi.at_] at hm
            cases hm
          omega
      | some m =>
          have hm' : (tagChain l chain)[k]? = some
              (tagged (decide (k = i)) (absorbed l chain k) m) := by
            rw [hc.get, hm]
            rfl
          rw [execTo_succ hm, execTo_succ hm']
          cases hk : absorbed l chain k with
          | false =>
              have hki : k ≠ i := by
                rintro rfl
                rw [hc.absorbed_of_mem hi] at hk
                cases hk
              rw [decide_eq_false hki, tagged_false]
              refine Fold.outside ht hc hok ih (fun hlt => ?_) hk hm
              have hge := hc.ge_head _ hlastMem
              rw [ih.sum (by omega)]
              exact (execTo_env_untagged hlt
                (ht.fresh_member hc hlastMem)).symm
          | true =>
              rw [← hk]
              by_cases hki : k = i
              · subst hki
                exact Fold.atHead hc hok ht haim hfp ih hm
                  (Fold.chain_value fp init x hok ht hc hsafe hm).2.2
              · exact Fold.inside ht hc ih hk hki hm

variable (init x) in
/-- Folding a safe chain changes neither the guest, at any point, nor the
final stack. -/
theorem Fold.denote (hok : NodesOk c.nodes) (hsafe : Safe l i chain)
    (haim : Aimed l elem chain) (hfp : fp.Reorders) (junk : Nat → V)
    (hslots : ∀ d id, c.slotVal d = .node id → id < c.numNodes) :
    (∀ k, (execTo fp init (tagChain l chain) x k).guest
        = (execTo fp init l x k).guest) ∧
      X87Sidecar.denote fp init junk
          { c with nodes := tagChain l chain }
        = X87Sidecar.denote fp init junk { c with nodes := l } := by
  refine ⟨fun k => (Fold.sim init x ht hc hok hsafe haim hfp k).guest, ?_⟩
  have hlen : (tagChain l chain).length = l.length :=
    (Pointwise.of_getElem? (R := fun _ _ _ => True) hc.get
      fun _ _ _ => trivial).length
  have hrel := Fold.sim init (start init junk) ht hc hok hsafe haim hfp
    l.length
  unfold X87Sidecar.denote Denote.body
  simp only [hlen]
  congr 1
  · unfold Denote.epilogue
    rw [hrel.guest]
  · funext d
    unfold Denote.slot
    dsimp only
    cases hd : c.slotVal d with
    | node id =>
        have hid : id < l.length := by
          rw [ht.same.length]
          exact hslots d id hd
        have hval : (execTo fp init (tagChain l chain) (start init junk)
            l.length).env id
            = (execTo fp init l (start init junk) l.length).env id := by
          rcases Fold.slot_outside ht hc hd with hout | rfl
          · exact hrel.env id hout
          · have hlastMem : chain.getLastD i ∈ chain := by
              obtain ⟨rest, rfl, -⟩ := hc.start
              exact getLastD_mem _ _ _
            have hge := hc.ge_head _ hlastMem
            rw [hrel.sum (by omega)]
            exact (execTo_env_untagged hid
              (ht.fresh_member hc hlastMem)).symm
        simp only [hval]
    | initial _ => rfl
    | popped => rfl

end Fold

end X87Sidecar
