/-
The tags the reduction pass leaves, and the chains `lower` finds again.

The pass tags chain after chain; `lower` walks each chain again from its
head through tagged multiply-adds. The two walks agree (`chainOf_tagged`)
although the second one sees the tags of every chain, because chains share
no node (`Tagging.fresh_chain`) and none continues another.
-/
import X87Sidecar.Proofs.Optimize.Values
import Mathlib.Data.List.Chain

namespace X87Sidecar

open Lib Optimize Denote

/-- The nodes before turn `i` of `pass_fma_reduce`. -/
def reduceTo (c : Context) (i : Nat) : List Node :=
  forNodes i (reduceNode (countUses c)) c.nodes

theorem reduceTo_succ (c : Context) (i : Nat) :
    reduceTo c (i + 1) = reduceNode (countUses c) i (reduceTo c i) := by
  unfold reduceTo forNodes
  rw [List.range_succ, List.foldl_append]
  rfl

/-- A tagged multiply-add. -/
structure MemberAt (l : List Node) (k : Nat) (m : Node) : Prop where
  at_ : l[k]? = some m
  op : m.op = .FMAdd
  member : m.flags.fmaReduceMember = true

/-- The tags before turn `i`. -/
structure Tagging (c : Context) (i : Nat) (l : List Node) : Prop where
  /-- nothing but tags has changed -/
  same : Pointwise (fun _ n m => ∃ h t, m = tagged h t n) c.nodes l
  /-- heads are members, among the nodes visited -/
  head : ∀ (k : Nat) (n : Node), l[k]? = some n →
    n.flags.fmaReduceHead = true →
    n.flags.fmaReduceMember = true ∧ n.op = .FMAdd ∧ k < i
  /-- the other members accumulate onto a member -/
  inner : ∀ (k : Nat) (n : Node), MemberAt l k n →
    n.flags.fmaReduceHead = false →
    ∃ (p : Nat) (m : Node), n.in2 = p ∧ MemberAt l p m

variable {c : Context} {l : List Node} {i k tail fuel : Nat} {elem : Op}
  {chain : List Nat}

-- =========================================================== one chain

/-- The nodes of a chain go up from its head. -/
theorem Optimize.Chain.ge_head {uses : Nat → Int}
    (h : Chain l uses i elem chain) : ∀ k ∈ chain, i ≤ k := by
  obtain ⟨rest, rfl, -⟩ := h.start
  have hlt : (i :: rest).IsChain (· < ·) :=
    h.linked.imp fun _ _ hab => (nextFma_spec hab.next).later
  intro k hk
  rcases List.mem_cons.mp hk with rfl | hk
  · exact Nat.le_refl _
  · exact Nat.le_of_lt (hlt.rel_cons hk)

/-- A multiply-add of a chain is its head, or accumulates onto another of
its multiply-adds that has no other use. -/
theorem Optimize.Chain.follows {uses : Nat → Int}
    (h : Chain l uses i elem chain) (hk : k ∈ chain) :
    k = i ∨ ∃ a ∈ chain, Link l uses a k := by
  obtain ⟨rest, rfl, -⟩ := h.start
  rcases List.mem_cons.mp hk with rfl | hk
  · exact .inl rfl
  · exact .inr (linked_mem_tail h.linked k hk)

/-- An absorbed multiply-add is one of the chain. -/
theorem Optimize.Chain.mem_of_absorbed {uses : Nat → Int} {n : Node}
    (h : Chain l uses i elem chain) (ha : absorbed l chain k = true)
    (hn : l[k]? = some n) (hop : n.op = .FMAdd) : k ∈ chain := by
  unfold absorbed at ha
  obtain ⟨b, hb, hbk⟩ := List.any_eq_true.mp ha
  obtain ⟨m, hm⟩ := h.member b hb
  unfold touches at hbk
  rw [hm.at_] at hbk
  simp only [Option.any_some, Bool.or_eq_true, decide_eq_true_eq] at hbk
  have hload : ∀ input, Absorbable l uses elem input →
      k = input.toNat → k ∈ chain := by
    intro input hin hki
    obtain ⟨ld, hld, hldop, -⟩ := hin.node
    rw [← hki, hn] at hld
    cases hld
    rw [hop] at hldop
    rcases elemOp_load h.width with helem | helem <;>
      rw [helem] at hldop <;> cases hldop
  rcases hbk with rfl | hbk | hbk
  · exact hb
  · exact hload _ hm.left hbk
  · exact hload _ hm.right hbk

theorem Optimize.Chain.absorbed_of_mem {uses : Nat → Int}
    (_ : Chain l uses i elem chain) (hk : k ∈ chain) :
    absorbed l chain k = true := by
  unfold absorbed
  exact List.any_eq_true.mpr ⟨k, hk, by simp [touches]⟩

section Step

variable (ht : Tagging c i l)
  (hc : Chain l (countUses c) i elem chain)

include ht hc

/-- The multiply-adds of a new chain carry no tag. -/
theorem Tagging.fresh_member (hk : k ∈ chain) :
    ∀ n, l[k]? = some n → n.flags.fmaReduceMember = false := by
  induction k using Nat.strong_induction_on with
  | _ k ih =>
      intro n hn
      rcases hc.follows hk with rfl | ⟨a, ha, hlink⟩
      · exact hc.free n hn
      · obtain ⟨hlt, m, hm, hlive, hop, hin2⟩ := nextFma_spec hlink.next
        rw [hn] at hm
        cases hm
        by_contra hmem
        have hmem : n.flags.fmaReduceMember = true := by simpa using hmem
        cases hhead : n.flags.fmaReduceHead with
        | true =>
            have := (ht.head k n hn hhead).2.2
            have := hc.ge_head a ha
            omega
        | false =>
            obtain ⟨p, m', hp, hm'⟩ := ht.inner k n ⟨hn, hop, hmem⟩ hhead
            have hpa : p = a := by omega
            subst hpa
            have := ih p hlt ha m' hm'.at_
            rw [hm'.member] at this
            cases this

/-- None of the nodes a chain absorbs carries a tag. -/
theorem Tagging.fresh_chain {a : Nat}
    (ha : absorbed l chain a = true) :
    ∀ n, l[a]? = some n → n.flags.fmaReduceMember = false := by
  intro n hn
  by_cases hop : n.op = .FMAdd
  · exact ht.fresh_member hc (hc.mem_of_absorbed ha hn hop) n hn
  · unfold absorbed at ha
    obtain ⟨b, hb, hba⟩ := List.any_eq_true.mp ha
    obtain ⟨m, hm⟩ := hc.member b hb
    unfold touches at hba
    rw [hm.at_] at hba
    simp only [Option.any_some, Bool.or_eq_true, decide_eq_true_eq]
      at hba
    have hload : ∀ input, Absorbable l (countUses c) elem input →
        a = input.toNat → n.flags.fmaReduceMember = false := by
      intro input hin hai
      obtain ⟨ld, hld, -, -, hfree, -⟩ := hin.node
      rw [← hai, hn] at hld
      cases hld
      exact hfree
    rcases hba with rfl | hba | hba
    · rw [hm.at_] at hn
      cases hn
      exact absurd hm.op hop
    · exact hload _ hm.left hba
    · exact hload _ hm.right hba

end Step

-- ======================================================== the two walks

/-- What `lower`'s walk looks for past `tail`. -/
def Follows (l : List Node) (tail j : Nat) : Prop :=
  tail < j ∧ ∃ m, MemberAt l j m ∧ m.flags.dead = false
    ∧ m.in2 = (tail : Int)

/-- The condition `nextMember` searches with. -/
theorem follows_iff {j : Nat} : Follows l tail j ↔
    (tail < j && match l[j]? with
      | some m => !m.flags.dead && m.op = .FMAdd
          && m.flags.fmaReduceMember && m.in2 = tail
      | none => false) = true := by
  unfold Follows
  cases hm : l[j]? with
  | none =>
      simp only [Bool.and_false, Bool.false_eq_true, iff_false]
      rintro ⟨-, m, hm', -⟩
      have hat := hm'.at_
      rw [hm] at hat
      cases hat
  | some m =>
      simp only [Bool.and_eq_true, Bool.not_eq_true', decide_eq_true_eq]
      constructor
      · rintro ⟨hlt, m', ⟨hm', hop, hmem⟩, hd, hin⟩
        rw [hm] at hm'
        cases hm'
        exact ⟨hlt, ⟨⟨hd, hop⟩, hmem⟩, hin⟩
      · rintro ⟨hlt, ⟨⟨hd, hop⟩, hmem⟩, hin⟩
        exact ⟨hlt, m, ⟨hm, hop, hmem⟩, hd, hin⟩

theorem nextMember_eq_some {b : Nat} :
    nextMember l tail = some b ↔
      Follows l tail b ∧ ∀ j, j < b → ¬Follows l tail j := by
  unfold nextMember
  rw [List.find?_range_eq_some]
  simp only [Bool.not_eq_true', ← Bool.not_eq_true]
  constructor
  · rintro ⟨hb, -, hmin⟩
    exact ⟨follows_iff.mpr hb, fun j hj h => hmin j hj (follows_iff.mp h)⟩
  · rintro ⟨hb, hmin⟩
    obtain ⟨-, m, hm, -⟩ := id hb
    obtain ⟨hlt, -⟩ := List.getElem?_eq_some_iff.mp hm.at_
    exact ⟨follows_iff.mp hb, List.mem_range.mpr hlt,
      fun j hj h => hmin j hj (follows_iff.mpr h)⟩

theorem nextMember_eq_none :
    nextMember l tail = none ↔ ∀ j, ¬Follows l tail j := by
  unfold nextMember
  rw [List.find?_range_eq_none]
  simp only [Bool.not_eq_true', ← Bool.not_eq_true]
  constructor
  · intro h j hj
    obtain ⟨-, m, hm, -⟩ := id hj
    obtain ⟨hlt, -⟩ := List.getElem?_eq_some_iff.mp hm.at_
    exact h j hlt (follows_iff.mp hj)
  · intro h j _ hj
    exact h j (follows_iff.mpr hj)

/-- The walk depends on what follows what. -/
theorem nextMember_congr {l' : List Node}
    (h : ∀ j, Follows l' tail j ↔ Follows l tail j) :
    nextMember l' tail = nextMember l tail := by
  cases hn : nextMember l tail with
  | none =>
      rw [nextMember_eq_none] at hn ⊢
      intro j
      rw [h]
      exact hn j
  | some b =>
      rw [nextMember_eq_some] at hn ⊢
      simp only [h]
      exact hn

-- --------------------------------------------------- the chain just made

section Step

variable (ht : Tagging c i l)
  (hc : Chain l (countUses c) i elem chain)

/-- A node after the chain is tagged. -/
theorem Optimize.Chain.get {uses : Nat → Int}
    (h : Chain l uses i elem chain) (a : Nat) :
    (tagChain l chain)[a]?
      = l[a]?.map (tagged (decide (a = i)) (absorbed l chain a)) := by
  obtain ⟨rest, rfl, -⟩ := h.start
  exact tagChain_getElem? l (i :: rest) a

/-- A multiply-add tagged afterwards was tagged before, or is the
chain's. -/
theorem Optimize.Chain.memberAt {uses : Nat → Int} {n : Node}
    (h : Chain l uses i elem chain) :
    MemberAt (tagChain l chain) k n ↔
      ∃ m, l[k]? = some m ∧ m.op = .FMAdd
        ∧ (m.flags.fmaReduceMember = true ∨ k ∈ chain)
        ∧ n = tagged (decide (k = i)) (absorbed l chain k) m := by
  constructor
  · rintro ⟨hn, hop, hmem⟩
    rw [h.get] at hn
    obtain ⟨m, hm, rfl⟩ := Option.map_eq_some_iff.mp hn
    refine ⟨m, hm, hop, ?_, rfl⟩
    rcases Bool.or_eq_true .. |>.mp hmem with hmem | habs
    · exact .inl hmem
    · exact .inr (h.mem_of_absorbed habs hm hop)
  · rintro ⟨m, hm, hop, hmem, rfl⟩
    refine ⟨?_, hop, ?_⟩
    · rw [h.get, hm]
      rfl
    · rcases hmem with hmem | hmem
      · exact Bool.or_eq_true .. |>.mpr (.inl hmem)
      · exact Bool.or_eq_true .. |>.mpr (.inr (h.absorbed_of_mem hmem))

theorem Optimize.Chain.follows_tagged {uses : Nat → Int} {j : Nat}
    (h : Chain l uses i elem chain) :
    Follows (tagChain l chain) tail j ↔
      Follows l tail j ∨ Accumulates l tail j ∧ j ∈ chain := by
  constructor
  · rintro ⟨hlt, n, hn, hd, hin⟩
    obtain ⟨m, hm, hop, hmem, rfl⟩ := h.memberAt.mp hn
    rcases hmem with hmem | hmem
    · exact .inl ⟨hlt, m, ⟨hm, hop, hmem⟩, hd, hin⟩
    · exact .inr ⟨⟨hlt, m, hm, hd, hop, hin⟩, hmem⟩
  · rintro (⟨hlt, m, ⟨hm, hop, hmem⟩, hd, hin⟩
      | ⟨⟨hlt, m, hm, hd, hop, hin⟩, hmem⟩)
    · exact ⟨hlt, _, h.memberAt.mpr ⟨m, hm, hop, .inl hmem, rfl⟩, hd, hin⟩
    · exact ⟨hlt, _, h.memberAt.mpr ⟨m, hm, hop, .inr hmem, rfl⟩, hd, hin⟩

include ht hc

/-- Nothing tagged before the chain was accumulates onto it. -/
theorem Tagging.not_follows (hk : k ∈ chain) (j : Nat) :
    ¬Follows l k j := by
  rintro ⟨hlt, m, hm, -, hin⟩
  cases hhead : m.flags.fmaReduceHead with
  | true =>
      have := (ht.head j m hm.at_ hhead).2.2
      have := hc.ge_head k hk
      omega
  | false =>
      obtain ⟨p, m', hp, hm'⟩ := ht.inner j m hm hhead
      have hpk : p = k := by omega
      subst hpk
      have := ht.fresh_member hc hk m' hm'.at_
      rw [hm'.member] at this
      cases this

/-- From a node of the chain `lower` walks on as the pass did. -/
theorem Tagging.rewalk_chain
    (hsuffix : tail :: extend l (countUses c) fuel tail <:+ chain) :
    rewalk (tagChain l chain) fuel tail
      = extend l (countUses c) fuel tail := by
  induction fuel generalizing tail with
  | zero => rfl
  | succ fuel ih =>
      have htail : tail ∈ chain := hsuffix.mem (List.mem_cons_self ..)
      have hold := ht.not_follows hc htail
      unfold extend at hsuffix ⊢
      unfold rewalk
      cases hnext : nextFma l tail with
      | none =>
          have hnone : nextMember (tagChain l chain) tail = none := by
            refine nextMember_eq_none.mpr fun j hj => ?_
            rcases hc.follows_tagged.mp hj with hj | ⟨hj, -⟩
            · exact hold j hj
            · exact nextFma_eq_none hnext j hj
          simp only [hnone]
      | some b =>
          obtain ⟨hacc, hmin⟩ := nextFma_eq_some hnext
          by_cases h1 : countUses c tail = 1
          · simp only [hnext, if_pos h1] at hsuffix ⊢
            have hb : b ∈ chain := hsuffix.mem (by simp)
            have hsome : nextMember (tagChain l chain) tail = some b := by
              refine nextMember_eq_some.mpr
                ⟨hc.follows_tagged.mpr (.inr ⟨hacc, hb⟩),
                  fun j hj hfollows => ?_⟩
              rcases hc.follows_tagged.mp hfollows with hf | ⟨hf, -⟩
              · exact hold j hf
              · exact hmin j hj hf
            simp only [hsome]
            rw [ih ((List.suffix_cons tail _).trans hsuffix)]
          · simp only [if_neg h1]
            -- a tail with another use is no tagged node's accumulator
            have hnone : nextMember (tagChain l chain) tail = none := by
              refine nextMember_eq_none.mpr fun j hj => ?_
              rcases hc.follows_tagged.mp hj with hj | ⟨hj, hjc⟩
              · exact hold j hj
              · rcases hc.follows hjc with rfl | ⟨a, -, hlink⟩
                · have := hc.ge_head tail htail
                  have := hj.later
                  omega
                · obtain ⟨-, m, hm, -, -, hin⟩ := nextFma_spec hlink.next
                  obtain ⟨-, m', hm', -, -, hin'⟩ := hj
                  rw [hm] at hm'
                  cases hm'
                  have hat : a = tail := by omega
                  exact h1 (hat ▸ hlink.single)
            simp only [hnone]

/-- The chain `lower` finds at the head just tagged. -/
theorem Tagging.chainOf_new : chainOf (tagChain l chain) i = chain := by
  have hwalk := hc.walk
  unfold chainOf
  rw [ht.rewalk_chain hc (hwalk ▸ List.suffix_refl _)]
  exact hwalk.symm

/-- A chain tagged before is not continued by the new one. -/
theorem Tagging.follows_old {n : Node} (hn : MemberAt l tail n)
    (j : Nat) : Follows (tagChain l chain) tail j ↔ Follows l tail j := by
  rw [hc.follows_tagged]
  refine or_iff_left ?_
  rintro ⟨⟨-, m, hm, -, -, hin⟩, hj⟩
  rcases hc.follows hj with rfl | ⟨a, ha, hlink⟩
  · have := hc.root m hm tail n hin hn.at_ hn.op
    rw [hn.member] at this
    cases this
  · obtain ⟨-, m', hm', -, -, hin'⟩ := nextFma_spec hlink.next
    rw [hm] at hm'
    cases hm'
    have hat : a = tail := by omega
    subst hat
    have := ht.fresh_member hc ha n hn.at_
    rw [hn.member] at this
    cases this

theorem Tagging.rewalk_old {n : Node} (hn : MemberAt l tail n) :
    rewalk (tagChain l chain) fuel tail = rewalk l fuel tail := by
  induction fuel generalizing tail n with
  | zero => rfl
  | succ fuel ih =>
      unfold rewalk
      rw [nextMember_congr (ht.follows_old hc hn)]
      cases hnext : nextMember l tail with
      | none => rfl
      | some b =>
          obtain ⟨⟨-, m, hm, -⟩, -⟩ := nextMember_eq_some.mp hnext
          simp only [ih hm]

/-- The tags after the chain is tagged. -/
theorem Tagging.tagChain : Tagging c (i + 1) (tagChain l chain) where
  same := by
    refine ht.same.trans (S := fun _ n m => ∃ h t, m = tagged h t n)
      (Pointwise.of_getElem? hc.get fun a n hn => ⟨_, _, rfl⟩) ?_
    rintro a n _ _ ⟨h, t, rfl⟩ ⟨h', t', rfl⟩
    exact ⟨_, _, tagged_tagged _ _ _ _ _⟩
  head := by
    intro k n hn hhead
    rw [hc.get] at hn
    obtain ⟨m, hm, rfl⟩ := Option.map_eq_some_iff.mp hn
    rcases Bool.or_eq_true .. |>.mp hhead with hold | hnew
    · obtain ⟨hmem, hop, hlt⟩ := ht.head k m hm hold
      exact ⟨Bool.or_eq_true .. |>.mpr (.inl hmem), hop,
        Nat.lt_succ_of_lt hlt⟩
    · have hki : k = i := of_decide_eq_true hnew
      subst hki
      have hk : k ∈ chain := by
        obtain ⟨rest, rfl, -⟩ := hc.start
        exact List.mem_cons_self ..
      obtain ⟨m', hm'⟩ := hc.member k hk
      rw [hm'.at_] at hm
      cases hm
      exact ⟨Bool.or_eq_true .. |>.mpr (.inr (hc.absorbed_of_mem hk)),
        hm'.op, Nat.lt_succ_self _⟩
  inner := by
    intro k n hn hhead
    obtain ⟨m, hm, hop, hmem, rfl⟩ := hc.memberAt.mp hn
    obtain ⟨hhead', hki⟩ := Bool.or_eq_false_iff.mp hhead
    have hlift : ∀ {p : Nat} {a : Node}, l[p]? = some a →
        a.op = .FMAdd → (a.flags.fmaReduceMember = true ∨ p ∈ chain) →
        ∃ (q : Nat) (b : Node), (p : Int) = q
          ∧ MemberAt (Optimize.tagChain l chain) q b :=
      fun ha haop hamem =>
        ⟨_, _, rfl, hc.memberAt.mpr ⟨_, ha, haop, hamem, rfl⟩⟩
    rcases hmem with hmem | hmem
    · obtain ⟨p, a, hp, ha⟩ := ht.inner k m ⟨hm, hop, hmem⟩ hhead'
      show ∃ (q : Nat) (b : Node), m.in2 = q ∧ _
      rw [hp]
      exact hlift ha.at_ ha.op (.inl ha.member)
    · rcases hc.follows hmem with rfl | ⟨a, ha, hlink⟩
      · simp at hki
      · obtain ⟨-, m', hm', -, -, hin⟩ := nextFma_spec hlink.next
        rw [hm] at hm'
        cases hm'
        obtain ⟨ma, hma⟩ := hc.member a ha
        show ∃ (q : Nat) (b : Node), m.in2 = q ∧ _
        rw [hin]
        exact hlift hma.at_ hma.op (.inr ha)

end Step

-- ============================================================ all chains

/-- The heads before turn `i` are those the pass has made, and `lower`
walks their chains as the pass did. -/
structure Walked (c : Context) (i : Nat) (l : List Node) : Prop where
  tags : Tagging c i l
  made : ∀ h, h < i → ∀ chain,
    findChain (countUses c) (reduceTo c h) h = some chain →
    (∃ n, l[h]? = some n ∧ n.flags.fmaReduceHead = true)
      ∧ chainOf l h = chain
  found : ∀ (h : Nat) (n : Node), l[h]? = some n →
    n.flags.fmaReduceHead = true →
    ∃ chain, findChain (countUses c) (reduceTo c h) h = some chain

theorem Walked.init (hok : NodesOk c.nodes) : Walked c 0 c.nodes where
  tags :=
    { same := Pointwise.refl (fun _ n => ⟨false, false, by simp⟩) _
      head := fun k n hn hhead => by
        rw [(hok k n hn).head] at hhead
        cases hhead
      inner := fun k n hn _ => by
        have := hn.member
        rw [(hok k n hn.at_).member] at this
        cases this }
  made := fun h hh => absurd hh (Nat.not_lt_zero h)
  found := fun h n hn hhead => by
    rw [(hok h n hn).head] at hhead
    cases hhead

theorem Walked.turn (h : Walked c i (reduceTo c i)) :
    Walked c (i + 1) (reduceTo c (i + 1)) := by
  rw [reduceTo_succ]
  unfold reduceNode
  cases hfind : findChain (countUses c) (reduceTo c i) i with
  | none =>
      refine ⟨⟨h.tags.same, fun k n hn hh => ?_, h.tags.inner⟩,
        fun k hk chain hchain => ?_, h.found⟩
      · obtain ⟨hm, hop, hlt⟩ := h.tags.head k n hn hh
        exact ⟨hm, hop, Nat.lt_succ_of_lt hlt⟩
      · rcases Nat.lt_succ_iff_lt_or_eq.mp hk with hk | rfl
        · exact h.made k hk chain hchain
        · rw [hfind] at hchain
          cases hchain
  | some chain =>
      obtain ⟨elem, hc⟩ := findChain_spec hfind
      refine ⟨h.tags.tagChain hc, fun k hk chain' hchain => ?_,
        fun k n hn hhead => ?_⟩
      · rcases Nat.lt_succ_iff_lt_or_eq.mp hk with hk | rfl
        · obtain ⟨⟨n, hn, hhead⟩, hwalk⟩ := h.made k hk chain' hchain
          obtain ⟨hmem, hop, -⟩ := h.tags.head k n hn hhead
          refine ⟨⟨_, by rw [hc.get, hn]; rfl,
            Bool.or_eq_true .. |>.mpr (.inl hhead)⟩, ?_⟩
          rw [← hwalk]
          unfold chainOf
          rw [h.tags.rewalk_old hc ⟨hn, hop, hmem⟩]
        · rw [hfind] at hchain
          cases hchain
          obtain ⟨rest, hrest, -⟩ := hc.start
          obtain ⟨m, hm⟩ := hc.member k (hrest ▸ List.mem_cons_self ..)
          exact ⟨⟨_, by rw [hc.get, hm.at_]; rfl, by simp [tagged]⟩,
            h.tags.chainOf_new hc⟩
      · rw [hc.get] at hn
        obtain ⟨m, hm, rfl⟩ := Option.map_eq_some_iff.mp hn
        rcases Bool.or_eq_true .. |>.mp hhead with hold | hnew
        · exact h.found k m hm hold
        · have hki : k = i := of_decide_eq_true hnew
          subst hki
          exact ⟨chain, hfind⟩

/-- After every turn. -/
theorem reduceTo_walked (hok : NodesOk c.nodes) (i : Nat) :
    Walked c i (reduceTo c i) := by
  induction i with
  | zero => exact Walked.init hok
  | succ i ih => exact ih.turn

end X87Sidecar
