import TreeMatching.Proofs.Growth

set_option autoImplicit false

/-!
# The first partner that fits

An inner node takes the first free node of its kind that fits, in post-order.  Whether two nodes fit
depends on the links found so far, and every link changes them.  Still, nothing that was turned down
becomes acceptable later: only partners of descendants count, and in post-order all descendants of a
node have been tried before the node itself.

## Main definitions

* `FirstFit.Tried` — what holds after the source nodes of a list have been tried.

## Main results

* `FirstFit.fits_insert` — linking a node leaves alone what fits a node that is not above it.
* `FirstFit.returns_settle` — what happens to one source node.
* `FirstFit.Tried.returns_settle` — trying one more node.
* `first_fit_leaves_nothing_that_fits` — after the stage no two free inner nodes of one kind fit,
  and whatever fitted earlier than the partner of a node had been taken.
-/

namespace TreeMatching

open Matching

namespace FirstFit

variable {task : Task} {p q : Pairing} {a b c : NodeId}

/-! ### What fits -/

/-- Whether two nodes fit depends only on the partners of what lies below the source node. -/
lemma fits_congr (h : ∀ d ∈ task.src.descendants a, p.dst? d = q.dst? d) :
    fits task p a b = fits task q a b := by
  have hcommon : (Overlap.between task.src task.dst p a b).common =
      (Overlap.between task.src task.dst q a b).common := by
    refine List.countP_congr fun d hd => ?_
    rw [h d hd]
  have hbetween : Overlap.between task.src task.dst p a b =
      Overlap.between task.src task.dst q a b := by
    simp only [Overlap.between] at hcommon ⊢
    rw [hcommon]
  rw [fits, fits, hbetween]

/-- Linking a node leaves alone what fits a node that does not come behind it in post-order. -/
lemma fits_insert {s d : NodeId} (ha : a ∈ task.src.preOrder)
    (hs : task.src.postIndex a ≤ task.src.postIndex s) :
    fits task (q.insert s d) a b = fits task q a b := by
  refine fits_congr fun x hx => ?_
  have hbelow := Tree.postIndex_lt_of_mem_descendants ha hx
  rw [Pairing.dst?_insert, if_neg]
  rintro rfl
  omega

/-- The nodes that are tried are the free inner nodes of the kind of the source node. -/
lemma mem_eligible_iff : b ∈ eligible task p a ↔
    task.dst.isLeaf b = false ∧ p.src? b = none ∧ task.src.sameKind task.dst a b = true := by
  rw [eligible, List.mem_filter, Tree.mem_postOrder_iff, Bool.and_eq_true, Bool.and_eq_true,
    Pairing.not_hasDst_iff, Bool.not_eq_true']
  constructor
  · rintro ⟨-, ⟨hleaf, hfree⟩, hkind⟩
    exact ⟨hleaf, hfree, hkind⟩
  · rintro ⟨hleaf, hfree, hkind⟩
    exact ⟨(Tree.sameKind_iff.1 hkind).2.1, ⟨hleaf, hfree⟩, hkind⟩

/-- No node in front of the first that fits does. -/
lemma not_fits_before (hfound : (eligible task q a).find? (fits task q a) = some b)
    (hc : c ∈ eligible task q a) (hlt : task.dst.postIndex c < task.dst.postIndex b) :
    fits task q a c = false := by
  obtain ⟨-, before, behind, hsplit, hbefore⟩ := List.find?_eq_some_iff_append.1 hfound
  have hsorted : (before ++ b :: behind).Pairwise
      fun x y => task.dst.postIndex x < task.dst.postIndex y := by
    rw [← hsplit]
    exact task.dst.pairwise_postOrder.filter _
  rw [hsplit, List.mem_append, List.mem_cons] at hc
  rcases hc with hc | rfl | hc
  · simpa using hbefore c hc
  · omega
  · have hbehind := (List.pairwise_cons.1 (List.pairwise_append.1 hsorted).2.1).1 c hc
    omega

/-! ### Trying one node after the other -/

/-- **What happens to one source node.**  It is linked to the first eligible node that fits; nothing
happens if it is a leaf, if it has a partner, or if nothing fits.

**Proof sketch.** The two conditions of the definition are that the node is a free inner one and
that some eligible node fits.  If both hold, the first eligible node that fits is free, so that it
can be linked. -/
lemma returns_settle (task : Task) (q : Pairing) (a : NodeId) :
    Returns (settle task a) q fun _ r =>
      (r = q ∧ (task.src.isLeaf a = false → q.dst? a = none →
        ∀ b ∈ eligible task q a, fits task q a b = false)) ∨
      ∃ b, task.src.isLeaf a = false ∧ q.dst? a = none ∧
        (eligible task q a).find? (fits task q a) = some b ∧ r = q.insert a b := by
  refine returns_pairing_bind ?_
  split
  · next hcond =>
    rw [Bool.and_eq_true, Bool.not_eq_true', Pairing.not_hasSrc_iff] at hcond
    refine returns_tally_bind ?_
    split
    · next b hb =>
      have hfree := (mem_eligible_iff.1 (List.mem_of_find?_eq_some hb)).2.1
      exact returns_link hcond.2 hfree (.inr ⟨b, hcond.1, hcond.2, hb, rfl⟩)
    · next hnone =>
      refine returns_pure (.inl ⟨rfl, fun _ _ b hb => ?_⟩)
      have hall := List.find?_eq_none.1 (Option.eq_none_iff_forall_ne_some.2 hnone)
      simpa using hall b hb
  · next hcond =>
    refine returns_pure (.inl ⟨rfl, fun hleaf hfree => absurd ?_ hcond⟩)
    rw [Bool.and_eq_true, Pairing.not_hasSrc_iff, hleaf]
    exact ⟨rfl, hfree⟩

/-- The source nodes of the list `tried` have been tried, beginning with the pairing `p`: only they
have got partners; those that have none are turned down by all free nodes; and what fits one of
them and stands in front of its partner had been taken before its turn. -/
structure Tried (task : Task) (p : Pairing) (tried : List NodeId) (q : Pairing) : Prop where
  grows : Grows task p q
  new : ∀ s d, q.dst? s = some d → p.dst? s = some d ∨ s ∈ tried
  rejected : ∀ a ∈ tried, task.src.isLeaf a = false → q.dst? a = none →
    ∀ b ∈ eligible task q a, fits task q a b = false
  first : ∀ a ∈ tried, ∀ b, p.dst? a = none → q.dst? a = some b →
    ∀ c, task.dst.isLeaf c = false → task.src.sameKind task.dst a c = true →
      task.dst.postIndex c < task.dst.postIndex b → fits task q a c = true →
        p.hasDst c = true ∨
          ∃ s ∈ tried, q.dst? s = some c ∧ task.src.postIndex s < task.src.postIndex a

/-- Before any node is tried there is nothing to show. -/
lemma tried_nil (task : Task) (p : Pairing) : Tried task p [] p :=
  ⟨.refl, fun _ _ => .inl, by simp, by simp⟩

variable {tried rest : List NodeId}

/-- A node that is left alone, because it is a leaf, has a partner or finds nothing that fits.

**Proof sketch.** The pairing stays the same.  The node is rejected by what is assumed of it, and no
new pair has come about whose destination could have been chosen earlier. -/
lemma Tried.skip (h : Tried task p tried q)
    (hnone : task.src.isLeaf a = false → q.dst? a = none →
      ∀ b ∈ eligible task q a, fits task q a b = false) : Tried task p (tried ++ [a]) q where
  grows := h.grows
  new s d hsd := (h.new s d hsd).imp_right (List.mem_append_left _)
  rejected x hx := by
    rcases List.mem_append.1 hx with hx | hx
    · exact h.rejected x hx
    · rw [List.mem_singleton.1 hx]
      exact hnone
  first x hx b hfree hlinked c hleaf hkind hlt hfits := by
    -- a node that had no partner at the beginning and has one now was tried before
    have hx' : x ∈ tried := by
      rcases h.new x b hlinked with hold | hx'
      · rw [hfree] at hold
        cases hold
      · exact hx'
    refine (h.first x hx' b hfree hlinked c hleaf hkind hlt hfits).imp_right ?_
    rintro ⟨s, hs, hsc, hlt'⟩
    exact ⟨s, List.mem_append_left _ hs, hsc, hlt'⟩

/-- A node that is linked to the first node that fits.

**Proof sketch.** All nodes that have been tried come before `a` in post-order, so `a` is below none
of them, and the new link changes nothing about what fits them.  Of the eligible nodes only the
partner of `a` is no longer free.  What fits `a` and stands in front of its partner was not free
when `a` was tried, or it would have been found; so it has got its partner from one of the nodes
tried before, or had one from the beginning. -/
lemma Tried.link (h : Tried task p tried q) (hp : p.OneToOne)
    (htried : ∀ x ∈ tried, x ∈ task.src.preOrder ∧ task.src.postIndex x < task.src.postIndex a)
    (ha : a ∈ task.src.preOrder) (hsrc : q.dst? a = none)
    (hfound : (eligible task q a).find? (fits task q a) = some b) :
    Tried task p (tried ++ [a]) (q.insert a b) := by
  have hmem := mem_eligible_iff.1 (List.mem_of_find?_eq_some hfound)
  have hgrows : Grows task q (q.insert a b) :=
    .link .refl hsrc hmem.2.1 ha (Tree.sameKind_iff.1 hmem.2.2).2.1 hmem.2.2
  have hne : ∀ x ∈ tried, a ≠ x := fun x hx e => by
    have := (htried x hx).2
    rw [e] at this
    omega
  refine ⟨h.grows.trans hgrows, fun s d hsd => ?_, fun x hx hleaf hfree c hc => ?_,
    fun x hx d hfree hlinked c hleaf hkind hlt hfits => ?_⟩
  · rw [Pairing.dst?_insert] at hsd
    split at hsd
    · next heq => exact .inr (List.mem_append_right _ (List.mem_singleton.2 heq.symm))
    · exact (h.new s d hsd).imp_right (List.mem_append_left _)
  · rcases List.mem_append.1 hx with hx | hx
    · rw [fits_insert (htried x hx).1 (htried x hx).2.le]
      rw [Pairing.dst?_insert, if_neg (hne x hx)] at hfree
      rw [mem_eligible_iff] at hc
      exact h.rejected x hx hleaf hfree c
        (mem_eligible_iff.2 ⟨hc.1, hgrows.dstFree_before hc.2.1, hc.2.2⟩)
    · rw [List.mem_singleton.1 hx, Pairing.dst?_insert, if_pos rfl] at hfree
      cases hfree
  · rcases List.mem_append.1 hx with hx | hx
    · rw [Pairing.dst?_insert, if_neg (hne x hx)] at hlinked
      rw [fits_insert (htried x hx).1 (htried x hx).2.le] at hfits
      refine (h.first x hx d hfree hlinked c hleaf hkind hlt hfits).imp_right ?_
      rintro ⟨s, hs, hsc, hlt'⟩
      exact ⟨s, List.mem_append_left _ hs, hgrows.dst? hsc, hlt'⟩
    · obtain rfl := List.mem_singleton.1 hx
      rw [Pairing.dst?_insert, if_pos rfl, Option.some.injEq] at hlinked
      subst hlinked
      rw [fits_insert ha le_rfl] at hfits
      cases hpartner : q.src? c with
      | none =>
        have hout := not_fits_before hfound (mem_eligible_iff.2 ⟨hleaf, hpartner, hkind⟩) hlt
        rw [hfits] at hout
        cases hout
      | some s =>
        have hsc := (h.grows.oneToOne hp s c).2 hpartner
        rcases h.new s c hsc with hold | hs
        · left
          rw [Pairing.hasDst, (hp s c).1 hold, Option.isSome_some]
        · exact .inr ⟨s, List.mem_append_left _ hs, hgrows.dst? hsc, (htried s hs).2⟩

/-- Trying one more node of the post-order. -/
lemma Tried.returns_settle (h : Tried task p tried q) (hp : p.OneToOne)
    (hsplit : task.src.postOrder = tried ++ a :: rest) :
    Returns (settle task a) q fun _ => Tried task p (tried ++ [a]) := by
  have hnode : ∀ x ∈ tried ++ a :: rest, x ∈ task.src.preOrder := fun x hx =>
    Tree.mem_postOrder_iff.1 (hsplit ▸ hx)
  have hsorted := task.src.pairwise_postOrder
  rw [hsplit, List.pairwise_append] at hsorted
  refine (FirstFit.returns_settle task q a).mono fun _ r hr => ?_
  rcases hr with ⟨rfl, hnone⟩ | ⟨b, -, hfree, hfound, rfl⟩
  · exact h.skip hnone
  · refine h.link hp (fun x hx => ⟨hnode x (List.mem_append_left _ hx), ?_⟩)
      (hnode a (List.mem_append_right _ (List.mem_cons_self ..))) hfree hfound
    exact hsorted.2.2 x hx a (List.mem_cons_self ..)

/-- **All source nodes are tried**, one after the other in post-order. -/
theorem returns_run (task : Task) (hp : p.OneToOne) :
    Returns (run task) p fun _ => Tried task p task.src.postOrder :=
  returns_forM_prefix (tried_nil task p) fun _ _ _ _ hsplit h => h.returns_settle hp hsplit

/-- Where nothing fits, nothing happens. -/
lemma returns_run_of_rejected (h : ∀ a ∈ task.src.postOrder, task.src.isLeaf a = false →
    q.dst? a = none → ∀ b ∈ eligible task q a, fits task q a b = false) :
    Returns (run task) q fun _ r => r = q := by
  refine returns_forM (I := (· = q)) rfl ?_
  rintro a ha _ rfl
  refine (FirstFit.returns_settle task _ a).mono fun _ r hr => ?_
  rcases hr with ⟨rfl, -⟩ | ⟨b, hleaf, hfree, hfound, -⟩
  · rfl
  · have hout := h a ha hleaf hfree b (List.mem_of_find?_eq_some hfound)
    rw [List.find?_some hfound] at hout
    cases hout

end FirstFit

/-- **Each inner node gets the first partner that fits.**  Run on any one-to-one pairing, the stage
does not fail.  On the pairing it leaves, no free inner nodes of one kind are accepted by the
thresholds, so that the stage run again adds nothing; and whenever a pair is new, every inner node
of the same kind that comes before the destination node in post-order and is accepted on the pairing
the stage leaves had a partner before the stage, or has one that comes before the source node in
post-order.

**Proof sketch.** By `FirstFit.returns_run` all nodes have been tried in post-order.  Free nodes
that are accepted would contradict that the source node was rejected.  If a node before the partner
of a new pair is accepted in the end, it was not eligible when the pair was made, for want of being
free. -/
theorem first_fit_leaves_nothing_that_fits (task : Task) (p : Pairing)
    (hone : p.isOneToOne = true) :
    let o := Stage.firstFit.perform task p
    let q := o.pairing
    let accepted (a b : NodeId) : Bool :=
      (BottomUpThresholds.ofSettings task.settings).accepts (task.src.leafCount a)
        (Overlap.between task.src task.dst q a b).chawathe.value
    o.fault = none ∧
      (∀ a ∈ task.src.preOrder, ∀ b ∈ task.dst.preOrder,
        task.src.isLeaf a = false → task.dst.isLeaf b = false →
        task.src.kind a = task.dst.kind b → q.bothFree a b = true → accepted a b = false) ∧
      (Stage.firstFit.perform task q).pairing = q ∧
      ∀ z ∈ q.pairs, z ∉ p.pairs → ∀ b ∈ task.dst.preOrder, task.dst.isLeaf b = false →
        task.src.kind z.src = task.dst.kind b →
        task.dst.postIndex b < task.dst.postIndex z.dst → accepted z.src b = true →
          p.hasDst b = true ∨ ∃ a ∈ task.src.preOrder, q.dst? a = some b ∧
            task.src.postIndex a < task.src.postIndex z.src := by
  intro o q accepted
  have hp : p.OneToOne := Pairing.isOneToOne_iff.1 hone
  obtain ⟨hfault, htried⟩ := (FirstFit.returns_run task hp).perform
  refine ⟨hfault, fun a ha b hb hleaf hleaf' hkind hfree => ?_, ?_,
    fun z hz hnew b hb hleaf hkind hlt hfits => ?_⟩
  · obtain ⟨hs, hd⟩ := Pairing.bothFree_iff.1 hfree
    exact htried.rejected a (Tree.mem_postOrder_iff.2 ha) hleaf hs b
      (FirstFit.mem_eligible_iff.2 ⟨hleaf', hd, Tree.sameKind_iff.2 ⟨ha, hb, hkind⟩⟩)
  · exact (FirstFit.returns_run_of_rejected htried.rejected).perform.2
  · rw [Pairing.mem_pairs_iff] at hz hnew
    have hfree : p.dst? z.src = none := by
      refine Option.eq_none_iff_forall_ne_some.2 fun d hd => hnew ?_
      have heq : z.dst = d := Option.some.inj (hz.symm.trans (htried.grows.dst? hd))
      rw [heq, hd]
    have hz' : z.src ∈ task.src.postOrder := (htried.new _ _ hz).resolve_left hnew
    have hsrc := Tree.mem_postOrder_iff.1 hz'
    refine (htried.first z.src hz' z.dst hfree hz b hleaf
      (Tree.sameKind_iff.2 ⟨hsrc, hb, hkind⟩) hlt hfits).imp_right ?_
    rintro ⟨a, ha, hab, hlt'⟩
    exact ⟨a, Tree.mem_postOrder_iff.1 ha, hab, hlt'⟩

/-- Three blocks against three.  The second one would be accepted by the first two blocks on the
other side, since it has a linked leaf in either; but the first of these is taken, by the block that
comes before it.  The last blocks have no linked leaves: they stay free, because they are turned
down. -/
theorem blocks_are_linked_in_order_or_turned_down :
    let src : Tree := .ofContents ⟨(⟨0⟩, "r"),
      .node (⟨1⟩, "s") (.node (⟨2⟩, "x") .nil (.leaf (⟨2⟩, "y")))
        (.node (⟨1⟩, "t") (.node (⟨2⟩, "z") .nil (.leaf (⟨2⟩, "w")))
          (.node (⟨1⟩, "u") (.leaf (⟨2⟩, "v")) .nil))⟩
    let dst : Tree := .ofContents ⟨(⟨0⟩, "r"),
      .node (⟨1⟩, "d") (.node (⟨2⟩, "x") .nil (.leaf (⟨2⟩, "z")))
        (.node (⟨1⟩, "e") (.node (⟨2⟩, "w") .nil (.leaf (⟨2⟩, "y")))
          (.node (⟨1⟩, "f") (.leaf (⟨2⟩, "v")) .nil))⟩
    let task : Task := { src, dst }
    let p := ((Pairing.empty.insert 3 3).insert 6 4).insert 7 6
    let o := Stage.firstFit.perform task p
    let accepted (a b : NodeId) : Bool :=
      (BottomUpThresholds.ofSettings task.settings).accepts (src.leafCount a)
        (Overlap.between src dst o.pairing a b).chawathe.value
    p.isOneToOne = true ∧ o.fault = none ∧
      o.pairing.pairs = [⟨1, 1⟩, ⟨2, 2⟩, ⟨3, 3⟩, ⟨5, 5⟩, ⟨6, 4⟩, ⟨7, 6⟩] ∧
      (Stage.firstFit.perform task o.pairing).pairing = o.pairing ∧
      (o.pairing.bothFree 8 8 = true ∧ accepted 8 8 = false) ∧
      accepted 5 2 = true ∧
      ∃ a ∈ src.preOrder, o.pairing.dst? a = some 2 ∧ src.postIndex a < src.postIndex 5 := by
  intro src dst task p o accepted
  have hone : p.isOneToOne = true := by decide +kernel
  obtain ⟨hfault, hrejected, hagain, hfirst⟩ := first_fit_leaves_nothing_that_fits task p hone
  have hpairs : o.pairing.pairs = [⟨1, 1⟩, ⟨2, 2⟩, ⟨3, 3⟩, ⟨5, 5⟩, ⟨6, 4⟩, ⟨7, 6⟩] := by
    decide +kernel
  have hfree : o.pairing.bothFree 8 8 = true := by decide +kernel
  have hturned := hrejected 8 (by decide +kernel) 8 (by decide +kernel) (by decide +kernel)
    (by decide +kernel) (by decide +kernel) hfree
  have hblock : (⟨5, 5⟩ : Pair) ∈ o.pairing.pairs ∧ (⟨5, 5⟩ : Pair) ∉ p.pairs := by
    decide +kernel
  have haccepted : accepted 5 2 = true := by decide +kernel
  have htaken := hfirst ⟨5, 5⟩ hblock.1 hblock.2 2 (by decide +kernel) (by decide +kernel)
    (by decide +kernel) (by decide +kernel) haccepted
  exact ⟨hone, hfault, hpairs, hagain, ⟨hfree, hturned⟩, haccepted,
    htaken.resolve_left (by decide +kernel)⟩

end TreeMatching
