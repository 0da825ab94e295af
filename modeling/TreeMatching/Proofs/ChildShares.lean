import TreeMatching.Proofs.Adoptions
import TreeMatching.Proofs.Ancestry
import TreeMatching.Proofs.ExactShares
import TreeMatching.Proofs.GrownTrees

set_option autoImplicit false

/-!
# What the similarity of children counts

Two inner nodes are compared by the leaves below them: for each child of either node, the share of
the leaves under it that are linked to a leaf below the other node.  The similarity is the mean of
these shares.  Its floating point value is rounded; the shares themselves are exact, and so is what
is said here about their mean.

## Main definitions

* `Tree.LeafBelow` — a leaf strictly below a node.

## Main results

* `Tree.isDescendant_iff_exists_child` — what lies below a node lies under one of its children.
* `Tree.children_induction` — induction from the children up.
* `Tree.exists_leaf` — there are leaves under every node.
* `LabelAware.shareUnder_eq` — no share is one of nothing.
* `LabelAware.childShares_swap` — the two trees may be exchanged.
* `LabelAware.childrenSimilarity_spec` — the similarity lies between zero and one.  It is one if all
  leaves below either node are linked to leaves below the other, and zero if none are.
-/

namespace TreeMatching

/-! ### Leaves below a node -/

namespace Tree

variable {t : Tree} {a c x : NodeId}

/-- The node `x` is a leaf strictly below `a`. -/
def LeafBelow (t : Tree) (a x : NodeId) : Prop := t.isLeaf x = true ∧ t.isDescendant a x = true

/-- **What lies below a node lies under one of its children.**

**Proof sketch.** From below a node one step up leads to the node itself or stays below it.  In the
first case the lower node is a child; in the second case its parent lies under a child, by induction
on the depth. -/
theorem isDescendant_iff_exists_child :
    t.isDescendant a x = true ↔ ∃ c ∈ t.children a, x = c ∨ t.isDescendant c x = true := by
  constructor
  · intro h
    induction hdepth : t.depth x generalizing x with
    | zero =>
      obtain ⟨q, hq, -⟩ := exists_parent?_of_isDescendant h
      have := (place_of_parent? hq).1
      omega
    | succ depth ih =>
      obtain ⟨q, hq, rfl | habove⟩ := exists_parent?_of_isDescendant h
      · exact ⟨x, mem_children_iff.2 hq, .inl rfl⟩
      · have hdepth' := (place_of_parent? hq).1
        obtain ⟨c, hc, hunder⟩ := ih habove (by omega)
        refine ⟨c, hc, .inr ?_⟩
        rcases hunder with rfl | hbelow
        · exact isDescendant_of_parent? hq
        · exact isDescendant_trans hbelow (isDescendant_of_parent? hq)
  · rintro ⟨c, hc, rfl | hbelow⟩
    · exact isDescendant_of_parent? (mem_children_iff.1 hc)
    · exact isDescendant_trans (isDescendant_of_parent? (mem_children_iff.1 hc)) hbelow

/-- An inner node has a child. -/
lemma exists_child (ha : a ∈ t.preOrder) (hinner : t.isLeaf a = false) : ∃ c, c ∈ t.children a := by
  refine List.exists_mem_of_ne_nil _ fun hnil => ?_
  rw [isLeaf, (measured ha).size_eq_one_iff.2 hnil] at hinner
  cases hinner

/-- A child is smaller than its parent. -/
lemma size_lt_of_mem_children (ha : a ∈ t.preOrder) (hc : c ∈ t.children a) :
    t.size c < t.size a := by
  have hle : t.size c ≤ ((t.children a).map t.size).sum :=
    List.le_sum_of_mem (List.mem_map_of_mem hc)
  rw [(measured ha).size]
  omega

/-- **Induction from the children up.**  A property that a node has whenever all its children have
it is one of all nodes. -/
lemma children_induction {P : NodeId → Prop}
    (step : ∀ a ∈ t.preOrder, (∀ c ∈ t.children a, P c) → P a) (ha : a ∈ t.preOrder) : P a := by
  induction hsize : t.size a using Nat.strong_induction_on generalizing a with
  | _ n ih =>
    refine step a ha fun c hc => ?_
    have hlt : t.size c < n := hsize ▸ size_lt_of_mem_children ha hc
    exact ih (t.size c) hlt (mem_preOrder_of_mem_children hc) rfl

/-- **There are leaves under every node**; a leaf is its own.

**Proof sketch.** Induction from the children up.  An inner node has a child, and a leaf under the
child is one under the node. -/
lemma exists_leaf (ha : a ∈ t.preOrder) :
    ∃ x, t.isLeaf x = true ∧ (x = a ∨ t.isDescendant a x = true) := by
  refine children_induction (P := fun a => ∃ x, t.isLeaf x = true ∧
    (x = a ∨ t.isDescendant a x = true)) (fun a ha ih => ?_) ha
  cases hleaf : t.isLeaf a with
  | true => exact ⟨a, hleaf, .inl rfl⟩
  | false =>
    obtain ⟨c, hc⟩ := exists_child ha hleaf
    obtain ⟨x, hx, hunder⟩ := ih c hc
    exact ⟨x, hx, .inr (isDescendant_iff_exists_child.2 ⟨c, hc, hunder⟩)⟩

/-- There are leaves strictly below every inner node, and they are counted.

**Proof sketch.** Induction from the children up.  An inner node has a child.  If the child is a
leaf it is counted, and otherwise the leaves below it are, which is a positive number. -/
lemma leafCount_pos (ha : a ∈ t.preOrder) (hinner : t.isLeaf a = false) : 0 < t.leafCount a := by
  refine children_induction (P := fun a => t.isLeaf a = false → 0 < t.leafCount a)
    (fun a ha ih hinner => ?_) ha hinner
  obtain ⟨c, hc⟩ := exists_child ha hinner
  have hnode := mem_preOrder_of_mem_children hc
  rw [(measured ha).leafCount]
  refine lt_of_lt_of_le ?_ (List.le_sum_of_mem (List.mem_map_of_mem hc))
  -- the child is a leaf itself, or it has leaves below it
  split
  · exact Nat.zero_lt_one
  · next hne =>
    refine ih c hc ?_
    rw [isLeaf, beq_eq_false_iff_ne]
    exact mt (measured hnode).size_eq_one_iff.1 hne

end Tree

namespace LabelAware

variable {task : Task} {p : Pairing} {t : Tree} {a b c x : NodeId} {property : NodeId → Bool}

/-! ### The share of one child -/

/-- The leaves under a node. -/
lemma mem_leavesUnder_iff (hc : c ∈ t.preOrder) :
    x ∈ leavesUnder t c ↔ t.isLeaf x = true ∧ (x = c ∨ t.isDescendant c x = true) := by
  have hbelow : x ∈ t.descendants c ↔ t.isDescendant c x = true :=
    ⟨fun h => ((Tree.mem_descendants_iff hc).1 h).2, Tree.mem_descendants_of_isDescendant⟩
  rw [leavesUnder, List.mem_filter, List.mem_append, List.mem_singleton, hbelow, or_comm, and_comm]

/-- There are leaves under every node. -/
lemma length_leavesUnder_pos (hc : c ∈ t.preOrder) : 0 < (leavesUnder t c).length := by
  obtain ⟨x, hx⟩ := Tree.exists_leaf hc
  exact List.length_pos_of_mem ((mem_leavesUnder_iff hc).2 hx)

/-- **No share is one of nothing**: it is so many of the leaves under a node, of which there is
always one. -/
lemma shareUnder_eq (hc : c ∈ t.preOrder) :
    shareUnder t c property =
      ⟨(leavesUnder t c).countP property, (leavesUnder t c).length⟩ := by
  rw [shareUnder, max_eq_left (length_leavesUnder_pos hc)]

/-- What holds of the leaves under all children holds of all leaves below the node. -/
lemma forall_mem_leavesUnder_iff {P : NodeId → Prop} :
    (∀ c ∈ t.children a, ∀ x ∈ leavesUnder t c, P x) ↔ ∀ x, t.LeafBelow a x → P x := by
  constructor
  · rintro h x ⟨hleaf, hbelow⟩
    obtain ⟨c, hc, hunder⟩ := Tree.isDescendant_iff_exists_child.1 hbelow
    have hnode := Tree.mem_preOrder_of_mem_children hc
    exact h c hc x ((mem_leavesUnder_iff hnode).2 ⟨hleaf, hunder⟩)
  · intro h c hc x hx
    obtain ⟨hleaf, hunder⟩ := (mem_leavesUnder_iff (Tree.mem_preOrder_of_mem_children hc)).1 hx
    exact h x ⟨hleaf, Tree.isDescendant_iff_exists_child.2 ⟨c, hc, hunder⟩⟩

/-- The shares of all children are whole exactly if all leaves below the node have the property. -/
lemma forall_part_eq_whole_iff :
    (∀ c ∈ t.children a, (shareUnder t c property).part = (shareUnder t c property).whole) ↔
      ∀ x, t.LeafBelow a x → property x = true := by
  rw [← forall_mem_leavesUnder_iff]
  refine forall₂_congr fun c hc => ?_
  rw [shareUnder_eq (Tree.mem_preOrder_of_mem_children hc), List.countP_eq_length]

/-- The shares of all children are empty exactly if no leaf below the node has the property. -/
lemma forall_part_eq_zero_iff :
    (∀ c ∈ t.children a, (shareUnder t c property).part = 0) ↔
      ∀ x, t.LeafBelow a x → ¬property x = true := by
  rw [← forall_mem_leavesUnder_iff]
  refine forall₂_congr fun c hc => ?_
  rw [shareUnder_eq (Tree.mem_preOrder_of_mem_children hc), List.countP_eq_zero]

/-! ### The shares of all children -/

/-- The leaf `x` is linked to a leaf below `b`. -/
lemma leadsBelowDst_iff :
    leadsBelowDst task p b x = true ↔ ∃ y, task.dst.LeafBelow b y ∧ p.dst? x = some y := by
  rw [leadsBelowDst, Option.any_eq_true]
  refine exists_congr fun y => ?_
  rw [Bool.and_eq_true, and_comm]
  rfl

/-- A leaf `y` of the destination tree is linked to a leaf below `a`. -/
lemma leadsBelowSrc_iff (hp : p.OneToOne) {y : NodeId} :
    leadsBelowSrc task p a y = true ↔ ∃ x, task.src.LeafBelow a x ∧ p.dst? x = some y := by
  have hswap : leadsBelowSrc task p a y = leadsBelowDst task.swap p.inverse a y := rfl
  rw [hswap, leadsBelowDst_iff]
  exact exists_congr fun x => and_congr_right fun _ => (hp x y).symm

/-- A property of all shares is one of the shares on both sides. -/
lemma forall_mem_childShares_iff {P : Share → Prop} :
    (∀ s ∈ childShares task p a b, P s) ↔
      (∀ c ∈ task.src.children a, P (shareUnder task.src c (leadsBelowDst task p b))) ∧
        ∀ c ∈ task.dst.children b, P (shareUnder task.dst c (leadsBelowSrc task p a)) := by
  rw [childShares, List.forall_mem_append, List.forall_mem_map, List.forall_mem_map]

/-- Every share is a part of some leaves. -/
lemma whole_pos_of_mem_childShares :
    ∀ s ∈ childShares task p a b, 0 < s.whole ∧ s.part ≤ s.whole := by
  have hshare : ∀ {t : Tree} {a c : NodeId} {property : NodeId → Bool}, c ∈ t.children a →
      0 < (shareUnder t c property).whole ∧
        (shareUnder t c property).part ≤ (shareUnder t c property).whole := by
    intro t a c property hc
    have hnode := Tree.mem_preOrder_of_mem_children hc
    rw [shareUnder_eq hnode]
    exact ⟨length_leavesUnder_pos hnode, List.countP_le_length⟩
  exact forall_mem_childShares_iff.2 ⟨fun c hc => hshare hc, fun c hc => hshare hc⟩

/-- **The two trees may be exchanged**: the shares are the same up to their order. -/
lemma childShares_swap : (childShares task.swap p.inverse b a).Perm (childShares task p a b) :=
  List.perm_append_comm

/-- **What the similarity of children counts.**  For two inner nodes and a one-to-one pairing, the
similarity is the mean of the shares of the children, each of them a share of some leaves.  Taken
exactly, the mean lies between zero and one.  It is one exactly if every leaf below either node is
linked to one below the other, and zero exactly if no leaves below the two nodes are linked to each
other; and it does not change if the two trees are exchanged.

**Proof sketch.** An inner node has leaves below it, so the exception for nodes without any does not
apply.  There are leaves under each child, so that all shares are quotients; hence their mean is one
or zero exactly if all of them are.  Together the leaves under the children are those below the
node. -/
theorem childrenSimilarity_spec (hp : p.OneToOne) (ha : a ∈ task.src.preOrder)
    (hinner : task.src.isLeaf a = false) :
    let shares := childShares task p a b
    childrenSimilarity task p a b = Share.mean shares ∧
      (∀ s ∈ shares, 0 < s.whole ∧ s.part ≤ s.whole) ∧
      (0 ≤ Share.exactMean shares ∧ Share.exactMean shares ≤ 1) ∧
      (Share.exactMean shares = 1 ↔
        (∀ x, task.src.LeafBelow a x → ∃ y, task.dst.LeafBelow b y ∧ p.dst? x = some y) ∧
          ∀ y, task.dst.LeafBelow b y → ∃ x, task.src.LeafBelow a x ∧ p.dst? x = some y) ∧
      (Share.exactMean shares = 0 ↔
        ∀ x y, task.src.LeafBelow a x → task.dst.LeafBelow b y → p.dst? x ≠ some y) ∧
      Share.exactMean (childShares task.swap p.inverse b a) = Share.exactMean shares := by
  intro shares
  have hshares : ∀ s ∈ shares, 0 < s.whole ∧ s.part ≤ s.whole := whole_pos_of_mem_childShares
  have hpos : ∀ s ∈ shares, 0 < s.whole := fun s hs => (hshares s hs).1
  have hle : ∀ s ∈ shares, s.part ≤ s.whole := fun s hs => (hshares s hs).2
  have hne : shares ≠ [] := by
    obtain ⟨c, hc⟩ := Tree.exists_child ha hinner
    exact List.ne_nil_of_mem (List.mem_append_left _ (List.mem_map_of_mem hc))
  refine ⟨?_, hshares, ⟨Share.exactMean_nonneg, Share.exactMean_le_one hle⟩, ?_, ?_,
    Share.exactMean_perm childShares_swap⟩
  · have hcount := Tree.leafCount_pos ha hinner
    rw [childrenSimilarity, if_neg fun h => hcount.ne' h.1]
  · rw [Share.exactMean_eq_one_iff hpos hle, forall_mem_childShares_iff, forall_part_eq_whole_iff,
      forall_part_eq_whole_iff]
    simp only [leadsBelowDst_iff, leadsBelowSrc_iff hp]
  · rw [Share.exactMean_eq_zero_iff hne hpos, forall_mem_childShares_iff, forall_part_eq_zero_iff,
      forall_part_eq_zero_iff]
    simp only [leadsBelowDst_iff, leadsBelowSrc_iff hp]
    constructor
    · rintro ⟨hsrc, -⟩ x y hx hy hxy
      exact hsrc x hx ⟨y, hy, hxy⟩
    · intro h
      constructor
      · rintro x hx ⟨y, hy, hxy⟩
        exact h x y hx hy hxy
      · rintro y hy ⟨x, hx, hxy⟩
        exact h x y hx hy hxy

end LabelAware

end TreeMatching
