import TreeMatching.Proofs.TreeTables

set_option autoImplicit false

/-!
# Ancestors, descendants and subtrees

Whether one node lies below another is decided by an interval test on pre-order indices, and what
lies below a node is cut out of the tabulated pre-order.  Both agree with the way up: a node passes
the test for exactly those nodes that are met on the chain of its parents.  The post-order of a
subtree, which is found by sorting, is a run of the post-order of the tree.

## Main results

* `Tree.ancestors_eq` — the ancestors of a node are its parent and the ancestors of that.
* `Tree.exists_parent?_of_isDescendant` — a node below another has a parent that is the other node
  or lies below it as well.
* `Tree.isDescendant_iff_mem_ancestors` — the interval test is membership in the chain of parents.
* `Tree.descendants_eq_filter` — the descendants are those nodes that pass the test, in pre-order.
* `Tree.subtreePostOrder_eq` — sorting a subtree by post-order indices gives its post-order.
* `Forest.postOrder_isInfix_of_mem_entries` — the post-order of a subtree is a run of that of the
  forest.
* `interval_test_follows_chain_of_parents` — the results together.
-/

namespace TreeMatching

namespace Forest

/-- **In post-order a subtree is a run that ends with its root.**

**Proof sketch.** Induction on the forest; a run of the forest below or of the rest is a run of the
whole. -/
lemma postOrder_isInfix_of_mem_entries {f : Forest Node} {parent : Option NodeId}
    {depth position pre : Nat} {e : Entry} (he : e ∈ f.entries parent depth position pre) :
    e.below.postOrder ++ [e.node] <:+: f.postOrder := by
  induction f generalizing parent depth position pre with
  | nil => simp [entries] at he
  | node n below next ihb ihn =>
    simp only [entries, List.mem_append, List.mem_cons] at he
    simp only [postOrder]
    rcases he with he | rfl | he
    · exact (ihb he).trans (List.prefix_append ..).isInfix
    · exact ⟨[], next.postOrder, by simp [rootEntry]⟩
    · exact (ihn he).trans ((List.suffix_cons ..).trans (List.suffix_append ..)).isInfix

end Forest

namespace Tree

variable {t : Tree} {a n : NodeId}

/-! ### The way up -/

/-- The ancestors of a node are its parent and the ancestors of its parent: the number of steps up
is the depth, which the parent has one less of. -/
lemma ancestors_eq (t : Tree) (n : NodeId) :
    t.ancestors n = (t.parent? n).elim [] fun q => q :: t.ancestors q := by
  cases hp : t.parent? n with
  | none =>
    rw [ancestors]
    cases t.depth n with
    | zero => rfl
    | succ steps => rw [climb, hp, Option.elim_none]
  | some q => rw [ancestors, (place_of_parent? hp).1, climb, hp, Option.elim_some, ancestors]

/-- A node with a parent has ancestors. -/
lemma ancestors_ne_nil (h : (t.parent? a).isSome = true) : t.ancestors a ≠ [] := by
  obtain ⟨b, hb⟩ := Option.isSome_iff_exists.1 h
  rw [ancestors_eq, hb]
  exact List.cons_ne_nil _ _

/-- **The first step up from below a node does not leave its subtree.**

**Proof sketch.** Among the entries below `a`, the node is a root, and then its parent is `a`, or it
is a child of another entry there. -/
lemma exists_parent?_of_isDescendant (h : t.isDescendant a n = true) :
    ∃ q, t.parent? n = some q ∧ (a = q ∨ t.isDescendant a q = true) := by
  have ha := (mem_preOrder_of_isDescendant h).1
  obtain ⟨e, he, rfl⟩ :=
    (mem_descendants_iff_exists_entry ha).1 (mem_descendants_of_isDescendant h)
  rw [parent?, entry_of_mem_entries (entries_below_subset ha he)]
  -- among the entries under `a` the node is a root or the child of another one
  rcases Forest.parent_of_mem_entries he with ⟨hp, -⟩ | ⟨u, hu, hp, -⟩
  · exact ⟨a, hp, .inl rfl⟩
  · have hbelow := (mem_descendants_iff_exists_entry ha).2 ⟨u, hu, rfl⟩
    exact ⟨u.node.id, hp, .inr ((mem_descendants_iff ha).1 hbelow).2⟩

/-- **The interval test is membership in the chain of parents.**

**Proof sketch.** Induction on the depth of the lower node.  It passes the test for its parent, and
for whatever its parent passes the test; and it passes for nothing else, because the first step up
does not leave a subtree. -/
theorem isDescendant_iff_mem_ancestors (t : Tree) (a n : NodeId) :
    t.isDescendant a n = true ↔ a ∈ t.ancestors n := by
  induction hdepth : t.depth n generalizing n with
  | zero =>
    constructor
    · intro h
      obtain ⟨q, hp, -⟩ := exists_parent?_of_isDescendant h
      have := (place_of_parent? hp).1
      omega
    · intro h
      rw [ancestors, hdepth, climb] at h
      cases h
  | succ depth ih =>
    rw [ancestors_eq]
    constructor
    · intro h
      obtain ⟨q, hp, hq⟩ := exists_parent?_of_isDescendant h
      have hdepth' := (place_of_parent? hp).1
      rw [hp, Option.elim_some, List.mem_cons, ← ih q (by omega)]
      exact hq
    · intro h
      cases hp : t.parent? n with
      | none => simp [hp] at h
      | some q =>
        have hdepth' := (place_of_parent? hp).1
        rw [hp, Option.elim_some, List.mem_cons, ← ih q (by omega)] at h
        rcases h with rfl | h
        · exact isDescendant_of_parent? hp
        · exact isDescendant_trans h (isDescendant_of_parent? hp)

/-! ### Runs of the two orders -/

/-- **The descendants of a node are the nodes that pass the interval test, in pre-order.** -/
lemma descendants_eq_filter (ha : a ∈ t.preOrder) :
    t.descendants a = t.preOrder.filter (t.isDescendant a) := by
  have hsorted : (t.descendants a).Pairwise (t.preIndex · < t.preIndex ·) :=
    t.pairwise_preOrder.sublist (descendants_sublist t a)
  have hsame : (t.descendants a).Perm (t.preOrder.filter (t.isDescendant a)) := by
    refine (List.perm_ext_iff_of_nodup (List.nodup_cons.1 (nodup_subtree ha)).2
      (nodup_preOrder.filter _)).2 fun x => ?_
    rw [mem_descendants_iff ha, List.mem_filter]
  refine hsame.eq_of_pairwise (fun x y _ _ hxy hyx => ?_) hsorted (t.pairwise_preOrder.filter _)
  omega

/-- A number that is not in use has nothing below it. -/
lemma descendants_of_notMem (ha : a ∉ t.preOrder) : t.descendants a = [] := by
  rw [descendants, preIndex, size, entry_of_notMem ha]
  simp [show (default : Entry).pre = 0 from rfl, show (default : Entry).size = 0 from rfl]

/-- The nodes of a subtree in post-order are the node itself and what is below it. -/
lemma subtreePostOrder_perm : (t.subtreePostOrder a).Perm (a :: t.descendants a) :=
  (List.mergeSort_perm ..).trans (List.perm_append_singleton a _)

/-- **Sorting a subtree by post-order indices gives its post-order.**

**Proof sketch.** Both lists have the nodes of the subtree as members.  The one is sorted by
definition, the other because it is a run of the post-order of the tree. -/
lemma subtreePostOrder_eq (ha : a ∈ t.preOrder) :
    t.subtreePostOrder a = ((t.subtree a).below.postOrder ++ [(t.subtree a).root]).map Node.id := by
  obtain ⟨he, hid⟩ := entry_mem_of_mem_preOrder ha
  set run := ((t.subtree a).below.postOrder ++ [(t.subtree a).root]).map Node.id with hrun
  have hsub : run.Sublist t.postOrder := by
    rw [postOrder_eq]
    exact ((Forest.postOrder_isInfix_of_mem_entries he).sublist).map Node.id
  have hsame : (t.subtreePostOrder a).Perm run := by
    refine subtreePostOrder_perm.trans ?_
    rw [← map_id_preOrder_subtree ha, Rooted.preOrder]
    refine List.Perm.map _ (((Forest.postOrder_perm_preOrder _).symm.cons _).trans ?_)
    exact (List.perm_append_singleton _ _).symm
  have hmerge : (t.subtreePostOrder a).Pairwise fun x y => (t.postIndex x ≤ t.postIndex y : Bool) :=
    List.pairwise_mergeSort
      (fun x y z hxy hyz => by simp only [decide_eq_true_eq] at hxy hyz ⊢; omega)
      (fun x y => by simp only [Bool.or_eq_true, decide_eq_true_eq]; omega) _
  refine hsame.eq_of_pairwise (fun x y hx hy hxy hyx => ?_)
    (hmerge.imp of_decide_eq_true) ((t.pairwise_postOrder.sublist hsub).imp le_of_lt)
  have hx' := getElem?_postOrder_postIndex (mem_postOrder_iff.1 (hsub.subset (hsame.subset hx)))
  have hy' := getElem?_postOrder_postIndex (mem_postOrder_iff.1 (hsub.subset hy))
  rw [hxy.antisymm hyx, hy', Option.some_inj] at hx'
  exact hx'.symm

/-- No node of a subtree is listed twice. -/
lemma nodup_subtreePostOrder : (t.subtreePostOrder a).Nodup := by
  rw [subtreePostOrder_perm.nodup_iff]
  by_cases ha : a ∈ t.preOrder
  · exact nodup_subtree ha
  · rw [descendants_of_notMem ha]
    exact List.nodup_singleton a

/-- The listed nodes of a subtree are as many as its size counts. -/
lemma length_subtreePostOrder (ha : a ∈ t.preOrder) :
    (t.subtreePostOrder a).length = t.size a := by
  rw [subtreePostOrder_perm.length_eq, List.length_cons, descendants_eq ha, List.length_map,
    Forest.length_preOrder, size_eq_of_mem ha]
  rfl

end Tree

/-- **The tabulated orders tell ancestors, descendants and subtrees.**  One node passes the interval
test for another exactly when the other is met on the chain of its parents; the descendants of a
node are a run of the pre-order within its bounds, and they are the nodes that pass the test; the
subtree in post-order is a run of the post-order that has the size of the subtree and ends at its
root.

**Proof sketch.** The chain of parents leaves the subtree of a node only through that node, which
gives the first statement.  The others are read off the tables: descendants follow their node in
pre-order, and come before it in post-order. -/
theorem interval_test_follows_chain_of_parents (t : Tree) {a : NodeId} (ha : a ∈ t.preOrder)
    (n : NodeId) :
    ((t.isDescendant a n = true ↔ a ∈ t.ancestors n) ∧
      t.ancestors n = (t.parent? n).elim [] fun q => q :: t.ancestors q) ∧
    (t.preIndex a + 1 ≤ t.preIndex a + t.size a ∧ t.preIndex a + t.size a ≤ t.preOrder.length ∧
      t.descendants a = t.preOrder.filter (t.isDescendant a)) ∧
    (t.subtreePostOrder a <:+: t.postOrder ∧ (t.subtreePostOrder a).length = t.size a ∧
      (t.subtreePostOrder a).getLast? = some a) := by
  obtain ⟨he, hid⟩ := Tree.entry_mem_of_mem_preOrder ha
  have hsize := Tree.size_eq_of_mem ha
  refine ⟨⟨t.isDescendant_iff_mem_ancestors a n, t.ancestors_eq n⟩,
    ⟨by omega, ?_, Tree.descendants_eq_filter ha⟩, ?_, Tree.length_subtreePostOrder ha, ?_⟩
  · rw [Tree.length_preOrder]
    exact Tree.preIndex_add_size_le ha
  · rw [Tree.subtreePostOrder_eq ha, Tree.postOrder_eq]
    exact (Forest.postOrder_isInfix_of_mem_entries he).map Node.id
  · rw [Tree.subtreePostOrder_eq ha, List.map_append, List.map_singleton,
      List.getLast?_append, List.getLast?_singleton, Option.some_or]
    exact congrArg some hid

/-- A tree whose third node was added before the nodes below its second one. -/
def twoBranches : Tree :=
  .ofShape ⟨⟨1, ⟨0⟩, "r"⟩, .node ⟨2, ⟨0⟩, "a"⟩ (.node ⟨4, ⟨0⟩, "c"⟩ .nil (.leaf ⟨5, ⟨0⟩, "d"⟩))
    (.leaf ⟨3, ⟨0⟩, "b"⟩)⟩ ⟨rfl, by decide⟩ none

/-- The last child of the second node lies below it, although the third node has the smaller
number. -/
theorem fifth_node_lies_below_second :
    let t := twoBranches
    2 ∈ t.preOrder ∧ t.preOrder = [1, 2, 4, 5, 3] ∧ t.postOrder = [4, 5, 2, 3, 1] ∧
      ((t.isDescendant 2 5 = true ↔ 2 ∈ t.ancestors 5) ∧
        t.ancestors 5 = (t.parent? 5).elim [] fun q => q :: t.ancestors q) ∧
      (t.preIndex 2 + 1 ≤ t.preIndex 2 + t.size 2 ∧ t.preIndex 2 + t.size 2 ≤ t.preOrder.length ∧
        t.descendants 2 = t.preOrder.filter (t.isDescendant 2)) ∧
      (t.subtreePostOrder 2 <:+: t.postOrder ∧ (t.subtreePostOrder 2).length = t.size 2 ∧
        (t.subtreePostOrder 2).getLast? = some 2) := by
  intro t
  have hmem : 2 ∈ t.preOrder := by decide +kernel
  exact ⟨hmem, by decide +kernel, by decide +kernel,
    interval_test_follows_chain_of_parents t hmem 5⟩

end TreeMatching
