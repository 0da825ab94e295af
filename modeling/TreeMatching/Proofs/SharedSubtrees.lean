import TreeMatching.Proofs.Positions

set_option autoImplicit false

/-!
# Subtrees that occur in both trees

The stage for identical subtrees deals with one subtree after the other, the highest first, and
pairs its occurrences as long as there are some on both sides that are wholly without partners.
This module says what that amounts to: which pairs are added, and how many for each subtree.

## Main definitions

* `Tree.contents`, `Tree.occurrences` — what the subtree at a node shows, and where it occurs.
* `SamePlaceBelow` — two nodes stand at the same place of two subtrees.
* `Identical.TakenWhole` — two subtrees were wholly without partners and are now linked node by
  node.
* `Identical.Linked`, `Identical.LinkedAll` — what linking the occurrences of one subtree, or of
  several ones, does to a pairing.
* `Identical.Layered` — what is linked belongs to whole subtrees of a certain height.

## Main results

* `SamePlaceBelow.contents_eq`, `SamePlaceBelow.child` — at the same place of the same subtree there
  are the same subtrees, and their children stand at the same places.
* `Identical.returns_linkOccurrences`, `Identical.returns_run` — the steps of the stage.
* `Identical.LinkedAll.old_or_taken`, `Identical.LinkedAll.touched` — new pairs belong to subtrees
  that are linked as a whole, and no untouched occurrences remain on both sides.
* `Identical.LinkedAll.linked_of_layered` — started on the empty pairing, not even free occurrences
  remain on both sides.
* `identical_subtrees_are_linked_whole`, `identical_subtrees_are_linked_as_often_as_possible` — both
  in terms of the stage.

## Design

The computation is looked at once, for one subtree; `Linked` is all that is used of it.  Everything
else is by induction over the list of representatives.  The order of the representatives matters
only for the number of pairs: a free node might have linked nodes below it, but not when its turn
comes, because all that has been linked until then is at least as high as the node itself.
-/

namespace TreeMatching

open Matching

/-! ### Places of roots -/

namespace Forest

variable {α β : Type}

/-- The place of the `i`-th root in pre-order. -/
def rootPlace : Forest α → Nat → Nat
  | .nil, _ => 0
  | .node .., 0 => 0
  | .node _ below next, i + 1 => below.size + 1 + next.rootPlace i

/-- The places of roots do not depend on the values. -/
lemma rootPlace_map (h : α → β) (f : Forest α) (i : Nat) :
    (f.map h).rootPlace i = f.rootPlace i := by
  induction f generalizing i with
  | nil => rfl
  | node a below next _ ihn =>
    cases i with
    | zero => rfl
    | succ i => simp [map, rootPlace, ihn]

/-- The place of a root is where it stands in pre-order. -/
lemma getElem?_preOrder_rootPlace {f : Forest α} {a : α} {i : Nat} (h : f.roots[i]? = some a) :
    f.preOrder[f.rootPlace i]? = some a := by
  induction f generalizing i with
  | nil => simp [roots] at h
  | node b below next _ ihn =>
    cases i with
    | zero => simpa [roots, preOrder, rootPlace] using h
    | succ i =>
      simp only [roots, List.getElem?_cons_succ] at h
      rw [preOrder, rootPlace, Nat.add_right_comm, List.getElem?_cons_succ,
        List.getElem?_append_right (by simp), length_preOrder, Nat.add_sub_cancel_left]
      exact ihn h

end Forest

/-! ### Subtrees within a tree -/

namespace Tree

variable {t src dst : Tree} {a b c s d x y : NodeId} {i j k : Nat}

/-- What the subtree at a node shows: its kinds and labels, in their arrangement. -/
def contents (t : Tree) (id : NodeId) : Rooted (Kind × String) := (t.subtree id).map Node.content

/-- Two nodes have the same subtree exactly when their subtrees show the same. -/
lemma sameSubtree_iff_contents (ha : a ∈ src.preOrder) (hb : b ∈ dst.preOrder) :
    src.sameSubtree dst a b = true ↔ src.contents a = dst.contents b := by
  rw [sameSubtree_iff]
  refine ⟨And.right, fun h => ⟨?_, h⟩⟩
  have hsize := congrArg (fun r : Rooted (Kind × String) => r.below.size) h
  simp only [contents, Rooted.map, Forest.size_map] at hsize
  rw [size_eq_of_mem ha, size_eq_of_mem hb]
  exact congrArg (· + 1) hsize

/-- The height of a node can be seen from its subtree. -/
lemma height_eq (ha : a ∈ t.preOrder) : t.height a = (t.contents a).below.levels := by
  rw [height, Forest.eq_rootEntry_of_mem (entry_mem_of_mem_preOrder ha).1]
  exact (Forest.levels_map Node.content _).symm

/-- A node belongs to its own subtree. -/
lemma mem_subtree_self : a ∈ a :: t.descendants a := List.mem_cons_self ..

/-- The nodes of a subtree belong to the tree. -/
lemma mem_preOrder_of_mem_subtree (ha : a ∈ t.preOrder) (hx : x ∈ a :: t.descendants a) :
    x ∈ t.preOrder :=
  ((mem_subtree_iff ha).1 hx).1

/-- The places of a subtree are consecutive places of the tree.

**Proof sketch.** The place of `a` itself is `0`, and the place `k + 1` of the subtree is the place
`k` of the descendants, which follow `a` in pre-order. -/
lemma getElem?_subtree (ha : a ∈ t.preOrder) :
    (a :: t.descendants a)[k]? = some x ↔
      x ∈ t.preOrder ∧ t.preIndex x = t.preIndex a + k ∧ k < t.size a := by
  have hs := size_eq_of_mem ha
  cases k with
  | zero =>
    rw [List.getElem?_cons_zero, Option.some.injEq]
    constructor
    · rintro rfl
      exact ⟨ha, rfl, by omega⟩
    · rintro ⟨hx, hpre, -⟩
      exact (preIndex_inj ha hx).1 hpre.symm
  | succ k =>
    rw [List.getElem?_cons_succ, getElem?_descendants ha]
    split
    · next hk =>
      rw [getElem?_preOrder_eq_some_iff]
      constructor
      · rintro ⟨hx, hpre⟩
        exact ⟨hx, by omega, by omega⟩
      · rintro ⟨hx, hpre, -⟩
        exact ⟨hx, by omega⟩
    · next hk =>
      refine ⟨nofun, fun ⟨_, _, hlt⟩ => ?_⟩
      omega

/-- A subtree ends where the subtree around it ends, or before. -/
lemma preIndex_add_size_le_of_mem_subtree (ha : a ∈ t.preOrder) (hx : x ∈ a :: t.descendants a) :
    t.preIndex x + t.size x ≤ t.preIndex a + t.size a := by
  rcases List.mem_cons.1 hx with rfl | hx
  · exact le_rfl
  · obtain ⟨hxn, hbelow⟩ := (mem_descendants_iff ha).1 hx
    obtain ⟨he, hea⟩ := entry_mem_of_mem_preOrder ha
    obtain ⟨hu, hux⟩ := entry_mem_of_mem_preOrder hxn
    rw [← hea, ← hux, isDescendant_iff_above he hu] at hbelow
    exact hbelow.preRun

/-- A place of a subtree within a subtree. -/
lemma getElem?_subtree_trans (ha : a ∈ t.preOrder) (hx : (a :: t.descendants a)[k]? = some x)
    (hy : (x :: t.descendants x)[j]? = some y) : (a :: t.descendants a)[k + j]? = some y := by
  have hle := preIndex_add_size_le_of_mem_subtree ha (List.mem_of_getElem? hx)
  obtain ⟨hxn, hxp, hxk⟩ := (getElem?_subtree ha).1 hx
  obtain ⟨hyn, hyp, hyj⟩ := (getElem?_subtree hxn).1 hy
  exact (getElem?_subtree ha).2 ⟨hyn, by omega, by omega⟩

/-- Of two subtrees with a common node one contains the other. -/
lemma mem_subtree_or_mem_descendants (ha : a ∈ t.preOrder) (hb : b ∈ t.preOrder)
    (hxa : x ∈ a :: t.descendants a) (hxb : x ∈ b :: t.descendants b) :
    a ∈ b :: t.descendants b ∨ b ∈ t.descendants a := by
  obtain ⟨-, hax, hxa⟩ := (mem_subtree_iff ha).1 hxa
  obtain ⟨-, hbx, hxb⟩ := (mem_subtree_iff hb).1 hxb
  rcases le_or_gt (t.preIndex b) (t.preIndex a) with h | h
  · exact .inl ((mem_subtree_iff hb).2 ⟨ha, h, by omega⟩)
  · refine .inr ((mem_descendants_iff ha).2 ⟨hb, ?_⟩)
    simp only [isDescendant, Bool.and_eq_true, decide_eq_true_eq]
    omega

/-- Descendants are lower. -/
lemma height_lt_of_mem_descendants (ha : a ∈ t.preOrder) (hx : x ∈ t.descendants a) :
    t.height x < t.height a := by
  obtain ⟨he, -⟩ := entry_mem_of_mem_preOrder ha
  obtain ⟨u, hu, rfl⟩ := (mem_descendants_iff_exists_entry ha).1 hx
  have hu' := entries_below_subset ha hu
  rw [height, entry_of_mem_entries hu', height, Forest.eq_rootEntry_of_mem hu',
    Forest.eq_rootEntry_of_mem he]
  exact Forest.levels_lt_of_mem_entries hu

/-- No node is higher than the root. -/
lemma height_le_height_root (ha : a ∈ t.preOrder) : t.height a ≤ t.height t.root := by
  by_cases hroot : a = t.root
  · rw [hroot]
  · exact (height_lt_height_root ha hroot).le

/-- The subtrees within a subtree are those at its nodes. -/
lemma subtrees_subtree (ha : a ∈ t.preOrder) :
    (t.subtree a).toForest.subtrees = (a :: t.descendants a).map t.subtree := by
  have hself : ∀ r ∈ (t.subtree a).toForest.subtrees, t.subtree r.root.id = r := fun r hr =>
    (subtree_of_mem_subtrees ha hr).2
  calc (t.subtree a).toForest.subtrees
      = (t.subtree a).toForest.subtrees.map fun r => t.subtree r.root.id :=
        ((List.map_congr_left hself).trans (List.map_id' _)).symm
    _ = (((t.subtree a).toForest.subtrees.map Rooted.root).map Node.id).map t.subtree := by
        rw [List.map_map, List.map_map]
        rfl
    _ = (a :: t.descendants a).map t.subtree := by
        rw [Forest.map_root_subtrees, Rooted.preOrder_toForest, map_id_preOrder_subtree ha]

/-- **Subtrees that show the same show the same at every place.**

**Proof sketch.** What is shown along a subtree are the subtrees of what is shown at its root. -/
lemma map_contents_subtree (hs : s ∈ src.preOrder) (hd : d ∈ dst.preOrder)
    (hsame : src.contents s = dst.contents d) :
    (s :: src.descendants s).map src.contents = (d :: dst.descendants d).map dst.contents := by
  have hall : ∀ {t : Tree} {a : NodeId}, a ∈ t.preOrder →
      (a :: t.descendants a).map t.contents = (t.contents a).toForest.subtrees := by
    intro t a ha
    calc (a :: t.descendants a).map t.contents
        = ((a :: t.descendants a).map t.subtree).map (Rooted.map Node.content) := by
          rw [List.map_map]
          rfl
      _ = ((t.subtree a).toForest.map Node.content).subtrees := by
          rw [← subtrees_subtree ha, Forest.subtrees_map]
  rw [hall hs, hall hd, hsame]

/-- A child stands at a place of the subtree that depends on the shape alone. -/
lemma getElem?_subtree_child (ha : a ∈ t.preOrder) (hc : t.child? a i = some c) :
    (a :: t.descendants a)[(t.contents a).below.rootPlace i + 1]? = some c := by
  rw [child?, children, List.getElem?_map, Option.map_eq_some_iff] at hc
  obtain ⟨n, hn, rfl⟩ := hc
  have hplace := Forest.getElem?_preOrder_rootPlace hn
  rw [List.getElem?_cons_succ, descendants_eq ha, List.getElem?_map]
  change Option.map Node.id (t.entry a).below.preOrder[
    ((t.entry a).below.map Node.content).rootPlace i]? = _
  rw [Forest.rootPlace_map, hplace]
  rfl

/-- The number of children can be seen from the subtree. -/
lemma childCount_eq (t : Tree) (a : NodeId) :
    t.childCount a = (t.contents a).below.roots.length := by
  simp [childCount, children, contents, subtree, Rooted.map, Forest.roots_map]

end Tree

/-! ### Places within a subtree -/

/-- The nodes `x` and `y` stand at the same place of the subtrees at `s` and `d`. -/
def SamePlaceBelow (src dst : Tree) (s d x y : NodeId) : Prop :=
  ∃ k : Nat, (s :: src.descendants s)[k]? = some x ∧ (d :: dst.descendants d)[k]? = some y

namespace SamePlaceBelow

variable {src dst : Tree} {s d x y c : NodeId} {i : Nat}

/-- The tops of two subtrees stand at the same place. -/
lemma top : SamePlaceBelow src dst s d s d := ⟨0, rfl, rfl⟩

/-- A node at a place of the first subtree belongs to it. -/
lemma mem_src (h : SamePlaceBelow src dst s d x y) : x ∈ s :: src.descendants s :=
  List.mem_of_getElem? h.choose_spec.1

/-- A node at a place of the second subtree belongs to it. -/
lemma mem_dst (h : SamePlaceBelow src dst s d x y) : y ∈ d :: dst.descendants d :=
  List.mem_of_getElem? h.choose_spec.2

variable (hs : s ∈ src.preOrder) (hd : d ∈ dst.preOrder) (hsame : src.contents s = dst.contents d)

include hs hd hsame

/-- Every node of the one subtree has a counterpart in the other. -/
lemma exists_dst (hx : x ∈ s :: src.descendants s) : ∃ y, SamePlaceBelow src dst s d x y := by
  obtain ⟨k, hk⟩ := List.mem_iff_getElem?.1 hx
  have hlen := congrArg List.length (Tree.map_contents_subtree hs hd hsame)
  rw [List.length_map, List.length_map] at hlen
  have hlt : k < (d :: dst.descendants d).length := hlen ▸ (List.getElem?_eq_some_iff.1 hk).1
  exact ⟨_, k, hk, List.getElem?_eq_getElem hlt⟩

/-- For every node of the second subtree there is one at its place in the first. -/
lemma exists_src (hy : y ∈ d :: dst.descendants d) : ∃ x, SamePlaceBelow src dst s d x y := by
  obtain ⟨x, k, hk, hk'⟩ := exists_dst hd hs hsame.symm hy
  exact ⟨x, k, hk', hk⟩

/-- Nodes at the same place of the same subtree have the same subtree. -/
lemma contents_eq (h : SamePlaceBelow src dst s d x y) : src.contents x = dst.contents y := by
  obtain ⟨k, hx, hy⟩ := h
  have hget := congrArg (·[k]?) (Tree.map_contents_subtree hs hd hsame)
  simpa only [List.getElem?_map, hx, hy, Option.map_some, Option.some.injEq] using hget

/-- Their children stand at the same places as well.

**Proof sketch.** The subtrees at `x` and `y` have the same contents, hence equally many children,
and the places of the `i`-th ones below `x` and `y` are given by the sizes of the children before
them.  These places add up with the places of `x` and `y`. -/
lemma child (h : SamePlaceBelow src dst s d x y) (hc : src.child? x i = some c) :
    ∃ c', dst.child? y i = some c' ∧ SamePlaceBelow src dst s d c c' := by
  have hxy := h.contents_eq hs hd hsame
  have hxn := Tree.mem_preOrder_of_mem_subtree hs h.mem_src
  have hyn := Tree.mem_preOrder_of_mem_subtree hd h.mem_dst
  have hlt : i < (dst.children y).length := by
    have hcount : (src.children x).length = (dst.children y).length :=
      (src.childCount_eq x).trans (hxy ▸ (dst.childCount_eq y).symm)
    exact hcount ▸ (List.getElem?_eq_some_iff.1 hc).1
  have hc' : dst.child? y i = some (dst.children y)[i] := List.getElem?_eq_getElem hlt
  have hplace := Tree.getElem?_subtree_child hxn hc
  have hplace' := Tree.getElem?_subtree_child hyn hc'
  rw [← hxy] at hplace'
  obtain ⟨k, hx, hy⟩ := h
  exact ⟨_, hc', _, Tree.getElem?_subtree_trans hs hx hplace,
    Tree.getElem?_subtree_trans hd hy hplace'⟩

end SamePlaceBelow

namespace Identical

variable {task : Task} {p q : Pairing}

/-- The pairs that are linked are the nodes at the same places of the two subtrees.

**Proof sketch.** What is linked is zipped from the pre-orders of the two subtrees, so that the
entry `k` consists of the nodes at the place `k`. -/
lemma mem_pairsBelow_iff {s d : NodeId} (hs : s ∈ task.src.preOrder) (hd : d ∈ task.dst.preOrder)
    {z : Pair} :
    z ∈ pairsBelow task (s, d) ↔ SamePlaceBelow task.src task.dst s d z.src z.dst := by
  have hzip : pairsBelow task (s, d) =
      ((s :: task.src.descendants s).zip (d :: task.dst.descendants d)).map
        fun x => ⟨x.1, x.2⟩ := by
    rw [← Tree.map_id_preOrder_subtree hs, ← Tree.map_id_preOrder_subtree hd, List.zip_map,
      List.map_map]
    rfl
  rw [hzip, List.mem_map]
  constructor
  · rintro ⟨⟨x, y⟩, hxy, rfl⟩
    obtain ⟨k, hk⟩ := List.mem_iff_getElem?.1 hxy
    exact ⟨k, List.getElem?_zip_eq_some.1 hk⟩
  · rintro ⟨k, hk⟩
    exact ⟨(z.src, z.dst), List.mem_of_getElem? (List.getElem?_zip_eq_some.2 hk), rfl⟩

/-! ### What one representative contributes -/

/-- The subtrees at `s` and `d` are the same, untouched by the first pairing and linked node by node
in the second. -/
structure TakenWhole (task : Task) (p q : Pairing) (s d : NodeId) : Prop where
  srcNode : s ∈ task.src.preOrder
  dstNode : d ∈ task.dst.preOrder
  same : task.src.contents s = task.dst.contents d
  srcFree : ∀ x ∈ s :: task.src.descendants s, p.dst? x = none
  dstFree : ∀ y ∈ d :: task.dst.descendants d, p.src? y = none
  linked : ∀ x y, SamePlaceBelow task.src task.dst s d x y → q.dst? x = some y

/-- What was taken whole is untouched by any earlier pairing, and linked in any later one. -/
lemma TakenWhole.mono {p' q' : Pairing} {s d : NodeId} (h : TakenWhole task p q s d)
    (hp : Grows task p' p) (hq : Grows task q q') : TakenWhole task p' q' s d where
  srcNode := h.srcNode
  dstNode := h.dstNode
  same := h.same
  srcFree x hx := hp.srcFree_before (h.srcFree x hx)
  dstFree y hy := hp.dstFree_before (h.dstFree y hy)
  linked x y hxy := hq.dst? (h.linked x y hxy)

/-- What linking the occurrences of the subtree at `r` does to a pairing. -/
structure Linked (task : Task) (r : NodeId) (p q : Pairing) : Prop where
  /-- The pairing grows. -/
  grows : Grows task p q
  /-- New pairs belong to occurrences that are linked as a whole. -/
  new : ∀ x y, q.dst? x = some y → p.dst? x = some y ∨
    ∃ s d, task.src.contents s = task.src.contents r ∧ TakenWhole task p q s d ∧
      SamePlaceBelow task.src task.dst s d x y
  /-- Untouched occurrences remain on one side at most. -/
  exhausts : ∀ s ∈ task.src.preOrder, ∀ d ∈ task.dst.preOrder,
    task.src.contents s = task.src.contents r → task.dst.contents d = task.src.contents r →
    (∀ x ∈ s :: task.src.descendants s, p.dst? x = none) →
    (∀ y ∈ d :: task.dst.descendants d, p.src? y = none) → q.dst? s ≠ none ∨ q.src? d ≠ none

/-- **The occurrences of a subtree are linked as long as there are some on both sides.**

**Proof sketch.** The loop links every pair of the two zipped lists of untouched occurrences as a
whole.  What is linked is one of these pairs or below one, at the same place.  Of two untouched
occurrences, one on each side, the one in the shorter list is in a pair, and so it is no longer
free. -/
theorem returns_linkOccurrences {r : NodeId} (hr : r ∈ task.src.preOrder) (hp : p.OneToOne) :
    Returns (linkOccurrences task r) p fun _ => Linked task r p := by
  have hocc := occurrences_zip task p r
  refine returns_pairing_bind (hocc.returns_forM.mono ?_)
  rintro - q ⟨hgrows, hall⟩
  set srcs := task.src.preOrder.filter fun s =>
    task.src.sameSubtree task.src r s && srcUntouched task.src p s with hsrcs
  set dsts := task.dst.preOrder.filter fun d =>
    task.src.sameSubtree task.dst r d && dstUntouched task.dst p d with hdsts
  have htaken : ∀ x ∈ srcs.zip dsts, task.src.contents x.1 = task.src.contents r ∧
      TakenWhole task p q x.1 x.2 := by
    intro x hx
    have hsn := (hocc.srcNode x hx).1
    have hdn := (hocc.dstNode x hx).1
    have hxr := (List.mem_filter.1 (List.of_mem_zip hx).1).2
    rw [Bool.and_eq_true, Tree.sameSubtree_iff_contents hr hsn] at hxr
    refine ⟨hxr.1.symm, hsn, hdn, (Tree.sameSubtree_iff_contents hsn hdn).1 (hocc.same x hx),
      srcUntouched_iff.1 (hocc.srcFree x hx), dstUntouched_iff.1 (hocc.dstFree x hx), ?_⟩
    intro y z hyz
    exact (hall y z).2 (.inr (List.mem_flatMap.2 ⟨x, hx, (mem_pairsBelow_iff hsn hdn).2 hyz⟩))
  refine ⟨hgrows, fun x y hxy => ?_, fun s hs d hd hsr hdr hsf hdf => ?_⟩
  · refine ((hall x y).1 hxy).imp_right fun hmem => ?_
    obtain ⟨z, hz, hxy⟩ := List.mem_flatMap.1 hmem
    obtain ⟨hzr, hwhole⟩ := htaken z hz
    exact ⟨z.1, z.2, hzr, hwhole, (mem_pairsBelow_iff hwhole.srcNode hwhole.dstNode).1 hxy⟩
  · have hs' : s ∈ srcs := by
      rw [hsrcs, List.mem_filter, Bool.and_eq_true, Tree.sameSubtree_iff_contents hr hs]
      exact ⟨hs, hsr.symm, srcUntouched_iff.2 hsf⟩
    have hd' : d ∈ dsts := by
      rw [hdsts, List.mem_filter, Bool.and_eq_true, Tree.sameSubtree_iff_contents hr hd]
      exact ⟨hd, hdr.symm, dstUntouched_iff.2 hdf⟩
    obtain ⟨i, hi⟩ := List.mem_iff_getElem?.1 hs'
    obtain ⟨j, hj⟩ := List.mem_iff_getElem?.1 hd'
    have hilt := (List.getElem?_eq_some_iff.1 hi).1
    have hjlt := (List.getElem?_eq_some_iff.1 hj).1
    -- the shorter of the two lists is used up
    rcases lt_or_ge i dsts.length with hlt | hge
    · have hz := List.mem_of_getElem?
        (List.getElem?_zip_eq_some (z := (s, dsts[i])).2 ⟨hi, List.getElem?_eq_getElem hlt⟩)
      left
      rw [(htaken _ hz).2.linked _ _ .top]
      exact Option.some_ne_none _
    · have hlt : j < srcs.length := by omega
      have hz := List.mem_of_getElem?
        (List.getElem?_zip_eq_some (z := (srcs[j], d)).2 ⟨List.getElem?_eq_getElem hlt, hj⟩)
      right
      rw [(hgrows.oneToOne hp _ _).1 ((htaken _ hz).2.linked _ _ .top)]
      exact Option.some_ne_none _

/-! ### What all representatives contribute -/

/-- The occurrences of the subtrees at the given nodes have been linked, one subtree after the
other. -/
inductive LinkedAll (task : Task) : List NodeId → Pairing → Pairing → Prop
  | nil {p : Pairing} : LinkedAll task [] p p
  | cons {r : NodeId} {rs : List NodeId} {p p' q : Pairing} (first : Linked task r p p')
      (rest : LinkedAll task rs p' q) : LinkedAll task (r :: rs) p q

/-- **Linking the occurrences of several subtrees** links those of each on the pairing that those
before have left. -/
lemma returns_forM_linkOccurrences {rs : List NodeId} (hrs : ∀ r ∈ rs, r ∈ task.src.preOrder)
    (hp : p.OneToOne) :
    Returns (rs.forM (linkOccurrences task)) p fun _ => LinkedAll task rs p := by
  induction rs generalizing p with
  | nil => exact returns_pure .nil
  | cons r rs ih =>
    change Returns (linkOccurrences task r >>= fun _ => rs.forM (linkOccurrences task)) p _
    refine (returns_linkOccurrences (hrs r (List.mem_cons_self ..)) hp).bind fun _ q hq => ?_
    exact (ih (fun x hx => hrs x (List.mem_cons_of_mem r hx)) (hq.grows.oneToOne hp)).mono
      fun _ _ h => .cons hq h

/-- **The stage links the occurrences of all representatives**, one after the other. -/
theorem returns_run (task : Task) (hp : p.OneToOne) :
    Returns (run task) p fun _ => LinkedAll task (representatives task p) p :=
  returns_pairing_bind
    (returns_forM_linkOccurrences (fun _ hr => mem_preOrder_of_mem_representatives hr) hp)

namespace LinkedAll

variable {rs : List NodeId} {r s d x y : NodeId}

/-- Linking occurrences makes the pairing grow. -/
lemma grows (h : LinkedAll task rs p q) : Grows task p q := by
  induction h with
  | nil => exact .refl
  | cons first _ ih => exact first.grows.trans ih

/-- **What is new belongs to subtrees that were untouched and are linked as a whole.** -/
lemma old_or_taken (h : LinkedAll task rs p q) (hxy : q.dst? x = some y) :
    p.dst? x = some y ∨
      ∃ s d, TakenWhole task p q s d ∧ SamePlaceBelow task.src task.dst s d x y := by
  induction h with
  | nil => exact .inl hxy
  | cons first rest ih =>
    rcases ih hxy with hold | ⟨s, d, hwhole, hplace⟩
    · refine (first.new x y hold).imp_right ?_
      rintro ⟨s, d, -, hwhole, hplace⟩
      exact ⟨s, d, hwhole.mono .refl rest.grows, hplace⟩
    · exact .inr ⟨s, d, hwhole.mono first.grows .refl, hplace⟩

/-- Two untouched subtrees that are the same cannot remain, if one of the representatives stands for
them. -/
lemma touched (h : LinkedAll task rs p q) (hr : r ∈ rs) (hs : s ∈ task.src.preOrder)
    (hd : d ∈ task.dst.preOrder) (hsr : task.src.contents s = task.src.contents r)
    (hdr : task.dst.contents d = task.src.contents r)
    (hsf : ∀ x ∈ s :: task.src.descendants s, q.dst? x = none)
    (hdf : ∀ y ∈ d :: task.dst.descendants d, q.src? y = none) : False := by
  induction h with
  | nil => cases hr
  | cons first rest ih =>
    rcases List.mem_cons.1 hr with rfl | hr
    · have hgrows := first.grows.trans rest.grows
      rcases first.exhausts s hs d hd hsr hdr (fun x hx => hgrows.srcFree_before (hsf x hx))
        fun y hy => hgrows.dstFree_before (hdf y hy) with hne | hne
      · exact hne (rest.grows.srcFree_before (hsf s Tree.mem_subtree_self))
      · exact hne (rest.grows.dstFree_before (hdf d Tree.mem_subtree_self))
    · exact ih hr hsf hdf

end LinkedAll

/-! ### The highest subtrees first -/

/-- Everything that is linked belongs to subtrees at least `h` high that are linked as a whole. -/
def Layered (task : Task) (h : Nat) (p : Pairing) : Prop :=
  ∀ x y, p.dst? x = some y → ∃ s d, TakenWhole task .empty p s d ∧ h ≤ task.src.height s ∧
    SamePlaceBelow task.src task.dst s d x y

namespace Layered

variable {h : Nat} {s d : NodeId} (hl : Layered task h p)

include hl

/-- **A free source node is untouched, unless it is higher than what has been linked.**

**Proof sketch.** If a node below it were linked, then so would be a whole subtree that contains
that node.  This subtree contains the free node, or it lies strictly below it; but then it is too
low. -/
lemma srcUntouched (hs : s ∈ task.src.preOrder) (hh : task.src.height s ≤ h)
    (hfree : p.dst? s = none) : ∀ x ∈ s :: task.src.descendants s, p.dst? x = none := by
  intro x hx
  refine Option.eq_none_iff_forall_ne_some.2 fun y hxy => ?_
  obtain ⟨s₀, d₀, hwhole, hlow, hplace⟩ := hl x y hxy
  rcases Tree.mem_subtree_or_mem_descendants hs hwhole.srcNode hx hplace.mem_src with hin | hin
  · obtain ⟨d, hd⟩ := SamePlaceBelow.exists_dst hwhole.srcNode hwhole.dstNode hwhole.same hin
    rw [hwhole.linked s d hd] at hfree
    cases hfree
  · have hlt := Tree.height_lt_of_mem_descendants hs hin
    omega

/-- The same for a free destination node. -/
lemma dstUntouched (hp : p.OneToOne) (hd : d ∈ task.dst.preOrder) (hh : task.dst.height d ≤ h)
    (hfree : p.src? d = none) : ∀ y ∈ d :: task.dst.descendants d, p.src? y = none := by
  intro y hy
  refine Option.eq_none_iff_forall_ne_some.2 fun x hxy => ?_
  obtain ⟨s₀, d₀, hwhole, hlow, hplace⟩ := hl x y ((hp x y).2 hxy)
  rcases Tree.mem_subtree_or_mem_descendants hd hwhole.dstNode hy hplace.mem_dst with hin | hin
  · obtain ⟨s, hs⟩ := SamePlaceBelow.exists_src hwhole.srcNode hwhole.dstNode hwhole.same hin
    rw [(hp s d).1 (hwhole.linked s d hs)] at hfree
    cases hfree
  · have hlt := Tree.height_lt_of_mem_descendants hd hin
    rw [Tree.height_eq hwhole.srcNode, hwhole.same, ← Tree.height_eq hwhole.dstNode] at hlow
    omega

/-- Linking the occurrences of a lower subtree adds a lower layer. -/
lemma linked {r : NodeId} (hr : r ∈ task.src.preOrder) (hh : task.src.height r ≤ h)
    (hpq : Linked task r p q) : Layered task (task.src.height r) q := by
  intro x y hxy
  rcases hpq.new x y hxy with hold | ⟨s, d, hsr, hwhole, hplace⟩
  · obtain ⟨s, d, hwhole, hlow, hplace⟩ := hl x y hold
    exact ⟨s, d, hwhole.mono .refl hpq.grows, hh.trans hlow, hplace⟩
  · refine ⟨s, d, { hwhole with srcFree := ?_, dstFree := ?_ }, ?_, hplace⟩
    · exact fun _ _ => Pairing.dst?_empty
    · exact fun _ _ => Pairing.src?_empty
    · rw [Tree.height_eq hwhole.srcNode, hsr, ← Tree.height_eq hr]

end Layered

/-- **If the highest subtrees come first, no occurrence remains that could be linked on its own.**

**Proof sketch.** Induction over the representatives.  When it is the turn of the subtree, only
higher subtrees and others of its height have been linked, so its free occurrences are untouched,
and they are used up on one side. -/
lemma LinkedAll.linked_of_layered {rs : List NodeId} {h : Nat} {r s d : NodeId}
    (hall : LinkedAll task rs p q) (hp : p.OneToOne) (hl : Layered task h p)
    (hnodes : ∀ r ∈ rs, r ∈ task.src.preOrder ∧ task.src.height r ≤ h)
    (hsorted : rs.Pairwise fun a b => task.src.height b ≤ task.src.height a)
    (hr : r ∈ rs) (hs : s ∈ task.src.preOrder) (hd : d ∈ task.dst.preOrder)
    (hsr : task.src.contents s = task.src.contents r)
    (hdr : task.dst.contents d = task.src.contents r) : q.dst? s ≠ none ∨ q.src? d ≠ none := by
  induction hall generalizing h with
  | nil => cases hr
  | @cons r₀ rs p p' q first rest ih =>
    obtain ⟨hr₀, hh⟩ := hnodes r₀ (List.mem_cons_self ..)
    obtain ⟨hle, hsorted⟩ := List.pairwise_cons.1 hsorted
    rcases List.mem_cons.1 hr with rfl | hr
    · have hsh : task.src.height s ≤ h := by rwa [Tree.height_eq hs, hsr, ← Tree.height_eq hr₀]
      have hdh : task.dst.height d ≤ h := by rwa [Tree.height_eq hd, hdr, ← Tree.height_eq hr₀]
      have hgrows := first.grows.trans rest.grows
      by_contra! hfree
      have hexh := first.exhausts s hs d hd hsr hdr
        (hl.srcUntouched hs hsh (hgrows.srcFree_before hfree.1))
        (hl.dstUntouched hp hd hdh (hgrows.dstFree_before hfree.2))
      exact hexh.elim (· (rest.grows.srcFree_before hfree.1))
        (· (rest.grows.dstFree_before hfree.2))
    · refine ih (first.grows.oneToOne hp) (hl.linked hr₀ hh first) (fun x hx => ?_) hsorted hr
      exact ⟨(hnodes x (List.mem_cons_of_mem r₀ hx)).1, hle x hx⟩

end Identical

/-! ### Nothing is left over -/

variable {task : Task} {p q : Pairing}

/-- Linking identical subtrees leaves no two of them untouched. -/
lemma Identical.not_untouched_of_run (hq : LinkedAll task (representatives task p) p q)
    {s d : NodeId} (hs : s ∈ task.src.preOrder) (hd : d ∈ task.dst.preOrder)
    (hsame : task.src.contents s = task.dst.contents d)
    (hsf : ∀ x ∈ s :: task.src.descendants s, q.dst? x = none)
    (hdf : ∀ y ∈ d :: task.dst.descendants d, q.src? y = none) : False := by
  obtain ⟨r, hr, hrs⟩ := exists_representative hs hd
    ((Tree.sameSubtree_iff_contents hs hd).2 hsame)
    (hq.grows.srcFree_before (hsf s Tree.mem_subtree_self))
    (hq.grows.dstFree_before (hdf d Tree.mem_subtree_self))
  have hrn := mem_preOrder_of_mem_representatives hr
  have hrs' := (Tree.sameSubtree_iff_contents hrn hs).1 hrs
  exact hq.touched hr hs hd hrs'.symm (hsame.symm.trans hrs'.symm) hsf hdf

/-- Nodes that are linked with a whole subtree were free, and so was everything below them. -/
lemma Identical.TakenWhole.free_below {s d x y : NodeId} (h : TakenWhole task p q s d)
    (hxy : SamePlaceBelow task.src task.dst s d x y) :
    (∀ z ∈ x :: task.src.descendants x, p.dst? z = none) ∧
      ∀ z ∈ y :: task.dst.descendants y, p.src? z = none := by
  obtain ⟨k, hx, hy⟩ := hxy
  refine ⟨fun z hz => h.srcFree z ?_, fun z hz => h.dstFree z ?_⟩
  · obtain ⟨j, hj⟩ := List.mem_iff_getElem?.1 hz
    exact List.mem_of_getElem? (Tree.getElem?_subtree_trans h.srcNode hx hj)
  · obtain ⟨j, hj⟩ := List.mem_iff_getElem?.1 hz
    exact List.mem_of_getElem? (Tree.getElem?_subtree_trans h.dstNode hy hj)

/-- **Identical subtrees are linked as a whole, and none is left over.**  Run on any one-to-one
pairing, the stage does not fail.  Every pair it adds has the same subtree on both sides, which was
wholly without partners before, and the children of the two nodes are linked one by one.  Afterwards
no two nodes with the same subtree are left whose subtrees are wholly without partners, and so a
second run changes nothing.

**Proof sketch.** `Identical.returns_run` says what the stage links: nodes at the same place of two
subtrees that have been taken as wholes.  Two untouched nodes with the same subtree would have been
taken, and for this reason a second run has nothing to add. -/
theorem identical_subtrees_are_linked_whole (task : Task) (p : Pairing)
    (hone : p.isOneToOne = true) :
    let after := Stage.identical.perform task p
    let q := after.pairing
    after.fault = none ∧
    (∀ z ∈ q.pairs, z ∉ p.pairs →
      z.src ∈ task.src.preOrder ∧ z.dst ∈ task.dst.preOrder ∧
      task.src.contents z.src = task.dst.contents z.dst ∧
      (∀ x ∈ z.src :: task.src.descendants z.src, p.hasSrc x = false) ∧
      (∀ y ∈ z.dst :: task.dst.descendants z.dst, p.hasDst y = false) ∧
      task.src.childCount z.src = task.dst.childCount z.dst ∧
      ∀ i s d, task.src.child? z.src i = some s → task.dst.child? z.dst i = some d →
        ⟨s, d⟩ ∈ q.pairs) ∧
    (∀ s ∈ task.src.preOrder, ∀ d ∈ task.dst.preOrder,
      task.src.contents s = task.dst.contents d →
      (∃ x ∈ s :: task.src.descendants s, q.hasSrc x = true) ∨
        ∃ y ∈ d :: task.dst.descendants d, q.hasDst y = true) ∧
    (Stage.identical.perform task q).fault = none ∧
      (Stage.identical.perform task q).pairing = q := by
  intro after q
  have hp : p.OneToOne := Pairing.isOneToOne_iff.1 hone
  obtain ⟨hfault, hq⟩ := (Identical.returns_run task hp).perform
  change Identical.LinkedAll task _ p q at hq
  obtain ⟨hfault', hagain⟩ := (Identical.returns_run task (hq.grows.oneToOne hp)).perform
  refine ⟨hfault, fun z hz hnew => ?_, fun s hs d hd hsame => ?_, hfault', ?_⟩
  · rcases hq.old_or_taken (Pairing.mem_pairs_iff.1 hz) with hold | ⟨s, d, hwhole, hplace⟩
    · exact absurd (Pairing.mem_pairs_iff.2 hold) hnew
    · have hsame := hplace.contents_eq hwhole.srcNode hwhole.dstNode hwhole.same
      obtain ⟨hsf, hdf⟩ := hwhole.free_below hplace
      refine ⟨Tree.mem_preOrder_of_mem_subtree hwhole.srcNode hplace.mem_src,
        Tree.mem_preOrder_of_mem_subtree hwhole.dstNode hplace.mem_dst, hsame,
        fun x hx => ?_, fun y hy => ?_, ?_, fun i s' d' hs' hd' => ?_⟩
      · simp [Pairing.hasSrc, hsf x hx]
      · simp [Pairing.hasDst, hdf y hy]
      · rw [Tree.childCount_eq, Tree.childCount_eq, hsame]
      · obtain ⟨c, hc, hplace'⟩ :=
          hplace.child hwhole.srcNode hwhole.dstNode hwhole.same hs'
        rw [hd', Option.some.injEq] at hc
        exact Pairing.mem_pairs_iff.2 (hc ▸ hwhole.linked _ _ hplace')
  · by_contra! hfree
    refine Identical.not_untouched_of_run hq hs hd hsame (fun x hx => ?_) fun y hy => ?_
    · simpa [Pairing.hasSrc] using hfree.1 x hx
    · simpa [Pairing.hasDst] using hfree.2 y hy
  · -- what a second run took whole would have been untouched before it
    refine hagain.grows.eq_of_forall_old fun s d hsd => ?_
    refine (hagain.old_or_taken hsd).resolve_right ?_
    rintro ⟨s₀, d₀, hwhole, -⟩
    exact Identical.not_untouched_of_run hq hwhole.srcNode hwhole.dstNode hwhole.same
      hwhole.srcFree hwhole.dstFree

/-- The stage is a loop over the representatives. -/
lemma Identical.perform_eq (task : Task) (p : Pairing) :
    Stage.identical.perform task p =
      Matching.perform ((representatives task p).forM (linkOccurrences task)) p := rfl

/-- The source root and the first leaf of the first of two equal subtrees have partners of another
kind.  That subtree is passed over as a whole, the other one is linked with its only counterpart,
and nothing remains to be linked. -/
theorem partly_linked_subtree_is_passed_over :
    let pair : Forest (Kind × String) := .node (⟨2⟩, "x") .nil (.leaf (⟨2⟩, "y"))
    let src : Tree := .ofContents ⟨(⟨0⟩, "f"), .node (⟨1⟩, "") pair (.node (⟨1⟩, "") pair .nil)⟩
    let dst : Tree := .ofContents ⟨(⟨3⟩, "g"), .node (⟨1⟩, "") pair (.leaf (⟨4⟩, "z"))⟩
    let task : Task := { src, dst }
    let p := (Pairing.empty.insert 3 5).insert 1 1
    let q := (Stage.identical.perform task p).pairing
    p.isOneToOne = true ∧ p.pairs = [⟨1, 1⟩, ⟨3, 5⟩] ∧
      q.pairs = [⟨1, 1⟩, ⟨3, 5⟩, ⟨5, 2⟩, ⟨6, 3⟩, ⟨7, 4⟩] ∧
      (∀ x ∈ 5 :: src.descendants 5, p.hasSrc x = false) ∧
      src.child? 5 1 = some 7 ∧ dst.child? 2 1 = some 4 ∧ ⟨7, 4⟩ ∈ q.pairs ∧
      src.contents 2 = dst.contents 2 ∧
      ((∃ x ∈ 2 :: src.descendants 2, q.hasSrc x = true) ∨
        ∃ y ∈ 2 :: dst.descendants 2, q.hasDst y = true) ∧
      (Stage.identical.perform task q).pairing = q := by
  intro pair src dst task p q
  have hone : p.isOneToOne = true := by decide +kernel
  have hfirsts : Identical.firsts src (Identical.shared task p) = [2, 4, 6] := by decide +kernel
  have hsorted : Identical.representatives task p = [2, 4, 6] := by
    rw [Identical.representatives, hfirsts]
    exact List.mergeSort_of_pairwise (by decide +kernel)
  have hq : q.pairs = [⟨1, 1⟩, ⟨3, 5⟩, ⟨5, 2⟩, ⟨6, 3⟩, ⟨7, 4⟩] := by
    rw [show q = _ from congrArg Outcome.pairing (Identical.perform_eq task p), hsorted]
    decide +kernel
  have hsrc : src.child? 5 1 = some 7 := by decide +kernel
  have hdst : dst.child? 2 1 = some 4 := by decide +kernel
  have hsame : src.contents 2 = dst.contents 2 := by decide +kernel
  obtain ⟨-, hnew, hnone, -, hagain⟩ := identical_subtrees_are_linked_whole task p hone
  obtain ⟨-, -, -, hfree, -, -, hchild⟩ := hnew ⟨5, 2⟩ (by rw [hq]; decide) (by decide +kernel)
  have htouched := hnone 2 (by decide +kernel) 2 (by decide +kernel) hsame
  exact ⟨hone, by decide +kernel, hq, hfree, hsrc, hdst, hchild 1 7 4 hsrc hdst, hsame, htouched,
    hagain⟩

/-! ### How often a subtree is linked -/

/-- The nodes whose subtree shows the given kinds and labels, in pre-order. -/
def Tree.occurrences (t : Tree) (v : Rooted (Kind × String)) : List NodeId :=
  t.preOrder.filter fun n => t.contents n = v

/-- The occurrences of a tree of contents are the nodes with that subtree. -/
lemma Tree.mem_occurrences_iff {t : Tree} {v : Rooted (Kind × String)} {n : NodeId} :
    n ∈ t.occurrences v ↔ n ∈ t.preOrder ∧ t.contents n = v := by
  simp [Tree.occurrences]

/-- If every pair has the same subtree on both sides, and a subtree does not have free occurrences
on both sides, then it is linked as often as possible.

**Proof sketch.** The pairs that have the subtree `v` have distinct ends, all of which are
occurrences of `v`; so they are at most as many as there are occurrences on either side.  If all
occurrences on the source side are linked they are equally many as those.  Otherwise one of them is
free, so that all occurrences on the destination side are linked. -/
lemma Pairing.length_filter_contents {src dst : Tree} {q : Pairing} {v : Rooted (Kind × String)}
    (hq : q.Joins src dst) (hsame : ∀ z ∈ q.pairs, src.contents z.src = dst.contents z.dst)
    (hmax : ∀ s ∈ src.occurrences v, ∀ d ∈ dst.occurrences v, q.dst? s ≠ none ∨ q.src? d ≠ none) :
    (q.pairs.filter fun z => src.contents z.src = v ∧ dst.contents z.dst = v).length =
      min (src.occurrences v).length (dst.occurrences v).length := by
  set found := q.pairs.filter fun z => src.contents z.src = v ∧ dst.contents z.dst = v with hfound
  have hmem : ∀ z, z ∈ found ↔ z ∈ q.pairs ∧ src.contents z.src = v ∧ dst.contents z.dst = v := by
    simp [hfound]
  have hnds : (found.map Pair.src).Nodup :=
    Pairing.nodup_map_src_pairs.sublist (List.filter_sublist.map _)
  have hndd : (found.map Pair.dst).Nodup :=
    (Pairing.nodup_map_dst_pairs fun s d => (hq.oneToOne s d).1).sublist
      (List.filter_sublist.map _)
  have hsub : found.map Pair.src ⊆ src.occurrences v := by
    intro s hs
    obtain ⟨z, hz, rfl⟩ := List.mem_map.1 hs
    obtain ⟨hzq, hzs, -⟩ := (hmem z).1 hz
    exact Tree.mem_occurrences_iff.2 ⟨(hq.nodes _ _ (mem_pairs_iff.1 hzq)).1, hzs⟩
  have hsub' : found.map Pair.dst ⊆ dst.occurrences v := by
    intro d hd
    obtain ⟨z, hz, rfl⟩ := List.mem_map.1 hd
    obtain ⟨hzq, -, hzd⟩ := (hmem z).1 hz
    exact Tree.mem_occurrences_iff.2 ⟨(hq.nodes _ _ (mem_pairs_iff.1 hzq)).2, hzd⟩
  have hle := (List.subperm_of_subset hnds hsub).length_le
  have hle' := (List.subperm_of_subset hndd hsub').length_le
  rw [List.length_map] at hle hle'
  -- one side has no free occurrence, so all of its occurrences are found
  by_cases hall : ∀ s ∈ src.occurrences v, q.dst? s ≠ none
  · have hge : (src.occurrences v).length ≤ (found.map Pair.src).length := by
      refine (List.subperm_of_subset (Tree.nodup_preOrder.filter _) fun s hs => ?_).length_le
      obtain ⟨d, hd⟩ := Option.ne_none_iff_exists'.1 (hall s hs)
      have hz := mem_pairs_iff (z := ⟨s, d⟩).2 hd
      have hsv := (Tree.mem_occurrences_iff.1 hs).2
      exact List.mem_map.2 ⟨⟨s, d⟩, (hmem _).2 ⟨hz, hsv, (hsame _ hz).symm.trans hsv⟩, rfl⟩
    rw [List.length_map] at hge
    omega
  · push Not at hall
    obtain ⟨s, hs, hfree⟩ := hall
    have hge : (dst.occurrences v).length ≤ (found.map Pair.dst).length := by
      refine (List.subperm_of_subset (Tree.nodup_preOrder.filter _) fun d hd => ?_).length_le
      have hne := (hmax s hs d hd).resolve_left (· hfree)
      obtain ⟨s', hs'⟩ := Option.ne_none_iff_exists'.1 hne
      have hz := mem_pairs_iff (z := ⟨s', d⟩).2 ((hq.oneToOne s' d).2 hs')
      have hdv := (Tree.mem_occurrences_iff.1 hd).2
      exact List.mem_map.2 ⟨⟨s', d⟩, (hmem _).2 ⟨hz, (hsame _ hz).trans hdv, hdv⟩, rfl⟩
    rw [List.length_map] at hge
    omega

/-- **Every subtree is linked as often as it occurs on both sides.**  Run on the empty pairing, the
stage does not fail, all pairs it makes have the same subtree on both sides, and for every subtree
the number of pairs that have it is the smaller one of the numbers of its occurrences.

**Proof sketch.** On the empty pairing all nodes are untouched when the stage begins.  The highest
subtrees come first, and so no subtree keeps free occurrences on both sides, by
`LinkedAll.linked_of_layered`.  Then `Pairing.length_filter_contents` counts the pairs. -/
theorem identical_subtrees_are_linked_as_often_as_possible (task : Task) :
    let after := Stage.identical.perform task .empty
    after.fault = none ∧
    (∀ z ∈ after.pairing.pairs, task.src.contents z.src = task.dst.contents z.dst) ∧
    ∀ v : Rooted (Kind × String),
      (after.pairing.pairs.filter fun z =>
          task.src.contents z.src = v ∧ task.dst.contents z.dst = v).length =
        min (task.src.occurrences v).length (task.dst.occurrences v).length := by
  intro after
  have hone := Pairing.oneToOne_empty
  obtain ⟨hfault, hq⟩ := (Identical.returns_run task hone).perform
  have hjoins := hq.grows.joins ⟨hone, by simp⟩
  have hsame : ∀ z ∈ after.pairing.pairs, task.src.contents z.src = task.dst.contents z.dst := by
    intro z hz
    rcases hq.old_or_taken (Pairing.mem_pairs_iff.1 hz) with hold | ⟨s, d, hwhole, hplace⟩
    · rw [Pairing.dst?_empty] at hold
      cases hold
    · exact hplace.contents_eq hwhole.srcNode hwhole.dstNode hwhole.same
  refine ⟨hfault, hsame, fun v => Pairing.length_filter_contents hjoins hsame ?_⟩
  intro s hs d hd
  obtain ⟨hsn, hsv⟩ := Tree.mem_occurrences_iff.1 hs
  obtain ⟨hdn, hdv⟩ := Tree.mem_occurrences_iff.1 hd
  obtain ⟨r, hr, hrs⟩ := Identical.exists_representative hsn hdn
    ((Tree.sameSubtree_iff_contents hsn hdn).2 (hsv.trans hdv.symm)) Pairing.dst?_empty
    Pairing.src?_empty
  have hrn := Identical.mem_preOrder_of_mem_representatives hr
  have hrs' := (Tree.sameSubtree_iff_contents hrn hsn).1 hrs
  refine hq.linked_of_layered (h := task.src.height task.src.root) hone
    (by simp [Identical.Layered]) (fun r hr => ?_)
    (Identical.pairwise_representatives task .empty) hr hsn hdn hrs'.symm
    (hdv.trans (hsv.symm.trans hrs'.symm))
  have hrn := Identical.mem_preOrder_of_mem_representatives hr
  exact ⟨hrn, Tree.height_le_height_root hrn⟩

end TreeMatching
