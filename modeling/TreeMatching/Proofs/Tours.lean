import TreeMatching.Proofs.TreeTables

set_option autoImplicit false

/-!
# Tours through a tree

A tour visits one waiting node after the other and lets the children of the visited node wait as
well.  It needs to know nothing of a tree but the root and the children of its nodes.  Which order
comes out depends on where the children are put: behind all others, as in a queue, or in front of
them, as on a stack.

## Main definitions

* `Forest.level` — the values on one level of a forest.
* `Tour`, `Tour.next?`, `Tour.after` — a tour, its next step, and any number of steps.
* `Tour.queued`, `Tour.stacked` — the two places where children may be put.
* `Tree.Knows` — the tree has the children of all nodes of a forest right.

## Main results

* `Forest.breadthFirst_eq` — breadth-first means one level after the other.
* `Tour.after_queue` — with a queue, all waiting nodes are replaced by their children.
* `Tour.after_levels` — after a whole level has been visited, the next level is waiting.
* `Tour.after_stack` — with a stack, a forest is visited in post-order, backwards.
* `Tree.pairwise_breadthFirst` — nodes come by their depths, and on a level by pre-order indices.
* `breadth_first_tour_visits_nodes_by_depth` — a tour with a queue ends when it has visited every
  node once, in this order.
-/

namespace TreeMatching

/-! ### Levels of a forest -/

namespace Forest

variable {α : Type}

/-- The values on a level, left to right; the roots are on level zero. -/
def level : Forest α → Nat → List α
  | .nil, _ => []
  | .node a _ next, 0 => a :: next.level 0
  | .node _ below next, k + 1 => below.level k ++ next.level (k + 1)

/-- The uppermost level are the roots. -/
lemma level_zero (f : Forest α) : f.level 0 = f.roots := by
  induction f with
  | nil => rfl
  | node a below next _ ihn => rw [level, roots, ihn]

/-- The values on the first `k` levels, one level after the other. -/
def upper (f : Forest α) (k : Nat) : List α := (List.range k).flatMap f.level

/-- One more level is put behind those above it. -/
lemma upper_succ (f : Forest α) (k : Nat) : f.upper (k + 1) = f.upper k ++ f.level k := by
  rw [upper, List.range_succ, List.flatMap_append, List.flatMap_singleton, upper]

/-- Joining two lists of levels joins the levels. -/
lemma getD_joinLevels (xs ys : List (List α)) (k : Nat) :
    (joinLevels xs ys)[k]?.getD [] = xs[k]?.getD [] ++ ys[k]?.getD [] := by
  fun_induction joinLevels xs ys generalizing k with
  | case1 ys => simp
  | case2 xs _ => simp
  | case3 x xs y ys ih =>
    cases k with
    | zero => simp
    | succ k => simpa using ih k

/-- Two lists of levels, joined, are as long as the longer one. -/
lemma length_joinLevels (xs ys : List (List α)) :
    (joinLevels xs ys).length = max xs.length ys.length := by
  fun_induction joinLevels xs ys with
  | case1 ys => simp
  | case2 xs _ => simp
  | case3 x xs y ys ih => simp [ih]

/-- Joining levels keeps all values. -/
lemma flatten_joinLevels_perm (xs ys : List (List α)) :
    (joinLevels xs ys).flatten.Perm (xs.flatten ++ ys.flatten) := by
  fun_induction joinLevels xs ys with
  | case1 ys => simp
  | case2 xs _ => simp
  | case3 x xs y ys ih =>
    simp only [List.flatten_cons, List.append_assoc]
    refine List.Perm.append_left x ((ih.append_left y).trans ?_)
    simpa using List.perm_append_comm_assoc y xs.flatten ys.flatten

/-- The levels that are listed are the levels of the forest. -/
lemma getD_byLevel (f : Forest α) (k : Nat) : f.byLevel[k]?.getD [] = f.level k := by
  induction f generalizing k with
  | nil => rfl
  | node a below next ihb ihn =>
    rw [byLevel, getD_joinLevels, ihn]
    cases k with
    | zero => simp [level]
    | succ k => simp [level, ihb]

/-- There are as many levels as the height counts. -/
lemma length_byLevel (f : Forest α) : f.byLevel.length = f.levels := by
  induction f with
  | nil => rfl
  | node a below next ihb ihn =>
    rw [byLevel, length_joinLevels, List.length_cons, ihb, ihn, levels]

/-- **Breadth-first means one level after the other.**

**Proof sketch.** Both lists of levels are compared level by level. -/
lemma breadthFirst_eq (f : Forest α) : f.breadthFirst = f.upper f.levels := by
  have hlevels : f.byLevel = (List.range f.levels).map f.level := by
    apply List.ext_getElem?
    intro k
    rw [List.getElem?_map, ← length_byLevel]
    by_cases hk : k < f.byLevel.length
    · rw [List.getElem?_range hk, Option.map_some, ← getD_byLevel, List.getElem?_eq_getElem hk]
      rfl
    · rw [List.getElem?_eq_none (by omega), List.getElem?_eq_none (by simpa using hk)]
      rfl
  rw [breadthFirst, hlevels, upper, List.flatMap]

/-- There is nothing on the level behind the last one. -/
lemma level_levels (f : Forest α) : f.level f.levels = [] := by
  rw [← getD_byLevel, ← length_byLevel, List.getElem?_eq_none le_rfl, Option.getD_none]

/-- **Breadth-first lists the same values as depth-first.** -/
lemma breadthFirst_perm_preOrder (f : Forest α) : f.breadthFirst.Perm f.preOrder := by
  induction f with
  | nil => exact .nil
  | node a below next ihb ihn =>
    rw [breadthFirst, byLevel, preOrder]
    refine (flatten_joinLevels_perm _ _).trans ?_
    rw [List.flatten_cons, List.singleton_append, List.cons_append]
    exact (ihb.append ihn).cons a

/-- A level lists its values in pre-order. -/
lemma level_sublist_preOrder (f : Forest α) (k : Nat) : (f.level k).Sublist f.preOrder := by
  induction f generalizing k with
  | nil => exact .slnil
  | node a below next ihb ihn =>
    rw [preOrder]
    cases k with
    | zero => exact ((ihn 0).trans (List.sublist_append_right _ _)).cons_cons a
    | succ k => exact ((ihb k).append (ihn (k + 1))).cons a

/-- A node on a level of a forest has an entry that tells how deep it is.

**Proof sketch.** Induction on the forest.  On level zero there are the first root and the roots of
the rest.  On a deeper level there are nodes of the forest below, where the level is one less and
the depth one more, and nodes of the rest. -/
lemma exists_entry_of_mem_level {f : Forest Node} {k : Nat} {n : Node} (h : n ∈ f.level k)
    (parent : Option NodeId) (depth position pre : Nat) :
    ∃ e ∈ f.entries parent depth position pre, e.node = n ∧ e.depth = depth + k := by
  induction f generalizing k parent depth position pre with
  | nil => cases h
  | node m below next ihb ihn =>
    simp only [entries, List.mem_append, List.mem_cons]
    cases k with
    | zero =>
      rcases List.mem_cons.1 h with rfl | h
      · exact ⟨_, .inr (.inl rfl), rfl, rfl⟩
      · obtain ⟨e, he, hn, hd⟩ := ihn h parent depth (position + 1) (pre + (below.size + 1))
        exact ⟨e, .inr (.inr he), hn, hd⟩
    | succ k =>
      rcases List.mem_append.1 h with h | h
      · obtain ⟨e, he, hn, hd⟩ := ihb h (some m.id) (depth + 1) 0 (pre + 1)
        exact ⟨e, .inl he, hn, by omega⟩
      · obtain ⟨e, he, hn, hd⟩ := ihn h parent depth (position + 1) (pre + (below.size + 1))
        exact ⟨e, .inr (.inr he), hn, hd⟩

end Forest

/-! ### Tours -/

/-- The nodes that a tour has visited so far, and the nodes that wait for their visit. -/
structure Tour where
  visited : List NodeId
  waiting : List NodeId

namespace Tour

/-- The children wait behind all others. -/
def queued (waiting children : List NodeId) : List NodeId := waiting ++ children

/-- The children wait in front of all others, the last one first. -/
def stacked (waiting children : List NodeId) : List NodeId := children.reverse ++ waiting

/-- Visits the first node that waits and lets its children wait; there is no next step if no node
waits. -/
def next? (t : Tree) (join : List NodeId → List NodeId → List NodeId) : Tour → Option Tour
  | ⟨_, []⟩ => none
  | ⟨visited, id :: waiting⟩ => some ⟨visited ++ [id], join waiting (t.children id)⟩

/-- The tour after a number of steps, if there are so many. -/
def after (t : Tree) (join : List NodeId → List NodeId → List NodeId) : Nat → Tour → Option Tour
  | 0, tour => some tour
  | steps + 1, tour => (tour.next? t join).bind (after t join steps)

/-- The tour begins at the root. -/
def start (t : Tree) : Tour := ⟨[], [t.root]⟩

variable {t : Tree} {join : List NodeId → List NodeId → List NodeId}

/-- Steps can be made one part after the other. -/
lemma after_add (m n : Nat) (tour : Tour) :
    tour.after t join (m + n) = (tour.after t join m).bind (after t join n) := by
  induction m generalizing tour with
  | zero => rw [Nat.zero_add, after, Option.bind_some]
  | succ m ih =>
    rw [Nat.succ_add, after, after, Option.bind_assoc]
    exact congrArg _ (funext ih)

/-- **With a queue, all waiting nodes are visited before their children are**, and the children are
waiting afterwards. -/
lemma after_queue (visited level waiting : List NodeId) :
    after t queued level.length ⟨visited, level ++ waiting⟩ =
      some ⟨visited ++ level, waiting ++ level.flatMap t.children⟩ := by
  induction level generalizing visited waiting with
  | nil => simp [after]
  | cons id level ih =>
    rw [List.length_cons, after, List.cons_append, next?, Option.bind_some, queued,
      List.append_assoc, ih]
    simp

end Tour

/-! ### What a tour knows of a tree -/

/-- The tree has the children of all nodes of the forest right. -/
def Tree.Knows (t : Tree) (f : Forest Node) : Prop :=
  ∀ r ∈ f.subtrees, t.children r.root.id = r.below.roots.map Node.id

namespace Tree

variable {t : Tree} {f : Forest Node}

/-- A tree has the children of a forest right if it has those of its first root right, of what is
below it and of the rest. -/
lemma knows_node {n : Node} {below next : Forest Node} :
    t.Knows (.node n below next) ↔
      t.children n.id = below.roots.map Node.id ∧ t.Knows below ∧ t.Knows next := by
  simp only [Knows, Forest.subtrees, List.forall_mem_cons, List.forall_mem_append]

variable (t) in
/-- A tree knows itself. -/
lemma knows_shape : t.Knows t.shape.toForest := by
  intro r hr
  rw [← t.subtree_root] at hr
  obtain ⟨-, hsubtree⟩ := subtree_of_mem_subtrees root_mem_preOrder hr
  exact congrArg (fun s : Rooted Node => s.below.roots.map Node.id) hsubtree

/-- **The children of a level are the next level.**

**Proof sketch.** Induction on the forest.  On level zero the children of the first root come first,
and these are the roots of the forest below it. -/
lemma Knows.flatMap_children_level (h : t.Knows f) (k : Nat) :
    ((f.level k).map Node.id).flatMap t.children = (f.level (k + 1)).map Node.id := by
  induction f generalizing k with
  | nil => rfl
  | node n below next ihb ihn =>
    obtain ⟨hn, hbelow, hnext⟩ := knows_node.1 h
    cases k with
    | zero =>
      rw [Forest.level, Forest.level, List.map_cons, List.flatMap_cons, ihn hnext, hn,
        Forest.level_zero, List.map_append]
    | succ k =>
      rw [Forest.level, Forest.level, List.map_append, List.flatMap_append, ihb hbelow,
        ihn hnext, List.map_append]

end Tree

namespace Tour

variable {t : Tree} {f : Forest Node}

/-- **After whole levels have been visited, the next level is waiting.**

**Proof sketch.** Induction on the number of levels.  When a level is waiting, and nothing else, the
tour visits the level; then its children are waiting, and these are the next level. -/
theorem after_levels (hf : t.Knows f) (k : Nat) :
    after t queued (f.upper k).length ⟨[], f.roots.map Node.id⟩ =
      some ⟨(f.upper k).map Node.id, (f.level k).map Node.id⟩ := by
  induction k with
  | zero =>
    rw [Forest.level_zero]
    rfl
  | succ k ih =>
    have hlevel := after_queue (t := t) ((f.upper k).map Node.id) ((f.level k).map Node.id) []
    rw [List.append_nil, List.nil_append, hf.flatMap_children_level, List.length_map] at hlevel
    rw [Forest.upper_succ, List.length_append, after_add, ih, Option.bind_some, hlevel,
      List.map_append]

/-- **With a stack, a forest is visited in post-order, backwards.**

**Proof sketch.** Induction on the forest.  The last tree is on top of the stack.  When the right
siblings of the first root have been visited, the root is on top, and after its visit the forest
below it. -/
theorem after_stack (hf : t.Knows f) (visited waiting : List NodeId) :
    after t stacked f.size ⟨visited, (f.roots.map Node.id).reverse ++ waiting⟩ =
      some ⟨visited ++ (f.postOrder.map Node.id).reverse, waiting⟩ := by
  induction f generalizing visited waiting with
  | nil => simp [after, Forest.size, Forest.roots, Forest.postOrder]
  | node n below next ihb ihn =>
    obtain ⟨hn, hbelow, hnext⟩ := Tree.knows_node.1 hf
    have hroots : ((Forest.node n below next).roots.map Node.id).reverse ++ waiting =
        (next.roots.map Node.id).reverse ++ n.id :: waiting := by
      simp [Forest.roots]
    have horder : ((Forest.node n below next).postOrder.map Node.id).reverse =
        (next.postOrder.map Node.id).reverse ++ n.id :: (below.postOrder.map Node.id).reverse := by
      simp [Forest.postOrder]
    rw [Forest.size, Nat.add_comm, after_add, hroots, ihn hnext, Option.bind_some, Nat.add_comm,
      after_add, after, next?, Option.bind_some, after, Option.bind_some, stacked, hn, ihb hbelow,
      horder]
    simp

end Tour

/-! ### The two tours of a tree -/

namespace Tree

variable (t : Tree)

/-- Breadth-first lists the same nodes as depth-first. -/
lemma breadthFirst_perm_preOrder : t.breadthFirst.Perm t.preOrder := by
  rw [breadthFirst, preOrder_eq, ← Rooted.preOrder_toForest]
  exact (Forest.breadthFirst_perm_preOrder _).map _

/-- A tour with a queue visits all nodes breadth-first, and then no node waits. -/
lemma after_count_queued :
    (Tour.start t).after t Tour.queued t.count = some ⟨t.breadthFirst, []⟩ := by
  have htour := Tour.after_levels t.knows_shape t.shape.toForest.levels
  rwa [← Forest.breadthFirst_eq, (Forest.breadthFirst_perm_preOrder _).length_eq,
    Forest.length_preOrder, t.size_toForest, Forest.level_levels] at htour

/-- A tour with a stack visits all nodes in post-order, backwards, and then no node waits. -/
lemma after_count_stacked :
    (Tour.start t).after t Tour.stacked t.count = some ⟨t.postOrder.reverse, []⟩ := by
  have htour := Tour.after_stack t.knows_shape [] []
  rwa [t.size_toForest, List.append_nil, List.nil_append, ← t.postOrder_eq] at htour

variable {t} in
/-- A node on a level is as deep as the level. -/
lemma depth_of_mem_level {k : Nat} {id : NodeId}
    (h : id ∈ (t.shape.toForest.level k).map Node.id) : t.depth id = k := by
  obtain ⟨n, hn, rfl⟩ := List.mem_map.1 h
  obtain ⟨e, he, rfl, hdepth⟩ := Forest.exists_entry_of_mem_level hn none 0 0 0
  rw [depth, entry_of_mem_entries (t := t) he, hdepth, Nat.zero_add]

/-- **Breadth-first lists the nodes by their depths, and those of one depth by their pre-order
indices.**

**Proof sketch.** Nodes of one level keep the order of pre-order, and nodes of different levels have
different depths. -/
lemma pairwise_breadthFirst :
    t.breadthFirst.Pairwise fun a b =>
      t.depth a < t.depth b ∨ t.depth a = t.depth b ∧ t.preIndex a < t.preIndex b := by
  rw [breadthFirst, Forest.breadthFirst_eq, Forest.upper, List.map_flatMap, List.pairwise_flatMap]
  constructor
  · -- nodes of one level keep their order
    intro k _
    have hsublist : ((t.shape.toForest.level k).map Node.id).Sublist t.preOrder := by
      rw [preOrder_eq, ← Rooted.preOrder_toForest]
      exact (Forest.level_sublist_preOrder _ k).map _
    refine (t.pairwise_preOrder.sublist hsublist).imp_of_mem fun ha hb hlt => .inr ⟨?_, hlt⟩
    rw [depth_of_mem_level ha, depth_of_mem_level hb]
  · -- nodes of different levels have different depths
    refine List.pairwise_lt_range.imp fun {k l} hkl a ha b hb => .inl ?_
    rwa [depth_of_mem_level ha, depth_of_mem_level hb]

end Tree

/-- **Breadth-first, every node is visited once, by depth and then by pre-order index.**  The tour
that begins at the root and lets children wait in a queue takes as many steps as there are nodes,
and then no node waits any more.  It has visited every node exactly once, upper levels first and
each level in the order of the pre-order indices. -/
theorem breadth_first_tour_visits_nodes_by_depth (t : Tree) :
    (Tour.start t).after t Tour.queued t.count = some ⟨t.breadthFirst, []⟩ ∧
      (t.breadthFirst.Nodup ∧ ∀ id, id ∈ t.breadthFirst ↔ id ∈ t.preOrder) ∧
      t.breadthFirst.Pairwise fun a b =>
        t.depth a < t.depth b ∨ t.depth a = t.depth b ∧ t.preIndex a < t.preIndex b := by
  have hperm := t.breadthFirst_perm_preOrder
  exact ⟨t.after_count_queued, ⟨hperm.nodup_iff.2 Tree.nodup_preOrder, fun _ => hperm.mem_iff⟩,
    t.pairwise_breadthFirst⟩

end TreeMatching
