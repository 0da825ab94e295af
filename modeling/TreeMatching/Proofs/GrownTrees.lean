import TreeMatching.Draft
import TreeMatching.Proofs.TreeTables

set_option autoImplicit false

/-!
# Grown trees and their measures

A draft grows by one child at a time, in any order, so the numbers of its nodes need not follow any
traversal.  This module says which children the nodes have in the end, and that everything the
tables of the finished tree hold is what a plain recursion over the children gives.

## Main definitions

* `Draft.addAll` — a draft after further calls; calls that are refused change nothing.
* `Draft.links` — the parents and numbers of the nodes that a list of calls adds.
* `Forest.trees`, `Forest.childrenOf` — the trees of a forest, and the children of a node in it.
* `Tree.walk` — a depth-first walk along the children.
* `Tree.Measured` — the tables hold what the children and the parent of a node demand.

## Main results

* `Forest.childrenOf_addLast?` — adding a node changes the children of its parent only.
* `Draft.children_addAll` — the children of a node are those added to it, in order.
* `Tree.map_subtree_children` — the trees below a node are the subtrees at its children.
* `Tree.walk_eq` — a walk along the children is a recursion on the subtree.
* `Tree.measured` — the measures of any tree satisfy their recursive equations.
* `measures_of_grown_trees_follow_children` — the results together, for grown trees.

## Design

The calls are read twice: by `Draft.addAll`, which grows the tree, and by `Draft.links`, which knows
nothing of trees and only counts the nodes so far.  All measures are then compared with the links.
-/

namespace TreeMatching

/-! ### The trees of a forest -/

namespace Forest

section

variable {α : Type}

/-- The trees of a forest, left to right. -/
def trees : Forest α → List (Rooted α)
  | .nil => []
  | .node a below next => ⟨a, below⟩ :: next.trees

/-- The roots of a forest are those of its trees. -/
lemma map_root_trees (f : Forest α) : f.trees.map Rooted.root = f.roots := by
  induction f with
  | nil => rfl
  | node a below next _ ihn => simp [trees, roots, ihn]

/-- The trees of a forest are subtrees of it. -/
lemma trees_subset_subtrees (f : Forest α) : f.trees ⊆ f.subtrees := by
  induction f with
  | nil => exact List.nil_subset _
  | node a below next _ ihn =>
    exact List.cons_subset_cons _ (List.subset_append_of_subset_right _ ihn)

/-- A forest is as large as its trees together. -/
lemma size_eq_sum (f : Forest α) : f.size = (f.trees.map Rooted.size).sum := by
  induction f with
  | nil => rfl
  | node a below next _ ihn => simp [trees, size, Rooted.size, ihn]

/-- A forest is as high as the highest of its trees. -/
lemma levels_eq_foldr (f : Forest α) :
    f.levels = (f.trees.map fun r => r.below.levels + 1).foldr max 0 := by
  induction f with
  | nil => rfl
  | node a below next _ ihn => simp [trees, levels, ihn]

/-- The leaves of a forest are those of its trees; a tree of one node is a leaf itself. -/
lemma leaves_eq_sum (f : Forest α) :
    f.leaves = (f.trees.map fun r => if r.below.isEmpty then 1 else r.below.leaves).sum := by
  induction f with
  | nil => rfl
  | node a below next _ ihn => simp [trees, leaves, ihn]

/-- The pre-order of a forest is made up of those of its trees. -/
lemma preOrder_eq_flatMap (f : Forest α) : f.preOrder = f.trees.flatMap Rooted.preOrder := by
  induction f with
  | nil => rfl
  | node a below next _ ihn => simp [trees, preOrder, Rooted.preOrder, ihn]

/-- The post-order of a forest is made up of those of its trees. -/
lemma postOrder_eq_flatMap (f : Forest α) :
    f.postOrder = f.trees.flatMap fun r => r.toForest.postOrder := by
  induction f with
  | nil => rfl
  | node a below next _ ihn => simp [trees, postOrder, Rooted.toForest, ihn]

/-- There are fewer levels below a root than in the forest. -/
lemma levels_lt_of_mem_trees {f : Forest α} {r : Rooted α} (hr : r ∈ f.trees) :
    r.below.levels < f.levels := by
  induction f with
  | nil => cases hr
  | node a below next _ ihn =>
    rw [levels]
    rcases List.mem_cons.1 hr with rfl | hr
    · exact Nat.lt_of_lt_of_le (Nat.lt_succ_self _) (Nat.le_max_left _ _)
    · have := ihn hr
      omega

/-- There is a node on every level. -/
lemma levels_le_size (f : Forest α) : f.levels ≤ f.size := by
  induction f with
  | nil => exact le_rfl
  | node a below next ihb ihn =>
    simp only [levels, size]
    omega

end

/-! ### Children in a growing forest -/

/-- The numbers of the nodes, in pre-order. -/
def ids (f : Forest Node) : List NodeId := f.preOrder.map Node.id

/-- The children of the node with a number. -/
def childrenOf (id : NodeId) : Forest Node → List NodeId
  | .nil => []
  | .node n below next =>
    (if n.id = id then below.roots.map Node.id else []) ++
      (below.childrenOf id ++ next.childrenOf id)

variable {f g : Forest Node} {n new : Node} {below next : Forest Node} {id q : NodeId}

/-- A number belongs to a forest if it is that of the first root, or belongs to what is below it or
to the rest. -/
lemma mem_ids_node :
    id ∈ (node n below next).ids ↔ id = n.id ∨ id ∈ below.ids ∨ id ∈ next.ids := by
  simp [ids, preOrder]

/-- The numbers of a forest are distinct if they are distinct in its parts and the parts have none
in common. -/
lemma nodup_ids_node :
    (node n below next).ids.Nodup ↔
      (n.id ∉ below.ids ∧ n.id ∉ next.ids) ∧
        below.ids.Nodup ∧ next.ids.Nodup ∧ below.ids.Disjoint next.ids := by
  simp only [ids, preOrder, List.map_cons, List.map_append, List.nodup_cons, List.mem_append,
    not_or, List.nodup_append']

/-- The numbers of entries belong to the forest. -/
lemma id_mem_ids_of_mem_entries {parent : Option NodeId} {depth position pre : Nat} {e : Entry}
    (he : e ∈ f.entries parent depth position pre) : e.node.id ∈ f.ids :=
  List.mem_map_of_mem (List.mem_of_getElem? (getElem?_preOrder_of_mem_entries he))

/-- A number that does not occur has no children. -/
lemma childrenOf_of_notMem (h : id ∉ f.ids) : f.childrenOf id = [] := by
  induction f with
  | nil => rfl
  | node n below next ihb ihn =>
    rw [mem_ids_node, not_or, not_or] at h
    rw [childrenOf, if_neg (Ne.symm h.1), ihb h.2.1, ihn h.2.2]
    rfl

/-- The entry of a node knows its children.

**Proof sketch.** Induction on the forest, with three cases for the entry: it belongs to a node
below the first root, to the first root, or to a node of the rest.  The numbers are distinct, so
only this part of the forest contributes children. -/
lemma childrenOf_of_mem_entries {parent : Option NodeId} {depth position pre : Nat} {e : Entry}
    (hd : f.ids.Nodup) (he : e ∈ f.entries parent depth position pre) :
    f.childrenOf e.node.id = e.below.roots.map Node.id := by
  induction f generalizing parent depth position pre with
  | nil => simp [entries] at he
  | node n below next ihb ihn =>
    obtain ⟨⟨hbelow, hnext⟩, hdb, hdn, hapart⟩ := nodup_ids_node.1 hd
    simp only [entries, List.mem_append, List.mem_cons] at he
    rw [childrenOf]
    -- ids are distinct, so two of the three parts have no children for this one
    rcases he with he | rfl | he
    · have hid := id_mem_ids_of_mem_entries he
      have hne : n.id ≠ e.node.id := fun h => hbelow (h ▸ hid)
      rw [if_neg hne, childrenOf_of_notMem (hapart hid), ihb hdb he, List.nil_append,
        List.append_nil]
    · rw [rootEntry, if_pos rfl, childrenOf_of_notMem hbelow, childrenOf_of_notMem hnext]
      simp
    · have hid := id_mem_ids_of_mem_entries he
      have hne : n.id ≠ e.node.id := fun h => hnext (h ▸ hid)
      rw [if_neg hne, childrenOf_of_notMem (fun h => hapart h hid), ihn hdn he, List.nil_append,
        List.nil_append]

/-- The roots of two forests in a row. -/
lemma roots_append (f g : Forest Node) : (f.append g).roots = f.roots ++ g.roots := by
  induction f with
  | nil => rfl
  | node n below next _ ihn => simp [append, roots, ihn]

/-- The children of a node in two forests in a row: only one of them has the node, if numbers are
not repeated. -/
lemma childrenOf_append (id : NodeId) (f g : Forest Node) :
    (f.append g).childrenOf id = f.childrenOf id ++ g.childrenOf id := by
  induction f with
  | nil => rfl
  | node n below next _ ihn => simp [append, childrenOf, ihn]

/-- A node can be added under every node of the forest, and under nothing else. -/
lemma addLast?_isSome_iff : (f.addLast? q new).isSome = true ↔ q ∈ f.ids := by
  induction f with
  | nil => simp [addLast?, ids, preOrder]
  | node n below next ihb ihn =>
    rw [mem_ids_node, ← ihb, ← ihn, addLast?]
    split
    · next hn => simp [hn]
    · next hn =>
      have hne : q ≠ n.id := Ne.symm hn
      cases below.addLast? q new with
      | none => simp [hne]
      | some grown => simp

/-- Adding a node leaves the roots alone. -/
lemma roots_addLast? (h : f.addLast? q new = some g) : g.roots = f.roots := by
  induction f generalizing g with
  | nil => simp [addLast?] at h
  | node n below next _ ihn =>
    rw [addLast?] at h
    split at h
    · cases h
      rfl
    · split at h
      · cases h
        rfl
      · obtain ⟨next', hn, rfl⟩ := Option.map_eq_some_iff.1 h
        rw [roots, roots, ihn hn]

/-- **Adding a node changes the children of its parent only.**

**Proof sketch.** Induction on the forest.  At the parent the new number comes behind the children
it has, and no other part of the forest has children for it.  Above the parent the roots stay what
they are, so what the nodes there have as children stays. -/
lemma childrenOf_addLast? (hd : f.ids.Nodup) (h : f.addLast? q new = some g) :
    g.childrenOf id = f.childrenOf id ++ if id = q then [new.id] else [] := by
  induction f generalizing g with
  | nil => simp [addLast?] at h
  | node n below next ihb ihn =>
    obtain ⟨⟨hbelow, hnext⟩, hdb, hdn, hapart⟩ := nodup_ids_node.1 hd
    rw [addLast?] at h
    split at h
    · next hn =>
      cases h
      subst hn
      simp only [childrenOf, roots_append, childrenOf_append, leaf, roots]
      by_cases hid : id = n.id
      · subst hid
        simp [childrenOf_of_notMem hbelow, childrenOf_of_notMem hnext]
      · simp [hid, Ne.symm hid]
    · next hn =>
      split at h
      · next below' hb =>
        cases h
        have hq : q ∈ below.ids := addLast?_isSome_iff.1 (by rw [hb]; rfl)
        rw [childrenOf, childrenOf, ihb hdb hb, roots_addLast? hb]
        by_cases hid : id = q
        · subst hid
          simp [childrenOf_of_notMem (hapart hq)]
        · simp [hid]
      · obtain ⟨next', hnext', rfl⟩ := Option.map_eq_some_iff.1 h
        rw [childrenOf, childrenOf, ihn hdn hnext']
        simp

end Forest

/-- Adding a child to a tree adds it to the tree as a forest. -/
lemma Rooted.addLast?_toForest (q : NodeId) (new : Node) (r : Rooted Node) :
    r.toForest.addLast? q new = (r.addLast? q new).map Rooted.toForest := by
  simp only [Rooted.toForest, Forest.addLast?, Rooted.addLast?]
  split
  · rfl
  · cases r.below.addLast? q new <;> rfl

/-! ### Children in a growing draft -/

namespace Draft

/-- The draft after a call that adds a child of a given kind and label under a parent; a call that
is refused changes nothing. -/
def afterCall (d : Draft) (row : NodeId × Kind × String) : Draft :=
  match d.addChild row.1 row.2.1 row.2.2 with
  | .ok (_, grown) => grown
  | .error _ => d

/-- The draft after some calls, one after the other. -/
def addAll (d : Draft) (rows : List (NodeId × Kind × String)) : Draft := rows.foldl afterCall d

/-- The links that calls add when there are `count` nodes before them: a parent that is there gets
the next number as its child. -/
def links (count : Nat) : List (NodeId × Kind × String) → List (NodeId × NodeId)
  | [] => []
  | row :: rows =>
    if 1 ≤ row.1 ∧ row.1 ≤ count then (row.1, count + 1) :: links (count + 1) rows
    else links count rows

end Draft

namespace Tree

variable (t : Tree)

/-- The numbers of the shape, in order, are the nodes in pre-order. -/
lemma ids_shape : t.shape.toForest.ids = t.preOrder := by
  rw [Forest.ids, Rooted.preOrder_toForest, preOrder_eq]

/-- The tabulated children are those that the shape has. -/
lemma children_eq_childrenOf (id : NodeId) : t.children id = t.shape.toForest.childrenOf id := by
  by_cases hid : id ∈ t.preOrder
  · obtain ⟨he, hn⟩ := entry_mem_of_mem_preOrder hid
    have hd : t.shape.toForest.ids.Nodup := by
      rw [ids_shape]
      exact nodup_preOrder
    rw [children, ← Forest.childrenOf_of_mem_entries hd he, hn]
  · rw [children, entry_of_notMem hid, Forest.childrenOf_of_notMem (by rwa [ids_shape])]
    rfl

end Tree

namespace Draft

variable (d : Draft) (row : NodeId × Kind × String)

/-- A call adds a node with the next number, or it is refused. -/
lemma addChild_cases (q : NodeId) (kind : Kind) (label : String) :
    (∃ grown, d.addChild q kind label = .ok (d.shape.size + 1, grown) ∧
      d.shape.addLast? q ⟨d.shape.size + 1, kind, label⟩ = some grown.shape) ∨
    (d.addChild q kind label = .error (.foreignNode q) ∧
      d.shape.addLast? q ⟨d.shape.size + 1, kind, label⟩ = none) := by
  simp only [addChild]
  split
  · next hnone => exact .inr ⟨rfl, hnone⟩
  · next shape hsome => exact .inl ⟨_, rfl, hsome⟩

/-- What a call does: under a node of the draft it adds the next number as last child, and elsewhere
it does nothing.

**Proof sketch.** A child is added exactly if the number is one of the forest.  In this case the
forest has one node more, and the lemma on adding a last child says how the lists of children
change. -/
lemma afterCall_cases :
    (row.1 ∈ d.build.preOrder ∧ (d.afterCall row).shape.size = d.shape.size + 1 ∧
      ∀ id, (d.afterCall row).build.children id =
        d.build.children id ++ if id = row.1 then [d.shape.size + 1] else []) ∨
    (row.1 ∉ d.build.preOrder ∧ d.afterCall row = d) := by
  have hids : d.shape.toForest.ids = d.build.preOrder := d.build.ids_shape
  have hforest := Rooted.addLast?_toForest row.1 ⟨d.shape.size + 1, row.2.1, row.2.2⟩ d.shape
  rw [← hids, ← Forest.addLast?_isSome_iff, hforest, Option.isSome_map]
  rcases d.addChild_cases row.1 row.2.1 row.2.2 with ⟨grown, hcall, hadd⟩ | ⟨hcall, hadd⟩
  · rw [hadd, Option.map_some] at hforest
    rw [hadd, afterCall, hcall]
    refine .inl ⟨rfl, ?_, fun id => ?_⟩
    · have hlength := (Rooted.addLast?_perm hadd).2.length_eq
      simpa using hlength
    · rw [Tree.children_eq_childrenOf, Tree.children_eq_childrenOf]
      refine Forest.childrenOf_addLast? ?_ hforest
      rw [hids]
      exact Tree.nodup_preOrder
  · rw [hadd, afterCall, hcall]
    exact .inr ⟨Bool.false_ne_true, rfl⟩

/-- **The nodes of a draft have the children that were added to them, in this order.**

**Proof sketch.** Induction on the calls.  By `afterCall_cases` a call adds the next number to the
children of one node, and one entry to the links, or neither. -/
theorem children_addAll (rows : List (NodeId × Kind × String)) :
    (d.addAll rows).shape.size = d.shape.size + (links d.shape.size rows).length ∧
      ∀ id, (d.addAll rows).build.children id =
        d.build.children id ++ ((links d.shape.size rows).filter (·.1 == id)).map Prod.snd := by
  induction rows generalizing d with
  | nil => simp [addAll, links]
  | cons row rows ih =>
    have hmem : row.1 ∈ d.build.preOrder ↔ 1 ≤ row.1 ∧ row.1 ≤ d.shape.size :=
      Tree.mem_preOrder_iff
    obtain ⟨hsize, hchildren⟩ := ih (d.afterCall row)
    rw [addAll, List.foldl_cons, links, ← addAll]
    rcases d.afterCall_cases row with ⟨hrow, hsize', hchildren'⟩ | ⟨hrow, hsame⟩
    · -- the call succeeds and uses up the next number
      rw [if_pos (hmem.1 hrow)]
      rw [hsize'] at hsize hchildren
      refine ⟨by rw [hsize, List.length_cons]; omega, fun id => ?_⟩
      rw [hchildren, hchildren', List.filter_cons]
      by_cases hid : id = row.1
      · subst hid
        simp
      · simp [hid, Ne.symm hid]
    · rw [if_neg (fun h => hrow (hmem.2 h))]
      rw [hsame] at hsize hchildren ⊢
      exact ⟨hsize, hchildren⟩

end Draft

/-! ### Measures -/

namespace Tree

variable {t : Tree} {id : NodeId}

/-- A node is measured by the subtree at it. -/
lemma measures_eq (h : id ∈ t.preOrder) :
    t.size id = (t.subtree id).size ∧ t.height id = (t.subtree id).below.levels ∧
      t.leafCount id = (t.subtree id).below.leaves ∧
      t.postIndex id = t.preIndex id + t.size id - 1 - t.depth id := by
  have hentry := Forest.eq_rootEntry_of_mem (entry_mem_of_mem_preOrder h).1
  have hsize : t.size id = (t.subtree id).size := congrArg Entry.size hentry
  refine ⟨hsize, congrArg Entry.height hentry, congrArg Entry.leaves hentry, ?_⟩
  rw [hsize]
  exact congrArg Entry.post hentry

/-- **The trees below a node are the subtrees at its children.** -/
lemma map_subtree_children (h : id ∈ t.preOrder) :
    (t.children id).map t.subtree = (t.subtree id).below.trees := by
  have hchildren : t.children id = (t.subtree id).below.trees.map fun r => r.root.id := by
    rw [children, ← Forest.map_root_trees, List.map_map]
    rfl
  rw [hchildren, List.map_map]
  refine (List.map_congr_left fun r hr => ?_).trans (List.map_id _)
  refine (subtree_of_mem_subtrees h (List.mem_cons_of_mem _ ?_)).2
  exact List.mem_append_left _ (Forest.trees_subset_subtrees _ hr)

/-- A fact about children that can be read off their subtrees. -/
lemma map_children_eq {β : Type} {value : NodeId → β} {measure : Rooted Node → β}
    (h : id ∈ t.preOrder) (hvalue : ∀ c ∈ t.children id, value c = measure (t.subtree c)) :
    (t.children id).map value = (t.subtree id).below.trees.map measure := by
  rw [← map_subtree_children h, List.map_map]
  exact List.map_congr_left hvalue

/-- A node has no children exactly when nothing lies below it. -/
lemma children_eq_nil_iff : t.children id = [] ↔ (t.subtree id).below.isEmpty = true := by
  rw [children, List.map_eq_nil_iff]
  change (t.subtree id).below.roots = [] ↔ _
  cases (t.subtree id).below <;> simp [Forest.roots, Forest.isEmpty]

/-- Goes through the subtree at a node along the children, at most `levels` levels deep; `visit`
puts a node together with what is found below it. -/
def walk (t : Tree) (visit : NodeId → List NodeId → List NodeId) : Nat → NodeId → List NodeId
  | 0, _ => []
  | levels + 1, id => visit id ((t.children id).flatMap (t.walk visit levels))

/-- **A walk along the children is a recursion on the subtree**, if it may go deep enough.

**Proof sketch.** Induction on the levels that are left.  The subtrees of the children are the trees
below the subtree of the node, and each of them has fewer levels. -/
lemma walk_eq {visit : NodeId → List NodeId → List NodeId} {order : Rooted Node → List NodeId}
    (horder : ∀ r, order r = visit r.root.id (r.below.trees.flatMap order)) {levels : Nat}
    (h : id ∈ t.preOrder) (hlevels : (t.subtree id).below.levels < levels) :
    t.walk visit levels id = order (t.subtree id) := by
  induction levels generalizing id with
  | zero => omega
  | succ levels ih =>
    have hchildren : (t.children id).map (t.walk visit levels) =
        (t.subtree id).below.trees.map order := by
      refine map_children_eq h fun c hc => ih (mem_preOrder_of_mem_children hc) ?_
      have htree : t.subtree c ∈ (t.subtree id).below.trees := by
        rw [← map_subtree_children h]
        exact List.mem_map_of_mem hc
      have := Forest.levels_lt_of_mem_trees htree
      omega
    rw [walk, horder, List.flatMap_def, hchildren, ← List.flatMap_def]
    exact congrArg (visit · _) (entry_mem_of_mem_preOrder h).2.symm

variable (t) in
/-- The whole tree has fewer levels below its root than nodes. -/
lemma levels_root_lt_count : (t.subtree t.root).below.levels < t.count := by
  rw [subtree_root]
  exact Nat.lt_succ_of_le (Forest.levels_le_size _)

variable (t) in
/-- The tabulated pre-order is that of a walk along the children. -/
lemma preOrder_eq_walk : t.preOrder = t.walk (fun id below => id :: below) t.count t.root := by
  have horder (r : Rooted Node) : r.preOrder.map Node.id =
      r.root.id :: r.below.trees.flatMap fun r => r.preOrder.map Node.id := by
    rw [Rooted.preOrder, List.map_cons, Forest.preOrder_eq_flatMap, List.map_flatMap]
  rw [walk_eq horder root_mem_preOrder t.levels_root_lt_count, subtree_root, preOrder_eq]

variable (t) in
/-- The tabulated post-order is that of a walk along the children. -/
lemma postOrder_eq_walk : t.postOrder = t.walk (fun id below => below ++ [id]) t.count t.root := by
  have horder (r : Rooted Node) : r.toForest.postOrder.map Node.id =
      (r.below.trees.flatMap fun r => r.toForest.postOrder.map Node.id) ++ [r.root.id] := by
    rw [Rooted.toForest, Forest.postOrder, List.map_append, Forest.postOrder_eq_flatMap,
      List.map_flatMap]
    rfl
  rw [walk_eq horder root_mem_preOrder t.levels_root_lt_count, subtree_root, postOrder_eq]

/-- What the tables hold about a node is what its children and its parent demand. -/
structure Measured (t : Tree) (id : NodeId) : Prop where
  /-- The size counts the node and what the children count. -/
  size : t.size id = ((t.children id).map t.size).sum + 1
  /-- Leaves are recognised by their size. -/
  size_eq_one_iff : t.size id = 1 ↔ t.children id = []
  /-- The height is one more than that of the highest child. -/
  height : t.height id = ((t.children id).map fun c => t.height c + 1).foldr max 0
  /-- The leaves strictly below a node are its children that are leaves and the leaves below the
  others. -/
  leafCount : t.leafCount id =
    ((t.children id).map fun c => if t.children c = [] then 1 else t.leafCount c).sum
  /-- The depth counts the steps up. -/
  depth : t.depth id = (t.parent? id).elim 0 fun q => t.depth q + 1
  /-- A node is the child of its parent at its position. -/
  position : ∀ q, t.parent? id = some q → t.child? q (t.position id) = some id
  /-- The root has no siblings. -/
  position_root : t.parent? id = none → t.position id = 0
  /-- The pre-order index is the place in pre-order. -/
  preIndex : t.preOrder[t.preIndex id]? = some id
  /-- The formula for the post-order index subtracts no more than there is. -/
  depth_lt : t.depth id + 1 ≤ t.preIndex id + t.size id
  /-- The post-order index is given by a formula. -/
  postIndex : t.postIndex id = t.preIndex id + t.size id - 1 - t.depth id
  /-- The post-order index is the place in post-order. -/
  postOrder : t.postOrder[t.postIndex id]? = some id

/-- A node without a parent is the first node of the uppermost level. -/
lemma place_of_parent?_eq_none (h : id ∈ t.preOrder) (hp : t.parent? id = none) :
    t.depth id = 0 ∧ t.position id = 0 := by
  rcases Forest.parent_of_mem_entries (entry_mem_of_mem_preOrder h).1 with
    ⟨-, hdepth, k, hposition, hroot⟩ | ⟨u, -, hparent, -⟩
  · have hk : k < 1 := (List.getElem?_eq_some_iff.1 hroot).1
    refine ⟨hdepth, ?_⟩
    rw [position, hposition]
    omega
  · rw [parent?, hparent] at hp
    cases hp

/-- The depth of a node is one more than that of its parent. -/
lemma depth_eq (h : id ∈ t.preOrder) :
    t.depth id = (t.parent? id).elim 0 fun q => t.depth q + 1 := by
  cases hp : t.parent? id with
  | none => exact (place_of_parent?_eq_none h hp).1
  | some q => exact (place_of_parent? hp).1

/-- No node is deeper than its place in pre-order: everything above it comes before it. -/
lemma depth_le_preIndex (h : id ∈ t.preOrder) : t.depth id ≤ t.preIndex id := by
  induction hdepth : t.depth id generalizing id with
  | zero => exact Nat.zero_le _
  | succ depth ih =>
    rw [depth_eq h] at hdepth
    cases hp : t.parent? id with
    | none => simp [hp] at hdepth
    | some q =>
      have hq := ih (mem_preOrder_of_parent? hp) (by simpa [hp] using hdepth)
      have := (place_of_parent? hp).2.1
      omega

/-- **The tables of a tree satisfy the recursive equations of the measures.**

**Proof sketch.** The measures are those of the forest below the node, by `measures_eq`, and the
measures of a forest are sums or maxima over its roots, which are the children. -/
theorem measured (h : id ∈ t.preOrder) : t.Measured id := by
  have hchild {c : NodeId} (hc : c ∈ t.children id) := measures_eq (mem_preOrder_of_mem_children hc)
  obtain ⟨hsize, hheight, hleaves, hpost⟩ := measures_eq h
  have hpos : t.size id = (t.subtree id).below.size + 1 := hsize
  refine ⟨?_, ?_, ?_, ?_, depth_eq h, fun q hp => (place_of_parent? hp).2.2.2,
    fun hp => (place_of_parent?_eq_none h hp).2, getElem?_preOrder_preIndex h, ?_, hpost,
    getElem?_postOrder_postIndex h⟩
  · rw [hpos, Forest.size_eq_sum, map_children_eq h fun c hc => (hchild hc).1]
  · rw [children_eq_nil_iff, Forest.isEmpty_iff_size_eq_zero, hpos]
    omega
  · rw [hheight, Forest.levels_eq_foldr, ← map_children_eq h fun c hc => ?_]
    rw [(hchild hc).2.1]
  · rw [hleaves, Forest.leaves_eq_sum, ← map_children_eq h fun c hc => ?_]
    simp only [children_eq_nil_iff, (hchild hc).2.2.1]
  · have := depth_le_preIndex h
    omega

end Tree

/-- **The measures of a grown tree are what its links demand.**  Children may be added in any order.
The children of a node are those that were added to it; the two depth-first orders are those of
walks along the children, and every node occurs once in them; and for every node the tables hold
what the recursive equations of size, height, leaf count and depth demand, its position among the
children of its parent and its places in the two orders.

**Proof sketch.** By `Draft.children_addAll` the children are those that the calls have added; all
the rest holds for every tree. -/
theorem measures_of_grown_trees_follow_children (kind : Kind) (label : String)
    (rows : List (NodeId × Kind × String)) :
    let t := ((Draft.start kind label).addAll rows).build
    let links := Draft.links 1 rows
    (t.root = 1 ∧ t.count = links.length + 1 ∧
      (∀ q, t.children q = (links.filter (·.1 == q)).map Prod.snd) ∧
      ∀ id q, t.parent? id = some q ↔ id ∈ t.children q) ∧
    (t.preOrder = t.walk (fun id below => id :: below) t.count t.root ∧
      t.postOrder = t.walk (fun id below => below ++ [id]) t.count t.root ∧
      t.postOrder.Nodup ∧ ∀ id, id ∈ t.postOrder ↔ 1 ≤ id ∧ id ≤ t.count) ∧
    ∀ id ∈ t.preOrder, t.Measured id := by
  intro t links
  obtain ⟨hsize, hchildren⟩ := (Draft.start kind label).children_addAll rows
  refine ⟨⟨t.numbered.root, ?_, fun q => ?_, fun id q => Tree.mem_children_iff.symm⟩,
    ⟨t.preOrder_eq_walk, t.postOrder_eq_walk, Tree.nodup_postOrder, fun id => ?_⟩,
    fun id hid => Tree.measured hid⟩
  · exact hsize.trans (Nat.add_comm _ _)
  · have hnone : (Draft.start kind label).build.children q = [] := by
      rw [Tree.children_eq_childrenOf]
      simp [Draft.build, Draft.start, Tree.ofShape, Rooted.toForest, Forest.childrenOf,
        Forest.roots]
    have hq := hchildren q
    rw [hnone, List.nil_append] at hq
    exact hq
  · rw [Tree.mem_postOrder_iff, Tree.mem_preOrder_iff]

/-- The second node gets a child after the third node has been added, and the call with a number
that is not in use is refused. -/
theorem child_added_late_is_measured :
    let rows : List (NodeId × Kind × String) :=
      [(1, ⟨0⟩, "a"), (1, ⟨0⟩, "b"), (7, ⟨0⟩, "x"), (2, ⟨0⟩, "c")]
    let t := ((Draft.start ⟨0⟩ "r").addAll rows).build
    Draft.links 1 rows = [(1, 2), (1, 3), (2, 4)] ∧ t.preOrder = [1, 2, 4, 3] ∧
      t.postOrder = [4, 2, 3, 1] ∧ t.Measured 4 := by
  intro rows t
  have hpre : t.preOrder = [1, 2, 4, 3] := by decide +kernel
  refine ⟨by decide, hpre, by decide +kernel, ?_⟩
  exact (measures_of_grown_trees_follow_children ⟨0⟩ "r" rows).2.2 4 (by rw [hpre]; decide)

end TreeMatching
