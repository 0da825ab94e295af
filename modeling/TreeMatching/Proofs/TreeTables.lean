import Mathlib.Data.List.Nodup
import Mathlib.Data.List.Perm.Basic
import Mathlib.Tactic.Ring
import TreeMatching.Proofs.Survey
import TreeMatching.Tree

set_option autoImplicit false

/-!
# What the tables of a tree hold

A tree answers questions about its nodes from tables.  This module says what the answers are: the
tables hold the entries of the survey, each under the number of its node, and the two depth-first
orders of the shape.

## Main definitions

* `Tree.ofContents` — the tree with given kinds and labels.
* `Tree.entries` — the entries of the nodes, in post-order.

## Main results

* `getElem?_scatter_of_mem` — a table holds every item at the place it asks for.
* `Tree.entry?_eq_some_iff` — the entry of a number is the one whose node has that number.
* `Tree.preOrder_eq`, `Tree.postOrder_eq` — the tabulated orders are those of the shape.
* `Tree.descendants_eq` — a run of the pre-order lists what lies below a node.
* `Tree.mem_descendants_iff`, `Tree.mem_descendants_iff_exists_entry` — what lies below a node
  passes the interval test, and has an entry in the forest under the node.
* `Tree.mem_children_iff` — the children of a node are the nodes whose parent it is.
* `Tree.mem_preOrder_of_mem_children`, `Tree.mem_preOrder_of_parent?` — the neighbours of a node are
  nodes.
* `Tree.place_of_parent?` — a node lies right below its parent.
* `Tree.subtree_disjoint` — different subtrees of the same size have no node in common.
* `Tree.pairwise_postOrder`, `Tree.postIndex_lt_of_mem_descendants` — the post-order is sorted by
  post-order indices, and a node comes behind everything below it.
-/

namespace TreeMatching

/-! ### Tables -/

section Scatter

universe u v

variable {α : Type u} {β : Type v} (fill : β) (n : Nat) (place : α → Nat) (value : α → β)

/-- A table has as many places as were asked for. -/
@[simp]
lemma size_scatter (items : List α) : (scatter fill n place value items.toArray).size = n := by
  have h : ∀ table : Array β, (items.foldl (fun table x =>
      table.setIfInBounds (place x) (value x)) table).size = table.size := by
    induction items with
    | nil => simp
    | cons y items ih => intro table; rw [List.foldl_cons, ih, Array.size_setIfInBounds]
  simp [scatter, h]

/-- **A table holds every item at the place it asks for**, if no two items ask for the same
place.

**Proof sketch.** Split the items at `x`.  Setting `x` puts its value at its place, and no later
item asks for that place again. -/
lemma getElem?_scatter_of_mem {items : List α} (hd : (items.map place).Nodup) {x : α}
    (hx : x ∈ items) (hn : place x < n) :
    (scatter fill n place value items.toArray)[place x]? = some (value x) := by
  have later : ∀ (later : List α) (table : Array β), place x ∉ later.map place →
      (later.foldl (fun table y => table.setIfInBounds (place y) (value y)) table)[place x]? =
        table[place x]? := by
    intro later
    induction later with
    | nil => intro table _; rfl
    | cons y later ih =>
      intro table hy
      rw [List.map_cons, List.mem_cons, not_or] at hy
      rw [List.foldl_cons, ih _ hy.2, Array.getElem?_setIfInBounds_ne (Ne.symm hy.1)]
  obtain ⟨front, rest, rfl⟩ := List.append_of_mem hx
  have hsize := size_scatter fill n place value front
  simp only [scatter, List.size_toArray, List.foldl_toArray'] at hsize ⊢
  rw [List.foldl_append, List.foldl_cons, later]
  · rw [Array.getElem?_setIfInBounds_self]
    simp only [hsize, hn, ↓reduceIte]
  · rw [List.map_append, List.map_cons] at hd
    exact (List.nodup_cons.1 (List.nodup_append.1 hd).2.1).1

/-- A place that no item asks for keeps its filling. -/
lemma getElem?_scatter_of_notMem {items : List α} {k : Nat} (hk : k ∉ items.map place) :
    (scatter fill n place value items.toArray)[k]? = (Array.replicate n fill)[k]? := by
  simp only [scatter, List.size_toArray, List.foldl_toArray']
  generalize Array.replicate n fill = table
  induction items generalizing table with
  | nil => rfl
  | cons y items ih =>
    rw [List.map_cons, List.mem_cons, not_or] at hk
    rw [List.foldl_cons, ih hk.2, Array.getElem?_setIfInBounds_ne (Ne.symm hk.1)]

end Scatter

/-- A tree, seen as a forest, has the same nodes. -/
lemma Rooted.preOrder_toForest {α : Type} (r : Rooted α) : r.toForest.preOrder = r.preOrder := by
  simp [toForest, Forest.preOrder, preOrder]

namespace Tree

/-- The tree with the given kinds and labels, numbered in pre-order and without marks. -/
def ofContents (contents : Rooted (Kind × String)) : Tree :=
  .ofShape contents.number contents.numbered_number none

variable (t : Tree)

/-- The entries of the nodes of a tree, in post-order. -/
def entries : List Entry := t.shape.toForest.entries none 0 0 0

/-! ### Numbers of nodes -/

/-- As a forest, the shape has all nodes of the tree. -/
lemma size_toForest : t.shape.toForest.size = t.count := by
  simp [Rooted.toForest, Forest.size, Tree.count, Rooted.size]

/-- The numbers of the entries are `1, …, n` in some order. -/
lemma map_id_entries_perm :
    (t.entries.map fun e => e.node.id).Perm (List.range' 1 t.count) := by
  have h : (t.entries.map fun e => e.node.id) = t.shape.toForest.postOrder.map Node.id := by
    rw [← Forest.map_node_entries t.shape.toForest none 0 0 0, List.map_map]
    rfl
  rw [h]
  refine (t.shape.toForest.postOrder_perm_preOrder.map _).trans ?_
  rw [Rooted.preOrder_toForest]
  exact t.numbered.ids

/-- No number occurs in two entries. -/
lemma nodup_map_id_entries : (t.entries.map fun e => e.node.id).Nodup :=
  t.map_id_entries_perm.nodup_iff.2 List.nodup_range'

variable {t}

/-- An entry is determined by the number of its node. -/
lemma entry_ext {e u : Entry} (he : e ∈ t.entries) (hu : u ∈ t.entries)
    (h : e.node.id = u.node.id) : e = u :=
  List.inj_on_of_nodup_map t.nodup_map_id_entries he hu h

/-- The numbers of the nodes start at one and leave no gaps. -/
lemma id_bounds_of_mem_entries {e : Entry} (he : e ∈ t.entries) :
    1 ≤ e.node.id ∧ e.node.id < 1 + t.count := by
  have h : e.node.id ∈ List.range' 1 t.count :=
    t.map_id_entries_perm.mem_iff.1 (List.mem_map_of_mem he)
  rwa [List.mem_range'_1] at h

variable (t)

/-- The tables are filled from the entries. -/
lemma index_eq_scatter :
    t.index =
      { entries := scatter none (t.count + 1) (fun e => e.node.id) some t.entries.toArray
        preOrder := scatter t.root t.count Entry.pre (fun e => e.node.id) t.entries.toArray
        postOrder :=
          scatter t.root t.count Entry.post (fun e => e.node.id) t.entries.toArray } := by
  rw [t.index_eq]
  unfold Rooted.index
  simp only [Forest.survey_eq, Array.empty_append]
  rfl

/-- **The entry of a number is the one whose node has that number.**

**Proof sketch.** The index is laid out by the numbers of the nodes, which are distinct and not
larger than the node count.  So the entry of a node is found under its number, and under any other
number there is nothing. -/
theorem entry?_eq_some_iff {id : NodeId} {e : Entry} :
    t.entry? id = some e ↔ e ∈ t.entries ∧ e.node.id = id := by
  have hplace {u : Entry} (hu : u ∈ t.entries) :
      t.entry? u.node.id = some u := by
    have hb := id_bounds_of_mem_entries hu
    have h := getElem?_scatter_of_mem none (t.count + 1) (fun e => e.node.id) some
      t.nodup_map_id_entries hu (by rw [Nat.add_comm]; exact hb.2)
    simp only [ entry?, index_eq_scatter, h, Option.join_some]
  constructor
  · intro h
    by_cases hid : id ∈ t.entries.map fun e => e.node.id
    · obtain ⟨u, hu, rfl⟩ := List.mem_map.1 hid
      rw [hplace hu, Option.some.injEq] at h
      subst h
      exact ⟨hu, rfl⟩
    · have hn := getElem?_scatter_of_notMem (β := Option Entry) none (t.count + 1) _ some hid
      simp only [ entry?, index_eq_scatter, hn, Array.getElem?_replicate] at h
      split at h <;> simp at h
  · rintro ⟨he, rfl⟩
    exact hplace he

variable {t}

/-- An entry is found under the number of its node. -/
lemma entry_of_mem_entries {e : Entry} (he : e ∈ t.entries) : t.entry e.node.id = e := by
  rw [entry, (t.entry?_eq_some_iff).2 ⟨he, rfl⟩, Option.getD_some]

/-! ### The tabulated orders -/

/-- A list of numbers laid out by distinct places below its length is that list in the order of the
places.

**Proof sketch.** The places are distinct and below the node count, and there are as many of them,
so that all places are taken.  At each place the array holds the number of the entry laid out there,
which is the one the list has. -/
lemma toList_scatter_eq (place : Entry → Nat) (order : List Node)
    (hd : (t.entries.map place).Nodup) (hl : order.length = t.count)
    (ho : ∀ e ∈ t.entries, order[place e]? = some e.node) :
    (scatter t.root t.count place (fun e => e.node.id) t.entries.toArray).toList =
      order.map Node.id := by
  have hcount : t.entries.length = t.count := by
    rw [entries, Forest.length_entries, size_toForest]
  have hlt : ∀ e ∈ t.entries, place e < t.count := by
    intro e he
    have := (List.getElem?_eq_some_iff.1 (ho e he)).1
    omega
  -- by counting, every place below the node count is taken
  have hperm : (t.entries.map place).Perm (List.range t.count) := by
    refine (List.subperm_of_subset hd ?_).perm_of_length_le (by simp [hcount])
    intro k hk
    obtain ⟨e, he, rfl⟩ := List.mem_map.1 hk
    exact List.mem_range.2 (hlt e he)
  apply List.ext_getElem?
  intro k
  rw [Array.getElem?_toList]
  by_cases hk : k < t.count
  · obtain ⟨e, he, rfl⟩ := List.mem_map.1 (hperm.mem_iff.2 (List.mem_range.2 hk))
    rw [getElem?_scatter_of_mem _ _ _ _ hd he hk, List.getElem?_map, ho e he]
    rfl
  · rw [Array.getElem?_eq_none (by rw [size_scatter]; omega),
      List.getElem?_eq_none (by rw [List.length_map]; omega)]

variable (t)

/-- **The tabulated pre-order is that of the shape.** -/
theorem preOrder_eq : t.preOrder = t.shape.preOrder.map Node.id := by
  have hp := Forest.map_pre_entries_perm t.shape.toForest none 0 0 0
  have h := toList_scatter_eq Entry.pre t.shape.preOrder
    (hp.nodup_iff.2 List.nodup_range') (Rooted.length_preOrder _) fun e he => by
      rw [← Rooted.preOrder_toForest]
      simpa using Forest.getElem?_preOrder_of_mem_entries he
  rw [preOrder, index_eq_scatter]
  exact h

/-- The post-order index of an entry is its place among the entries. -/
lemma map_post_entries : t.entries.map Entry.post = List.range' 0 t.count := by
  rw [entries, Forest.map_post_entries _ _ _ le_rfl, size_toForest]

variable {t} in
/-- An entry stands at the place of its post-order index. -/
lemma getElem?_entries_post {e : Entry} (he : e ∈ t.entries) : t.entries[e.post]? = some e := by
  obtain ⟨k, hk, rfl⟩ := List.mem_iff_getElem.1 he
  have hcount : k < t.count := by
    rwa [entries, Forest.length_entries, size_toForest] at hk
  have hpost : t.entries[k].post = k := by
    have hget := congrArg (·[k]?) t.map_post_entries
    simpa [List.getElem?_eq_getElem hk, List.getElem?_range' hcount] using hget
  rw [hpost, List.getElem?_eq_getElem hk]

/-- **The tabulated post-order is that of the shape.**

**Proof sketch.** The entries are found in post-order, and the post-order index of an entry is its
place there. -/
theorem postOrder_eq : t.postOrder = t.shape.toForest.postOrder.map Node.id := by
  have h := toList_scatter_eq Entry.post t.shape.toForest.postOrder
    (by rw [t.map_post_entries]; exact List.nodup_range')
    (by rw [Forest.length_postOrder, size_toForest]) fun e he => by
      rw [← Forest.map_node_entries _ none 0 0 0, List.getElem?_map]
      change (t.entries[e.post]?).map _ = _
      rw [getElem?_entries_post he]
      rfl
  rw [postOrder, index_eq_scatter]
  exact h

variable {t}

/-- The nodes of a tree are the numbers from one to the node count. -/
lemma mem_preOrder_iff {id : Nat} : id ∈ t.preOrder ↔ 1 ≤ id ∧ id ≤ t.count := by
  rw [preOrder_eq, t.numbered.ids.mem_iff, List.mem_range'_1]
  change 1 ≤ id ∧ id < 1 + t.count ↔ 1 ≤ id ∧ id ≤ t.count
  omega

/-- No node occurs twice in pre-order. -/
lemma nodup_preOrder : t.preOrder.Nodup := by
  rw [preOrder_eq]
  exact t.numbered.ids.nodup_iff.2 List.nodup_range'

/-- All nodes occur in pre-order. -/
lemma length_preOrder : t.preOrder.length = t.count := by
  rw [preOrder_eq, List.length_map, Rooted.length_preOrder]
  rfl

/-- The two depth-first orders list the same nodes. -/
lemma mem_postOrder_iff {id : NodeId} : id ∈ t.postOrder ↔ id ∈ t.preOrder := by
  rw [preOrder_eq, postOrder_eq, ← Rooted.preOrder_toForest]
  exact (t.shape.toForest.postOrder_perm_preOrder.map _).mem_iff

/-- The nodes of the tree are those with an entry. -/
lemma mem_preOrder_iff_exists_entry {id : NodeId} :
    id ∈ t.preOrder ↔ ∃ e ∈ t.entries, e.node.id = id := by
  rw [preOrder_eq, t.numbered.ids.mem_iff, ← List.mem_map (f := fun e : Entry => e.node.id),
    t.map_id_entries_perm.mem_iff]
  rfl

/-- A node with an entry belongs to the tree. -/
lemma mem_preOrder_of_mem_entries {e : Entry} (he : e ∈ t.entries) : e.node.id ∈ t.preOrder :=
  mem_preOrder_iff_exists_entry.2 ⟨e, he, rfl⟩

/-- The entry of a node is among the entries, under its number. -/
lemma entry_mem_of_mem_preOrder {id : NodeId} (h : id ∈ t.preOrder) :
    t.entry id ∈ t.entries ∧ (t.entry id).node.id = id := by
  obtain ⟨e, he, rfl⟩ := mem_preOrder_iff_exists_entry.1 h
  rw [entry_of_mem_entries he]
  exact ⟨he, rfl⟩

/-- A number that is not in use has the empty entry. -/
lemma entry_of_notMem {id : NodeId} (h : id ∉ t.preOrder) : t.entry id = default := by
  have hn : t.entry? id = none := by
    rw [Option.eq_none_iff_forall_ne_some]
    intro e hsome
    obtain ⟨he, rfl⟩ := t.entry?_eq_some_iff.1 hsome
    exact h (mem_preOrder_of_mem_entries he)
  rw [entry, hn, Option.getD_none]

/-- The nodes of a tree have a kind, and nothing else has one. -/
lemma kind?_eq_some_iff {id : NodeId} {k : Kind} :
    t.kind? id = some k ↔ id ∈ t.preOrder ∧ t.kind id = k := by
  rw [kind?, Option.map_eq_some_iff]
  constructor
  · rintro ⟨e, he, rfl⟩
    obtain ⟨hmem, rfl⟩ := t.entry?_eq_some_iff.1 he
    rw [kind, entry_of_mem_entries hmem]
    exact ⟨mem_preOrder_of_mem_entries hmem, rfl⟩
  · rintro ⟨h, rfl⟩
    obtain ⟨hmem, hn⟩ := entry_mem_of_mem_preOrder h
    exact ⟨_, t.entry?_eq_some_iff.2 ⟨hmem, hn⟩, rfl⟩

/-- Numbers are of the same kind if they belong to nodes of the same kind. -/
lemma sameKind_iff {s : Tree} {a b : NodeId} :
    s.sameKind t a b = true ↔ a ∈ s.preOrder ∧ b ∈ t.preOrder ∧ s.kind a = t.kind b := by
  rw [sameKind, Option.any_eq_true]
  simp only [beq_iff_eq, kind?_eq_some_iff]
  constructor
  · rintro ⟨k, ⟨ha, rfl⟩, hb, hk⟩
    exact ⟨ha, hb, hk.symm⟩
  · rintro ⟨ha, hb, hk⟩
    exact ⟨_, ⟨ha, rfl⟩, hb, hk.symm⟩

/-- It does not matter in which order two nodes are compared. -/
lemma sameKind_comm (s t : Tree) (a b : NodeId) : s.sameKind t a b = t.sameKind s b a := by
  rw [Bool.eq_iff_iff, sameKind_iff, sameKind_iff]
  constructor <;> rintro ⟨ha, hb, hk⟩ <;> exact ⟨hb, ha, hk.symm⟩

/-- Having the same label is symmetric. -/
lemma sameLabel_comm (s t : Tree) (a b : NodeId) : s.sameLabel t a b = t.sameLabel s b a :=
  Bool.beq_comm ..

/-- Having the same content is symmetric. -/
lemma sameContent_comm (s t : Tree) (a b : NodeId) :
    s.sameContent t a b = t.sameContent s b a := by
  rw [sameContent, sameContent, sameKind_comm, sameLabel_comm]

/-- Nodes of the same content have the same label. -/
lemma sameLabel_of_sameContent {s : Tree} {a b : NodeId} (h : s.sameContent t a b = true) :
    s.sameLabel t a b = true :=
  (Bool.and_eq_true_iff.1 h).2

/-- The root belongs to the tree. -/
lemma root_mem_preOrder : t.root ∈ t.preOrder := by
  rw [preOrder_eq]
  exact List.mem_map_of_mem (List.mem_cons_self ..)

/-- Leaves belong to the tree. -/
lemma mem_preOrder_of_mem_leaves {id : NodeId} (h : id ∈ t.leaves) : id ∈ t.preOrder :=
  mem_postOrder_iff.1 (List.mem_filter.1 h).1

/-! ### Neighbours -/

/-- A child of anything is a node, and the entry of the child names its parent and position. -/
lemma exists_entry_of_getElem?_children {id c : NodeId} {k : Nat}
    (h : (t.children id)[k]? = some c) :
    ∃ e ∈ t.entries, e.node.id = c ∧ e.parent = some id ∧ e.position = k := by
  by_cases hid : id ∈ t.preOrder
  · obtain ⟨he, hn⟩ := entry_mem_of_mem_preOrder hid
    rw [children, List.getElem?_map, Option.map_eq_some_iff] at h
    obtain ⟨n, hr, rfl⟩ := h
    obtain ⟨u, hu, rfl, hp, -, hk⟩ := Forest.exists_entry_of_getElem?_roots
      (some (t.entry id).node.id) ((t.entry id).depth + 1) 0 ((t.entry id).pre + 1) hr
    exact ⟨u, Forest.entries_below_subset he hu, rfl, by rw [hp, hn], by omega⟩
  · rw [children, entry_of_notMem hid] at h
    simp only [show (default : Entry).below = .nil from rfl, Forest.roots, List.map_nil,
      List.getElem?_nil, reduceCtorEq] at h

/-- Children belong to the tree. -/
lemma mem_preOrder_of_mem_children {id c : NodeId} (h : c ∈ t.children id) :
    c ∈ t.preOrder := by
  obtain ⟨k, hk⟩ := List.mem_iff_getElem?.1 h
  obtain ⟨e, he, rfl, -⟩ := exists_entry_of_getElem?_children hk
  exact mem_preOrder_of_mem_entries he

/-- **The children of a node are the nodes whose parent it is.**

**Proof sketch.** A child at some position has an entry whose parent is the node.  Conversely the
entry of a node with a parent is a root among what is below the entry of the parent, hence among its
children. -/
lemma mem_children_iff {id q : NodeId} : id ∈ t.children q ↔ t.parent? id = some q := by
  constructor
  · intro h
    obtain ⟨k, hk⟩ := List.mem_iff_getElem?.1 h
    obtain ⟨e, he, rfl, hp, -⟩ := exists_entry_of_getElem?_children hk
    rw [parent?, entry_of_mem_entries he, hp]
  · intro h
    by_cases hid : id ∈ t.preOrder
    · obtain ⟨he, hn⟩ := entry_mem_of_mem_preOrder hid
      rw [parent?] at h
      rcases Forest.parent_of_mem_entries he with ⟨hp, -⟩ | ⟨u, hu, hp, -, -, -, hroot⟩
      · rw [hp] at h
        cases h
      · rw [hp, Option.some.injEq] at h
        subst h
        rw [children, entry_of_mem_entries hu, ← hn]
        exact List.mem_map_of_mem (List.mem_of_getElem? hroot)
    · rw [parent?, entry_of_notMem hid] at h
      cases h

/-- A node is the child of one node only. -/
lemma mem_children_iff_of_mem {id q q' : NodeId} (h : id ∈ t.children q) :
    id ∈ t.children q' ↔ q = q' := by
  rw [mem_children_iff] at h ⊢
  rw [h, Option.some_inj]

/-- A node with children is a node of the tree. -/
lemma mem_preOrder_of_children_ne_nil {id : NodeId} (h : t.children id ≠ []) : id ∈ t.preOrder := by
  by_contra hid
  rw [children, entry_of_notMem hid] at h
  exact h rfl

/-- The parent of anything is a node. -/
lemma mem_preOrder_of_parent? {id q : NodeId} (h : t.parent? id = some q) : q ∈ t.preOrder :=
  mem_preOrder_of_children_ne_nil (List.ne_nil_of_mem (mem_children_iff.2 h))

/-- A node lies right below its parent. -/
lemma place_of_parent? {id q : NodeId} (h : t.parent? id = some q) :
    t.depth id = t.depth q + 1 ∧ t.preIndex q < t.preIndex id ∧
      t.preIndex id + t.size id ≤ t.preIndex q + t.size q ∧
      t.child? q (t.position id) = some id := by
  have hid : id ∈ t.preOrder := mem_preOrder_of_mem_children (mem_children_iff.2 h)
  obtain ⟨he, hn⟩ := entry_mem_of_mem_preOrder hid
  rw [parent?] at h
  rcases Forest.parent_of_mem_entries he with ⟨hp, -⟩ | ⟨u, hu, hp, hdepth, hpre, hrun, hroot⟩
  · rw [hp] at h
    cases h
  · rw [hp, Option.some_inj] at h
    subst h
    simp only [depth, preIndex, size, child?, children, position, entry_of_mem_entries hu,
      List.getElem?_map, hroot, Option.map_some, hn, and_true]
    exact ⟨hdepth, hpre, hrun⟩

/-- The child of a node at a position knows its parent and its position. -/
lemma child?_eq_some_iff {id c : NodeId} {k : Nat} :
    t.child? id k = some c ↔ t.parent? c = some id ∧ t.position c = k := by
  constructor
  · intro h
    obtain ⟨e, he, rfl, hp, hk⟩ := exists_entry_of_getElem?_children h
    rw [parent?, position, entry_of_mem_entries he]
    exact ⟨hp, hk⟩
  · rintro ⟨hp, rfl⟩
    exact (place_of_parent? hp).2.2.2

variable (t) in
/-- The entry of the root covers the whole tree. -/
lemma exists_entry_size_eq_count : ∃ e ∈ t.entries, e.size = t.count := by
  refine ⟨Forest.rootEntry t.shape.root t.shape.below none 0 0 0, ?_, rfl⟩
  simp [entries, Rooted.toForest, Forest.entries]

variable (t) in
/-- The entry of the root starts all counts at zero. -/
lemma entry_root : t.entry t.root = Forest.rootEntry t.shape.root t.shape.below none 0 0 0 :=
  entry_of_mem_entries (e := Forest.rootEntry t.shape.root t.shape.below none 0 0 0)
    (by simp [entries, Rooted.toForest, Forest.entries])

variable (t) in
/-- The subtree at the root is the whole tree. -/
lemma subtree_root : t.subtree t.root = t.shape := by
  rw [subtree, entry_root]
  rfl

variable (t) in
/-- The size at the root counts all nodes. -/
lemma size_root : t.size t.root = t.count := by
  rw [size, entry_root]
  rfl

/-- The root has no parent. -/
lemma parent?_root : t.parent? t.root = none := by
  rw [parent?, entry_root]
  rfl

/-- Whatever is met on the way up from a node is a node. -/
lemma mem_preOrder_of_mem_climb {steps : Nat} {id q : NodeId} (h : q ∈ t.climb steps id) :
    q ∈ t.preOrder := by
  induction steps generalizing id with
  | zero => simp [climb] at h
  | succ steps ih =>
    rw [climb] at h
    cases hp : t.parent? id with
    | none => simp [hp] at h
    | some p =>
      simp only [hp, List.mem_cons] at h
      rcases h with rfl | h
      · exact mem_preOrder_of_parent? hp
      · exact ih h

/-! ### Subtrees -/

/-- The place of a node in pre-order is its pre-order index. -/
lemma getElem?_preOrder_preIndex {id : NodeId} (h : id ∈ t.preOrder) :
    t.preOrder[t.preIndex id]? = some id := by
  obtain ⟨he, hn⟩ := entry_mem_of_mem_preOrder h
  have := Forest.getElem?_preOrder_of_mem_entries he
  rw [Rooted.preOrder_toForest, Nat.sub_zero] at this
  rw [preOrder_eq, List.getElem?_map, preIndex, this, Option.map_some, hn]

/-- The places of the pre-order belong to the nodes with these pre-order indices. -/
lemma getElem?_preOrder_eq_some_iff {id : NodeId} {k : Nat} :
    t.preOrder[k]? = some id ↔ id ∈ t.preOrder ∧ t.preIndex id = k := by
  constructor
  · intro h
    have hid := List.mem_of_getElem? h
    have h' := getElem?_preOrder_preIndex hid
    obtain ⟨hk, hk'⟩ := List.getElem?_eq_some_iff.1 h
    obtain ⟨hi, hi'⟩ := List.getElem?_eq_some_iff.1 h'
    exact ⟨hid, nodup_preOrder.getElem_inj_iff.1 (hi'.trans hk'.symm)⟩
  · rintro ⟨hid, rfl⟩
    exact getElem?_preOrder_preIndex hid

/-- A node is determined by its pre-order index. -/
lemma preIndex_inj {a b : NodeId} (ha : a ∈ t.preOrder) (hb : b ∈ t.preOrder) :
    t.preIndex a = t.preIndex b ↔ a = b := by
  constructor
  · intro h
    have h1 := getElem?_preOrder_preIndex ha
    rw [h, getElem?_preOrder_preIndex hb, Option.some.injEq] at h1
    exact h1.symm
  · rintro rfl
    rfl

variable (t) in
/-- The pre-order lists the nodes by their pre-order indices. -/
lemma pairwise_preOrder : t.preOrder.Pairwise (t.preIndex · < t.preIndex ·) := by
  refine List.pairwise_iff_getElem.2 fun i j hi hj hij => ?_
  obtain ⟨-, hpre⟩ := getElem?_preOrder_eq_some_iff.1 (List.getElem?_eq_getElem hi)
  obtain ⟨-, hpre'⟩ := getElem?_preOrder_eq_some_iff.1 (List.getElem?_eq_getElem hj)
  rwa [hpre, hpre']

/-- The size of a node counts itself and what is below it. -/
lemma size_eq_of_mem {id : NodeId} (h : id ∈ t.preOrder) :
    t.size id = (t.entry id).below.size + 1 :=
  Forest.size_of_mem_entries (entry_mem_of_mem_preOrder h).1

/-- There is nothing below a leaf. -/
lemma below_eq_nil_of_isLeaf {id : NodeId} (h : t.isLeaf id = true) :
    (t.entry id).below = .nil := by
  by_cases hid : id ∈ t.preOrder
  · have hsize := size_eq_of_mem hid
    rw [isLeaf, beq_iff_eq] at h
    cases hforest : (t.entry id).below with
    | nil => rfl
    | node n below next =>
      rw [hforest, Forest.size] at hsize
      omega
  · rw [entry_of_notMem hid]
    rfl

/-- A leaf has no children. -/
lemma children_eq_nil_of_isLeaf {id : NodeId} (h : t.isLeaf id = true) : t.children id = [] := by
  rw [children, below_eq_nil_of_isLeaf h]
  rfl

/-- The run of pre-order indices of a subtree ends within the tree. -/
lemma preIndex_add_size_le {id : NodeId} (h : id ∈ t.preOrder) :
    t.preIndex id + t.size id ≤ t.count := by
  have := (Forest.bounds_of_mem_entries (entry_mem_of_mem_preOrder h).1).2
  rw [size_toForest] at this
  exact this.trans (by omega)

/-- The descendants of a node are the run of the pre-order right behind it. -/
lemma getElem?_descendants {id : NodeId} (h : id ∈ t.preOrder) (k : Nat) :
    (t.descendants id)[k]? =
      if k < t.size id - 1 then t.preOrder[t.preIndex id + 1 + k]? else none := by
  have hb := preIndex_add_size_le h
  have hpre : t.preOrder.length = t.count := length_preOrder
  simp only [descendants, preOrder] at hpre ⊢
  rw [Array.length_toList] at hpre
  rw [Array.getElem?_toList, Array.getElem?_extract, Array.getElem?_toList]
  have hlen : min (t.preIndex id + t.size id) t.index.preOrder.size - (t.preIndex id + 1) =
      t.size id - 1 := by omega
  rw [hlen]

/-- **The run of the pre-order behind a node lists what lies below it.**

**Proof sketch.** The entries of the forest under the node are entries of the tree, and their
pre-order indices, counted from the one behind the node, are those within that forest.  So the two
lists agree at every place. -/
theorem descendants_eq {id : NodeId} (h : id ∈ t.preOrder) :
    t.descendants id = (t.subtree id).below.preOrder.map Node.id := by
  obtain ⟨he, hn⟩ := entry_mem_of_mem_preOrder h
  have hs := size_eq_of_mem h
  set below := (t.entry id).below with hbelow
  have hperm := Forest.map_pre_entries_perm below (some (t.entry id).node.id)
    ((t.entry id).depth + 1) 0 ((t.entry id).pre + 1)
  apply List.ext_getElem?
  intro k
  rw [getElem?_descendants h, hs, Nat.add_sub_cancel]
  by_cases hk : k < below.size
  · rw [if_pos hk]
    obtain ⟨u, hu, hpu⟩ := List.mem_map.1 (hperm.mem_iff.2 (List.mem_range'_1.2
      ⟨Nat.le_add_right ((t.entry id).pre + 1) k, by omega⟩))
    have hnode := Forest.getElem?_preOrder_of_mem_entries hu
    rw [hpu, Nat.add_sub_cancel_left] at hnode
    have hu' := Forest.entries_below_subset he hu
    have hglobal := getElem?_preOrder_preIndex (mem_preOrder_of_mem_entries hu')
    rw [preIndex, entry_of_mem_entries hu', hpu] at hglobal
    rw [preIndex, hglobal, List.getElem?_map]
    change _ = Option.map Node.id below.preOrder[k]?
    rw [hnode]
    rfl
  · rw [if_neg hk, List.getElem?_eq_none]
    rw [List.length_map, Forest.length_preOrder]
    exact Nat.le_of_not_lt hk

/-- The entries of the forest under a node are entries of the tree. -/
lemma entries_below_subset {a : NodeId} (ha : a ∈ t.preOrder) :
    (t.entry a).below.entries (some a) ((t.entry a).depth + 1) 0 ((t.entry a).pre + 1) ⊆
      t.entries := by
  obtain ⟨he, hid⟩ := entry_mem_of_mem_preOrder ha
  have hsub := Forest.entries_below_subset he
  rwa [hid] at hsub

/-- The descendants of a node are the nodes of the forest under it. -/
lemma mem_descendants_iff_exists_entry {a x : NodeId} (ha : a ∈ t.preOrder) :
    x ∈ t.descendants a ↔
      ∃ u ∈ (t.entry a).below.entries (some a) ((t.entry a).depth + 1) 0 ((t.entry a).pre + 1),
        u.node.id = x := by
  have hnodes := Forest.map_node_entries (t.entry a).below (some a) ((t.entry a).depth + 1) 0
    ((t.entry a).pre + 1)
  rw [descendants_eq ha, ((Forest.postOrder_perm_preOrder _).map Node.id).symm.mem_iff]
  change x ∈ (t.entry a).below.postOrder.map Node.id ↔ _
  rw [← hnodes, List.map_map, List.mem_map]
  rfl

/-- **The descendants of a node are the nodes that the interval test accepts.**

**Proof sketch.** The descendants are the run of pre-order that follows the node, and the interval
test says that the index lies in this run. -/
theorem mem_descendants_iff {a x : NodeId} (ha : a ∈ t.preOrder) :
    x ∈ t.descendants a ↔ x ∈ t.preOrder ∧ t.isDescendant a x = true := by
  rw [List.mem_iff_getElem?]
  simp only [getElem?_descendants ha, isDescendant, Bool.and_eq_true, decide_eq_true_eq]
  constructor
  · rintro ⟨k, hk⟩
    split at hk
    · obtain ⟨hx, hpre⟩ := getElem?_preOrder_eq_some_iff.1 hk
      exact ⟨hx, by omega, by omega⟩
    · cases hk
  · rintro ⟨hx, h1, h2⟩
    refine ⟨t.preIndex x - (t.preIndex a + 1), ?_⟩
    rw [if_pos (by omega), getElem?_preOrder_eq_some_iff]
    exact ⟨hx, by omega⟩

/-- A node is a descendant of its parent. -/
lemma isDescendant_of_parent? {id q : NodeId} (h : t.parent? id = some q) :
    t.isDescendant q id = true := by
  have hsize := size_eq_of_mem (mem_preOrder_of_mem_children (mem_children_iff.2 h))
  obtain ⟨-, hpre, hrun, -⟩ := place_of_parent? h
  simp only [isDescendant, Bool.and_eq_true, decide_eq_true_eq]
  omega

/-- The interval test accepts nodes only. -/
lemma mem_preOrder_of_isDescendant {a x : NodeId} (h : t.isDescendant a x = true) :
    a ∈ t.preOrder ∧ x ∈ t.preOrder := by
  simp only [isDescendant, Bool.and_eq_true, decide_eq_true_eq] at h
  constructor
  · by_contra ha
    have hpre : t.preIndex a = 0 := by rw [preIndex, entry_of_notMem ha]; rfl
    have hsize : t.size a = 0 := by rw [size, entry_of_notMem ha]; rfl
    omega
  · by_contra hx
    have hpre : t.preIndex x = 0 := by rw [preIndex, entry_of_notMem hx]; rfl
    omega

/-- A node that passes the interval test is listed among the descendants. -/
lemma mem_descendants_of_isDescendant {a x : NodeId} (h : t.isDescendant a x = true) :
    x ∈ t.descendants a := by
  obtain ⟨ha, hx⟩ := mem_preOrder_of_isDescendant h
  exact (mem_descendants_iff ha).2 ⟨hx, h⟩

/-- The nodes of the subtree at a node: the node itself and its descendants. -/
lemma map_id_preOrder_subtree {id : NodeId} (h : id ∈ t.preOrder) :
    (t.subtree id).preOrder.map Node.id = id :: t.descendants id := by
  rw [descendants_eq h, Rooted.preOrder, List.map_cons]
  exact congrArg (· :: _) (entry_mem_of_mem_preOrder h).2

/-- Of two nodes one lies above the other or to the left of it. -/
lemma placement {e u : Entry} (he : e ∈ t.entries) (hu : u ∈ t.entries) :
    e = u ∨ e.Above u ∨ u.Above e ∨ e.LeftOf u ∨ u.LeftOf e :=
  Forest.placement le_rfl he hu

/-- Every subtree has a node. -/
lemma size_pos_of_mem_entries {e : Entry} (he : e ∈ t.entries) : 1 ≤ e.size := by
  rw [Forest.size_of_mem_entries he]
  omega

/-- The interval test on pre-order indices tells whether one node lies above another.

**Proof sketch.** Two entries are equal, or one is above the other, or one is to the left of the
other.  In each of these cases but the right one the runs of pre-order indices exclude the interval
test. -/
lemma isDescendant_iff_above {e u : Entry} (he : e ∈ t.entries) (hu : u ∈ t.entries) :
    t.isDescendant e.node.id u.node.id = true ↔ e.Above u := by
  simp only [isDescendant, preIndex, size, entry_of_mem_entries he, entry_of_mem_entries hu,
    Bool.and_eq_true, decide_eq_true_eq]
  have hse := size_pos_of_mem_entries he
  have hsu := size_pos_of_mem_entries hu
  constructor
  · rintro ⟨h1, h2⟩
    rcases placement he hu with rfl | h | h | h | h
    · omega
    · exact h
    · have := h.pre
      omega
    · have := h.pre
      omega
    · have := h.pre
      omega
  · intro h
    have h1 := h.pre
    have h2 := h.preRun
    exact ⟨h1, by omega⟩

/-- What lies below a descendant is a descendant. -/
lemma isDescendant_trans {a b x : NodeId} (hab : t.isDescendant a b = true)
    (hbx : t.isDescendant b x = true) : t.isDescendant a x = true := by
  obtain ⟨he, ha⟩ := entry_mem_of_mem_preOrder (mem_preOrder_of_isDescendant hab).1
  obtain ⟨hu, hb⟩ := entry_mem_of_mem_preOrder (mem_preOrder_of_isDescendant hab).2
  obtain ⟨hw, hx⟩ := entry_mem_of_mem_preOrder (mem_preOrder_of_isDescendant hbx).2
  rw [← ha, ← hb, isDescendant_iff_above he hu] at hab
  rw [← hb, ← hx, isDescendant_iff_above hu hw] at hbx
  rw [← ha, ← hx, isDescendant_iff_above he hw]
  exact hab.trans hbx

/-- The subtree at a node consists of the nodes with pre-order indices in its run. -/
lemma mem_subtree_iff {a x : NodeId} (ha : a ∈ t.preOrder) :
    x ∈ a :: t.descendants a ↔
      x ∈ t.preOrder ∧ t.preIndex a ≤ t.preIndex x ∧ t.preIndex x < t.preIndex a + t.size a := by
  rw [List.mem_cons, mem_descendants_iff ha]
  simp only [isDescendant, Bool.and_eq_true, decide_eq_true_eq]
  have hs := size_eq_of_mem ha
  constructor
  · rintro (rfl | ⟨hx, h1, h2⟩)
    · exact ⟨ha, le_rfl, by omega⟩
    · exact ⟨hx, h1.le, h2⟩
  · rintro ⟨hx, h1, h2⟩
    rcases h1.eq_or_lt with h | h
    · exact .inl ((preIndex_inj hx ha).1 h.symm)
    · exact .inr ⟨hx, h, h2⟩

/-- **Different subtrees of the same size have no node in common.**

**Proof sketch.** Two nodes are equal, or one is above the other, or one is to the left of the
other.  If one were above the other its subtree would be larger; and if one is to the left, the two
runs of indices do not meet. -/
theorem subtree_disjoint {a b : NodeId} (ha : a ∈ t.preOrder) (hb : b ∈ t.preOrder)
    (hab : a ≠ b) (hs : t.size a = t.size b) :
    List.Disjoint (a :: t.descendants a) (b :: t.descendants b) := by
  intro x hxa hxb
  obtain ⟨-, h1, h2⟩ := (mem_subtree_iff ha).1 hxa
  obtain ⟨-, h3, h4⟩ := (mem_subtree_iff hb).1 hxb
  obtain ⟨he, hea⟩ := entry_mem_of_mem_preOrder ha
  obtain ⟨hu, hub⟩ := entry_mem_of_mem_preOrder hb
  simp only [preIndex, size] at h1 h2 h3 h4 hs
  rcases placement he hu with h | h | h | h | h
  · exact hab (by rw [← hea, ← hub, h])
  · have := h.pre
    have := h.preRun
    omega
  · have := h.pre
    have := h.preRun
    omega
  · have := h.pre
    omega
  · have := h.pre
    omega

/-- The subtrees within the subtree at a node are those at nodes of the tree. -/
lemma subtree_of_mem_subtrees {a : NodeId} (ha : a ∈ t.preOrder) {r : Rooted Node}
    (hr : r ∈ (t.subtree a).toForest.subtrees) :
    r.root.id ∈ t.preOrder ∧ t.subtree r.root.id = r := by
  obtain ⟨he, -⟩ := entry_mem_of_mem_preOrder ha
  obtain ⟨e, hmem, rfl⟩ : ∃ e ∈ t.entries, (⟨e.node, e.below⟩ : Rooted Node) = r := by
    simp only [Rooted.toForest, Forest.subtrees, List.append_nil, List.mem_cons] at hr
    rcases hr with rfl | hr
    · exact ⟨_, he, rfl⟩
    · obtain ⟨e, hmem, rfl⟩ := Forest.exists_entry_of_mem_subtrees hr
        (some (t.entry a).node.id) ((t.entry a).depth + 1) 0 ((t.entry a).pre + 1)
      exact ⟨e, Forest.entries_below_subset he hmem, rfl⟩
  exact ⟨mem_preOrder_of_mem_entries hmem, by rw [subtree, entry_of_mem_entries hmem]⟩

/-- What occurs in the subtree at a node is a node of the tree, and the tables know it. -/
lemma node_of_mem_subtree {a : NodeId} (ha : a ∈ t.preOrder) {n : Node}
    (hn : n ∈ (t.subtree a).preOrder) : n.id ∈ t.preOrder ∧ (t.entry n.id).node = n := by
  rw [← Rooted.preOrder_toForest, ← Forest.map_root_subtrees, List.mem_map] at hn
  obtain ⟨r, hr, rfl⟩ := hn
  obtain ⟨hnode, hsubtree⟩ := subtree_of_mem_subtrees ha hr
  exact ⟨hnode, congrArg Rooted.root hsubtree⟩

variable (t) in
/-- The descendants of a node stand in pre-order. -/
lemma descendants_sublist (a : NodeId) : (t.descendants a).Sublist t.preOrder := by
  rw [descendants, Array.toList_extract, List.extract_eq_take_drop]
  exact (List.take_sublist _ _).trans (List.drop_sublist _ _)

/-- A descendant of a node is a node. -/
lemma mem_preOrder_of_mem_descendants {id d : NodeId} (h : d ∈ t.descendants id) :
    d ∈ t.preOrder :=
  (t.descendants_sublist id).subset h

/-- No node occurs twice in a subtree. -/
lemma nodup_subtree {a : NodeId} (ha : a ∈ t.preOrder) : (a :: t.descendants a).Nodup := by
  refine List.nodup_cons.2 ⟨fun h => ?_, nodup_preOrder.sublist (t.descendants_sublist a)⟩
  have hself := ((mem_descendants_iff ha).1 h).2
  simp [isDescendant] at hself

/-- In post-order a node comes behind everything below it. -/
lemma postIndex_lt_of_mem_descendants {a x : NodeId} (ha : a ∈ t.preOrder)
    (hx : x ∈ t.descendants a) : t.postIndex x < t.postIndex a := by
  obtain ⟨hxn, hbelow⟩ := (mem_descendants_iff ha).1 hx
  obtain ⟨he, hea⟩ := entry_mem_of_mem_preOrder ha
  obtain ⟨hu, hux⟩ := entry_mem_of_mem_preOrder hxn
  rw [← hea, ← hux, isDescendant_iff_above he hu] at hbelow
  exact hbelow.post

variable (t) in
/-- In post-order the nodes have the post-order indices `0, 1, …`. -/
lemma map_postIndex_postOrder : t.postOrder.map t.postIndex = List.range' 0 t.count := by
  rw [postOrder_eq, ← Forest.map_node_entries _ none 0 0 0, ← t.map_post_entries, List.map_map,
    List.map_map]
  refine List.map_congr_left fun e he => ?_
  exact congrArg Entry.post (entry_of_mem_entries he)

variable (t) in
/-- The post-order lists the nodes by their post-order indices. -/
lemma pairwise_postOrder : t.postOrder.Pairwise (t.postIndex · < t.postIndex ·) := by
  have hsorted : (t.postOrder.map t.postIndex).Pairwise (· < ·) := by
    rw [map_postIndex_postOrder]
    exact List.pairwise_lt_range'
  exact List.pairwise_map.1 hsorted

/-- No node occurs twice in post-order. -/
lemma nodup_postOrder : t.postOrder.Nodup :=
  t.pairwise_postOrder.imp fun {a b} hlt heq => by simp [heq] at hlt

/-- The place of a node in post-order is its post-order index. -/
lemma getElem?_postOrder_postIndex {id : NodeId} (h : id ∈ t.preOrder) :
    t.postOrder[t.postIndex id]? = some id := by
  obtain ⟨he, hn⟩ := entry_mem_of_mem_preOrder h
  have hget := getElem?_entries_post he
  rw [postOrder_eq, ← Forest.map_node_entries _ none 0 0 0, List.map_map, List.getElem?_map]
  change (t.entries[(t.entry id).post]?).map _ = _
  rw [hget, Option.map_some]
  exact congrArg some hn

end Tree

/-! ### Subtrees that are alike -/

/-- Two trees are alike exactly when they become equal once the numbers are erased. -/
lemma Rooted.alike_iff (s t : Rooted Node) :
    s.alike t = true ↔ s.map Node.content = t.map Node.content := by
  simp [Rooted.alike, Rooted.map, Node.alike_iff, Forest.alike_iff]

/-- Replacing the values of a tree replaces those of its pre-order. -/
lemma Rooted.preOrder_map {α β : Type} (f : α → β) (t : Rooted α) :
    (t.map f).preOrder = t.preOrder.map f := by
  simp [Rooted.map, Rooted.preOrder]

/-- Two subtrees are the same exactly if they agree in shape, kinds and labels, and so in size. -/
lemma Tree.sameSubtree_iff {s t : Tree} {a b : NodeId} :
    s.sameSubtree t a b = true ↔
      s.size a = t.size b ∧ (s.subtree a).map Node.content = (t.subtree b).map Node.content := by
  simp [Tree.sameSubtree, Rooted.alike_iff]

/-- Leaves with the same kind and label have the same subtree. -/
lemma Tree.sameSubtree_of_isLeaf {s t : Tree} {a b : NodeId} (ha : s.isLeaf a = true)
    (hb : t.isLeaf b = true) (hsame : s.sameContent t a b = true) : s.sameSubtree t a b = true := by
  have hkind : s.kind a = t.kind b := (sameKind_iff.1 (Bool.and_eq_true_iff.1 hsame).1).2.2
  have hlabel : s.label a = t.label b := beq_iff_eq.1 (sameLabel_of_sameContent hsame)
  have hroot : (s.entry a).node.content = (t.entry b).node.content := Prod.ext hkind hlabel
  refine sameSubtree_iff.2 ⟨(beq_iff_eq.1 ha).trans (beq_iff_eq.1 hb).symm, ?_⟩
  rw [subtree, subtree, below_eq_nil_of_isLeaf ha, below_eq_nil_of_isLeaf hb]
  exact congrArg (Rooted.mk · .nil) hroot

end TreeMatching
