import Mathlib.Data.Fintype.Sum
import Mathlib.Logic.Embedding.Basic
import TreeMatching.Matching
import TreeMatching.Proofs.TreeTables

set_option autoImplicit false

/-!
# Renaming the kinds of nodes

A kind is a number that is only compared for equality, so an injective renaming of all kinds should
go unnoticed.  This module carries a renaming through what a stage is given — nodes, the tables of a
tree, the label rules and their comparer, the task as a whole — and says for every way of looking at
these whether the answer is the same as before or the renamed one.

## Main definitions

* `Node.rename`, `Tree.rename`, `LabelRules.rename`, `Task.rename` — everything with its kinds
  renamed.
* `KindTable.Exact` — a table in which every name stands once and is known by its place.

## Main results

* `Tree.apply_entry_rename` — what does not depend on kinds is the same in the renamed tree.
* `Tree.sameKind_rename`, `Tree.sameSubtree_rename` — comparing nodes and subtrees gives the same
  answers.
* `LabelComparer.compare_rename` — labels of renamed kinds are as similar as before.
* `KindTable.exists_rename_internAll` — tables that meet the same names in different order differ by
  a renaming.

## Design

A renaming is an embedding `Kind ↪ Kind`, so injectivity comes with it and the lemmas below are
equations without hypotheses.  They hold for numbers that are not in use, too: a pairing may name
such numbers, and a stage that looks them up finds a default entry, which no renaming reaches.  The
kind of that entry is the one thing that would give it away; but `Tree.sameKind` takes numbers that
are not in use to be of no kind, and `Tree.sameSubtree` compares sizes first.
-/

namespace TreeMatching

variable (f : Kind ↪ Kind)

/-! ### Nodes and forests -/

/-- The node with its kind renamed. -/
def Node.rename (n : Node) : Node := { n with kind := f n.kind }

namespace Node

/-- A renamed node keeps its number. -/
@[simp] lemma id_rename (n : Node) : (n.rename f).id = n.id := rfl

/-- Two nodes are alike exactly if the renamed ones are: different kinds get different names. -/
@[simp] lemma alike_rename (a b : Node) : (a.rename f).alike (b.rename f) = a.alike b := by
  simp [alike, rename, Bool.beq_eq_decide_eq]

end Node

namespace Forest

/-- Two forests are alike exactly if the renamed ones are. -/
@[simp] lemma alike_rename (g h : Forest Node) :
    (g.map (Node.rename f)).alike (h.map (Node.rename f)) = g.alike h := by
  induction g generalizing h with
  | nil => cases h <;> rfl
  | node a below next ihb ihn =>
    cases h with
    | nil => rfl
    | node b below' next' => simp [map, alike, ihb, ihn]

end Forest

namespace Rooted

/-- Two trees are alike exactly if the renamed ones are. -/
@[simp] lemma alike_rename (s t : Rooted Node) :
    (s.map (Node.rename f)).alike (t.map (Node.rename f)) = s.alike t := by
  simp [map, alike]

/-- A numbered tree stays numbered. -/
lemma Numbered.rename {t : Rooted Node} (h : t.Numbered) : (t.map (Node.rename f)).Numbered where
  root := h.root
  ids := by
    have hids : (t.map (Node.rename f)).preOrder.map Node.id = t.preOrder.map Node.id := by
      rw [preOrder_map, List.map_map]
      rfl
    have hsize : (t.map (Node.rename f)).size = t.size := by simp [size, map]
    rw [hids, hsize]
    exact h.ids

end Rooted

/-! ### Entries -/

/-- The entry of a node whose kind is renamed, with everything under it. -/
def Entry.rename (e : Entry) : Entry :=
  { e with node := e.node.rename f, below := e.below.map (Node.rename f) }

/-- The entries of a renamed forest are the renamed entries. -/
lemma Forest.entries_rename (g : Forest Node) (parent : Option NodeId)
    (depth position pre : Nat) :
    (g.map (Node.rename f)).entries parent depth position pre =
      (g.entries parent depth position pre).map (Entry.rename f) := by
  induction g generalizing parent depth position pre with
  | nil => rfl
  | node n below next ihb ihn =>
    simp [map, entries, ihb, ihn, rootEntry, Entry.rename]

/-! ### Trees -/

/-- The tree with the kinds of all nodes renamed. -/
def Tree.rename (t : Tree) : Tree :=
  .ofShape (t.shape.map (Node.rename f)) (t.numbered.rename f) t.marks

namespace Tree

variable (s t : Tree)

/-- The shape of a renamed tree. -/
lemma shape_rename : (t.rename f).shape = t.shape.map (Node.rename f) := rfl

/-- The entries of a renamed tree are the renamed entries. -/
lemma entries_rename : (t.rename f).entries = t.entries.map (Entry.rename f) :=
  Forest.entries_rename f t.shape.toForest none 0 0 0

/-- The tables of the renamed tree hold the renamed entries. -/
lemma entry?_rename (id : NodeId) :
    Tree.entry? (t.rename f) id = (t.entry? id).map (Entry.rename f) := by
  ext u
  rw [entry?_eq_some_iff, entries_rename, List.mem_map, Option.map_eq_some_iff]
  constructor
  · rintro ⟨⟨e, he, rfl⟩, hid⟩
    exact ⟨e, t.entry?_eq_some_iff.2 ⟨he, hid⟩, rfl⟩
  · rintro ⟨e, he, rfl⟩
    obtain ⟨hmem, hid⟩ := t.entry?_eq_some_iff.1 he
    exact ⟨⟨e, hmem, rfl⟩, hid⟩

/-- **What does not depend on kinds is the same in the renamed tree**, also for numbers that are not
in use. -/
lemma apply_entry_rename {α : Type} (g : Entry → α) (hg : ∀ e, g (e.rename f) = g e) (id : NodeId) :
    g ((t.rename f).entry id) = g (t.entry id) := by
  rw [entry, entry, entry?_rename]
  cases t.entry? id with
  | none => rfl
  | some e => exact hg e

/-- A renamed tree has the same root. -/
@[simp] lemma root_rename : (t.rename f).root = t.root := rfl

/-- A renamed tree has equally many nodes. -/
@[simp] lemma count_rename : (t.rename f).count = t.count := by
  simp [count, shape_rename, Rooted.size, Rooted.map]

/-- The nodes of a renamed tree keep their labels. -/
@[simp] lemma label_rename : (t.rename f).label = t.label :=
  funext (t.apply_entry_rename f (·.node.label) fun _ => rfl)

/-- The nodes of a renamed tree keep their parents. -/
@[simp] lemma parent?_rename : (t.rename f).parent? = t.parent? :=
  funext (t.apply_entry_rename f Entry.parent fun _ => rfl)

/-- The nodes of a renamed tree keep their children. -/
@[simp] lemma children_rename : (t.rename f).children = t.children := by
  refine funext (t.apply_entry_rename f (fun e => e.below.roots.map Node.id) fun e => ?_)
  simp [Entry.rename]

/-- The nodes of a renamed tree keep their positions among their siblings. -/
@[simp] lemma position_rename : (t.rename f).position = t.position :=
  funext (t.apply_entry_rename f Entry.position fun _ => rfl)

/-- The subtrees of a renamed tree keep their sizes. -/
@[simp] lemma size_rename : (t.rename f).size = t.size :=
  funext (t.apply_entry_rename f Entry.size fun _ => rfl)

/-- The subtrees of a renamed tree keep their heights. -/
@[simp] lemma height_rename : (t.rename f).height = t.height :=
  funext (t.apply_entry_rename f Entry.height fun _ => rfl)

/-- The nodes of a renamed tree keep their depths. -/
@[simp] lemma depth_rename : (t.rename f).depth = t.depth :=
  funext (t.apply_entry_rename f Entry.depth fun _ => rfl)

/-- There are equally many leaves below the nodes of a renamed tree. -/
@[simp] lemma leafCount_rename : (t.rename f).leafCount = t.leafCount :=
  funext (t.apply_entry_rename f Entry.leaves fun _ => rfl)

/-- The nodes of a renamed tree keep their places in pre-order. -/
@[simp] lemma preIndex_rename : (t.rename f).preIndex = t.preIndex :=
  funext (t.apply_entry_rename f Entry.pre fun _ => rfl)

/-- The nodes of a renamed tree keep their places in post-order. -/
@[simp] lemma postIndex_rename : (t.rename f).postIndex = t.postIndex :=
  funext (t.apply_entry_rename f Entry.post fun _ => rfl)

/-- The child at a position is the same in a renamed tree. -/
@[simp] lemma child?_rename : (t.rename f).child? = t.child? := by
  funext id k
  simp [child?]

/-- The nodes of a renamed tree have equally many children. -/
@[simp] lemma childCount_rename : (t.rename f).childCount = t.childCount := by
  funext id
  simp [childCount]

/-- A renamed tree has the same leaves. -/
@[simp] lemma isLeaf_rename : (t.rename f).isLeaf = t.isLeaf := by
  funext id
  simp [isLeaf]

/-- The nodes of a renamed tree stand in the same pre-order. -/
@[simp] lemma preOrder_rename : (t.rename f).preOrder = t.preOrder := by
  rw [preOrder_eq, preOrder_eq, shape_rename, Rooted.preOrder_map, List.map_map]
  rfl

/-- The nodes of a renamed tree stand in the same post-order. -/
@[simp] lemma postOrder_rename : (t.rename f).postOrder = t.postOrder := by
  have hpost : ∀ g : Forest Node, (g.map (Node.rename f)).postOrder.map Node.id =
      g.postOrder.map Node.id := by
    intro g
    induction g with
    | nil => rfl
    | node n below next ihb ihn => simp [Forest.map, Forest.postOrder, ihb, ihn]
  rw [postOrder_eq, postOrder_eq]
  exact hpost t.shape.toForest

/-- The leaves of a renamed tree stand in the same order. -/
@[simp] lemma leaves_rename : (t.rename f).leaves = t.leaves := by
  simp [leaves]

/-- The same nodes lie below each other in a renamed tree. -/
@[simp] lemma isDescendant_rename : (t.rename f).isDescendant = t.isDescendant := by
  funext a n
  simp [isDescendant]

/-- What lies below a node of a renamed tree is the same. -/
@[simp] lemma descendants_rename : (t.rename f).descendants = t.descendants := by
  have hindex : (t.rename f).index.preOrder = t.index.preOrder :=
    Array.toList_inj.1 (t.preOrder_rename f)
  funext id
  simp [descendants, hindex]

/-- The way up from a node of a renamed tree is the same. -/
@[simp] lemma climb_rename : (t.rename f).climb = t.climb := by
  funext steps id
  induction steps generalizing id with
  | zero => rfl
  | succ steps ih => simp only [climb, parent?_rename, ih]

/-- What lies above a node of a renamed tree is the same. -/
@[simp] lemma ancestors_rename : (t.rename f).ancestors = t.ancestors := by
  funext id
  simp [ancestors]

/-- The nodes of a subtree stand in the same post-order in a renamed tree. -/
@[simp] lemma subtreePostOrder_rename : (t.rename f).subtreePostOrder = t.subtreePostOrder := by
  funext id
  simp [subtreePostOrder]

/-- The subtree at a node of the renamed tree is the renamed subtree. -/
lemma subtree_rename {id : NodeId} (h : id ∈ t.preOrder) :
    (t.rename f).subtree id = (t.subtree id).map (Node.rename f) := by
  obtain ⟨he, hn⟩ := entry_mem_of_mem_preOrder h
  rw [subtree, entry, entry?_rename, t.entry?_eq_some_iff.2 ⟨he, hn⟩]
  rfl

/-- A number that is not in use has the same empty subtree as before. -/
lemma subtree_rename_of_notMem {id : NodeId} (h : id ∉ t.preOrder) :
    (t.rename f).subtree id = t.subtree id := by
  rw [subtree, subtree, entry_of_notMem h, entry_of_notMem (by rwa [preOrder_rename])]

/-- The subtree at any number of the renamed tree has the same arrangement of numbers. -/
lemma exists_subtree_rename (id : NodeId) :
    ∃ φ : Node → Node, (∀ n, (φ n).id = n.id) ∧
      (t.rename f).subtree id = (t.subtree id).map φ := by
  by_cases h : id ∈ t.preOrder
  · exact ⟨Node.rename f, Node.id_rename f, t.subtree_rename f h⟩
  · refine ⟨fun n => n, fun _ => rfl, ?_⟩
    rw [t.subtree_rename_of_notMem f h, subtree, entry_of_notMem h]
    rfl

/-! ### Comparing nodes -/

/-- The kind of a node is renamed, if there is such a node. -/
lemma kind?_rename (id : NodeId) : (t.rename f).kind? id = (t.kind? id).map f := by
  simp only [kind?, entry?_rename, Option.map_map]
  rfl

/-- The kind of a node of the tree is renamed. -/
lemma kind_rename {id : NodeId} (h : id ∈ t.preOrder) : (t.rename f).kind id = f (t.kind id) := by
  have hk : t.kind? id = some (t.kind id) := kind?_eq_some_iff.2 ⟨h, rfl⟩
  refine (kind?_eq_some_iff.1 ?_).2
  rw [kind?_rename, hk, Option.map_some]

/-- **Renaming keeps apart what is of different kinds.** -/
@[simp] lemma sameKind_rename : (s.rename f).sameKind (t.rename f) = s.sameKind t := by
  funext a b
  simp only [sameKind, kind?_rename]
  cases s.kind? a <;> cases t.kind? b <;> simp [Bool.beq_eq_decide_eq]

/-- Whether labels are equal does not depend on the names of kinds. -/
@[simp] lemma sameLabel_rename : (s.rename f).sameLabel (t.rename f) = s.sameLabel t := by
  funext a b
  simp [sameLabel]

/-- Whether kinds and labels are equal does not depend on the names of kinds. -/
@[simp] lemma sameContent_rename : (s.rename f).sameContent (t.rename f) = s.sameContent t := by
  funext a b
  simp [sameContent]

/-- **Renaming keeps apart different subtrees.**

**Proof sketch.** If both are nodes, subtrees of renamed trees are renamed subtrees, and renaming
keeps apart different kinds.  A number that is no node has size zero, so that it cannot be compared
with a node with success. -/
@[simp] lemma sameSubtree_rename : (s.rename f).sameSubtree (t.rename f) = s.sameSubtree t := by
  funext a b
  have hstray : ∀ {t : Tree} {id : NodeId}, id ∉ t.preOrder → t.size id = 0 := fun h => by
    rw [size, entry_of_notMem h]
    rfl
  have hnode : ∀ {t : Tree} {id : NodeId}, id ∈ t.preOrder → 0 < t.size id := fun h => by
    rw [size_eq_of_mem h]
    omega
  simp only [sameSubtree, size_rename]
  -- what is no node has size zero, and so it has no subtree in common with a node
  by_cases ha : a ∈ s.preOrder <;> by_cases hb : b ∈ t.preOrder
  · rw [subtree_rename f s ha, subtree_rename f t hb, Rooted.alike_rename]
  · have hne : s.size a ≠ t.size b := by
      rw [hstray hb]
      exact (hnode ha).ne'
    simp only [beq_false_of_ne hne, Bool.false_and]
  · have hne : s.size a ≠ t.size b := by
      rw [hstray ha]
      exact (hnode hb).ne
    simp only [beq_false_of_ne hne, Bool.false_and]
  · rw [subtree_rename_of_notMem f s ha, subtree_rename_of_notMem f t hb]

end Tree

/-! ### Numbering by contents -/

/-- Numbering the nodes of a forest commutes with the renaming of their kinds. -/
lemma Forest.number_rename (g : Forest (Kind × String)) (start : Nat) :
    (g.map fun x => (f x.1, x.2)).number start =
      ((g.number start).1.map (Node.rename f), (g.number start).2) := by
  induction g generalizing start with
  | nil => rfl
  | node a below next ihb ihn => simp [map, number, ihb, ihn, Node.rename]

/-- The tree of renamed contents is the renamed tree. -/
lemma Tree.ofContents_rename (c : Rooted (Kind × String)) :
    ofContents (c.map fun x => (f x.1, x.2)) = (ofContents c).rename f := by
  have hshape : (c.map fun x => (f x.1, x.2)).number = c.number.map (Node.rename f) := by
    simp only [Rooted.number, Rooted.map, Forest.number_rename]
    rfl
  have hcongr : ∀ {r r' : Rooted Node} (hr : r.Numbered) (hr' : r'.Numbered), r = r' →
      ofShape r hr none = ofShape r' hr' none := by
    rintro r _ hr hr' rfl
    rfl
  exact hcongr _ _ hshape

/-! ### Label rules -/

/-- The rules for renamed kinds. -/
def LabelRules.rename (r : LabelRules) : LabelRules where
  comparisons := .ofList (r.comparisons.toList.map fun x => (f x.1, x.2))
  identifierKind := r.identifierKind.map f
  rootKind := r.rootKind.map f
  classKind := r.classKind.map f
  qualifierKind := r.qualifierKind.map f
  basicKind := r.basicKind.map f

/-- Labels of a renamed kind are compared like those of the kind itself.

**Proof sketch.** The renamed rules have the renamed kinds as keys.  These are distinct since
renaming is injective, so that the look-up finds the comparison of the kind itself, if there is
one. -/
@[simp] lemma LabelRules.comparison_rename (r : LabelRules) (k : Kind) :
    (r.rename f).comparison (f k) = r.comparison k := by
  have hget : (r.rename f).comparisons[f k]? = r.comparisons[k]? := by
    cases hk : r.comparisons[k]? with
    | some c =>
      have hmem := Std.HashMap.mem_toList_iff_getElem?_eq_some.2 hk
      refine Std.HashMap.getElem?_ofList_of_mem (beq_self_eq_true (f k)) ?_
        (List.mem_map.2 ⟨(k, c), hmem, rfl⟩)
      rw [List.pairwise_map]
      exact Std.HashMap.distinct_keys_toList.imp fun h => by simpa using h
    | none =>
      refine Std.HashMap.getElem?_ofList_of_contains_eq_false (Bool.eq_false_iff.2 fun hc => ?_)
      rw [List.contains_iff_mem, List.map_map, List.mem_map] at hc
      obtain ⟨⟨k', c⟩, hmem, hk'⟩ := hc
      -- no other kind has been renamed to this one
      obtain rfl : k' = k := f.injective hk'
      rw [Std.HashMap.mem_toList_iff_getElem?_eq_some, hk] at hmem
      cases hmem
  rw [comparison, comparison, hget]

namespace LabelComparer

/-- The comparer for renamed kinds. -/
def rename (c : LabelComparer) : LabelComparer := { c with rules := c.rules.rename f }

/-- Labels of renamed kinds are compared by the renamed rules as they were before. -/
@[simp] lemma compare_rename (c : LabelComparer) (place : Place) (k k' : Kind) (a b : String) :
    (c.rename f).compare place (f k) a (f k') b = c.compare place k a k' b := by
  simp only [compare, f.injective.eq_iff, rename, LabelRules.comparison_rename]
  cases c.rules.comparison k <;> rfl

/-- The same holds with a memo, which is left in the same state. -/
@[simp] lemma compareMemo_rename (c : LabelComparer) (place : Place) (k k' : Kind) (a b : String)
    (memo : Memo) :
    (c.rename f).compareMemo place (f k) a (f k') b memo = c.compareMemo place k a k' b memo := by
  simp only [compareMemo, f.injective.eq_iff, rename, LabelRules.comparison_rename]
  cases c.rules.comparison k <;> rfl

end LabelComparer

/-! ### Tasks -/

/-- The task with all kinds renamed, those of the label rules included. -/
def Task.rename (task : Task) : Task where
  src := task.src.rename f
  dst := task.dst.rename f
  settings := task.settings
  rules := task.rules.rename f
  readLabel := task.readLabel
  threads := task.threads

namespace Task

variable (task : Task)

/-- The source tree of a renamed task. -/
@[simp] lemma src_rename : (task.rename f).src = task.src.rename f := rfl

/-- The destination tree of a renamed task. -/
@[simp] lemma dst_rename : (task.rename f).dst = task.dst.rename f := rfl

/-- A renamed task has the same settings. -/
@[simp] lemma settings_rename : (task.rename f).settings = task.settings := rfl

/-- The label rules of a renamed task. -/
@[simp] lemma rules_rename : (task.rename f).rules = task.rules.rename f := rfl

/-- Labels are read in the same way for a renamed task. -/
@[simp] lemma readLabel_rename : (task.rename f).readLabel = task.readLabel := rfl

/-- A renamed task is split into equally many parts. -/
@[simp] lemma shardCount_rename : (task.rename f).shardCount = task.shardCount := rfl

end Task

/-! ### Names of kinds -/

namespace KindTable

variable {t t' : KindTable}

/-- Every name of the table stands there once, the table knows the kinds of these names and of no
others, and as long as there are enough numbers, each kind counts the place of its name. -/
structure Exact (t : KindTable) : Prop where
  nodup : t.names.toList.Nodup
  known : ∀ name, (∃ k, t.get? name = some k) ↔ name ∈ t.names.toList
  place : t.names.size ≤ 2 ^ 32 → ∀ name k, t.get? name = some k → t.name? k = some name

/-- The table without names is exact. -/
lemma exact_empty : empty.Exact := by
  refine ⟨List.nodup_nil, fun name => ?_, fun _ name k h => ?_⟩
  · simp [empty, get?]
  · simp [empty, get?] at h

/-- Meeting a name keeps a table exact.

**Proof sketch.** A known name changes nothing.  A new one gets the next number: the list of names
is longer by this name, which was not in it, and the look-up has changed for this name only.  The
number can be stored as long as the table is not too large. -/
lemma Exact.intern (h : t.Exact) (name : String) : (t.intern name).2.Exact := by
  cases hname : t.get? name with
  | some k =>
    rw [intern_of_get?_eq_some hname]
    exact h
  | none =>
    -- an unknown name is not in the list, and it gets the next number
    have hnew : name ∉ t.names.toList := fun hmem => by
      obtain ⟨k, hk⟩ := (h.known name).2 hmem
      rw [hname] at hk
      cases hk
    have hget : ∀ other, (t.intern name).2.get? other =
        if name = other then some ⟨UInt32.ofNat t.names.size⟩ else t.get? other := by
      intro other
      simp only [KindTable.intern, hname]
      simp only [get?, Std.HashMap.getElem?_insert, beq_iff_eq]
    have hnames : (t.intern name).2.names = t.names.push name := by
      simp [KindTable.intern, hname]
    refine ⟨?_, fun other => ?_, fun hsize other k hk => ?_⟩
    · rw [hnames, Array.toList_push]
      exact List.nodup_append.2 ⟨h.nodup, List.nodup_singleton name, by
        rintro a ha b hb rfl
        rw [List.mem_singleton.1 hb] at ha
        exact hnew ha⟩
    · rw [hget, hnames, Array.toList_push, List.mem_append, List.mem_singleton, ← h.known]
      split
      · next heq => simp [heq]
      · next hne => simp [Ne.symm hne]
    · rw [hnames, Array.size_push] at hsize
      rw [hget] at hk
      simp only [name?, hnames, Array.getElem?_push]
      split at hk
      · next heq =>
        cases hk
        have hlast : (UInt32.ofNat t.names.size).toNat = t.names.size :=
          UInt32.toNat_ofNat_of_lt' (by unfold UInt32.size; omega)
        rw [if_pos hlast, heq]
      · have hold := h.place (by omega) other k hk
        have hlt := (Array.getElem?_eq_some_iff.1 hold).1
        rw [if_neg hlt.ne]
        exact hold

/-- Meeting several names keeps a table exact. -/
lemma Exact.internAll (h : t.Exact) (names : List String) : (t.internAll names).Exact := by
  induction names generalizing t with
  | nil => exact h
  | cons name names ih => exact ih (h.intern name)

/-- A table knows the names it has met.

**Proof sketch.** Induction on the names.  Meeting one of them adds it to those that are known,
unless it was known before. -/
lemma Exact.mem_names_internAll (h : t.Exact) {names : List String} {name : String} :
    name ∈ (t.internAll names).names.toList ↔ name ∈ t.names.toList ∨ name ∈ names := by
  induction names generalizing t with
  | nil =>
    change name ∈ t.names.toList ↔ _
    simp
  | cons other names ih =>
    change name ∈ ((t.intern other).2.internAll names).names.toList ↔ _
    have hother : name ∈ (t.intern other).2.names.toList ↔
        name ∈ t.names.toList ∨ name = other := by
      cases hget : t.get? other with
      | some k =>
        rw [intern_of_get?_eq_some hget]
        refine ⟨.inl, fun hmem => hmem.elim (fun hmem => hmem) ?_⟩
        rintro rfl
        exact (h.known name).1 ⟨k, hget⟩
      | none => simp [KindTable.intern, hget]
    rw [ih (h.intern other), hother, List.mem_cons, or_assoc]

/-- **Tables that know the same names differ by a renaming of kinds.**

**Proof sketch.** Both tables give different names different kinds, so going from the kind of a name
in the one table to its kind in the other is injective on the kinds in use.  There are finitely many
kinds, so this extends to all of them. -/
lemma Exact.exists_rename (h : t.Exact) (h' : t'.Exact) (hsize : t.names.size ≤ 2 ^ 32)
    (hnames : ∀ name, name ∈ t.names.toList ↔ name ∈ t'.names.toList) :
    ∃ f : Kind ↪ Kind, ∀ name, t'.get? name = (t.get? name).map f := by
  classical
  have hsize' : t'.names.size ≤ 2 ^ 32 := by
    have hperm := (List.perm_ext_iff_of_nodup h.nodup h'.nodup).2 hnames
    rw [← Array.length_toList, ← hperm.length_eq, Array.length_toList]
    exact hsize
  let _ : Fintype Kind := Fintype.ofInjective
    (fun k : Kind => (⟨k.tag.toNat, k.tag.toNat_lt⟩ : Fin (2 ^ 32))) fun a b hab => by
      cases a
      cases b
      exact congrArg Kind.mk (UInt32.toNat_inj.1 (Fin.val_eq_of_eq hab))
  let used : Finset Kind := Finset.univ.filter fun k => ∃ name, t.get? name = some k
  let translate (k : Kind) : Kind := ((t.name? k).bind t'.get?).getD default
  have hboth : ∀ name k, t.get? name = some k →
      t'.get? name = some (translate k) := by
    intro name k hk
    obtain ⟨k', hk'⟩ := (h'.known name).2 ((hnames name).1 ((h.known name).1 ⟨k, hk⟩))
    simp only [translate, h.place hsize name k hk, Option.bind_some, hk', Option.getD_some]
  have hinj : Set.InjOn translate used := by
    intro k hk k' hk' heq
    obtain ⟨name, hname⟩ := (Finset.mem_filter.1 hk).2
    obtain ⟨name', hname'⟩ := (Finset.mem_filter.1 hk').2
    have h1 := h'.place hsize' _ _ (hboth name k hname)
    have h2 := h'.place hsize' _ _ (hboth name' k' hname')
    rw [heq, h2, Option.some.injEq] at h1
    rw [← h1, hname', Option.some.injEq] at hname
    exact hname.symm
  obtain ⟨g, hg⟩ := Finset.exists_equiv_extend_of_card_eq (t := Finset.univ) rfl
    (Finset.subset_univ _) hinj
  refine ⟨⟨fun k => g k, fun a b hab => g.injective (Subtype.ext hab)⟩, fun name => ?_⟩
  cases hname : t.get? name with
  | some k =>
    have hk : k ∈ used := Finset.mem_filter.2 ⟨Finset.mem_univ k, name, hname⟩
    rw [hboth name k hname, Option.map_some]
    exact congrArg some (hg k hk).symm
  | none =>
    refine Option.eq_none_iff_forall_ne_some.2 fun k' hk' => ?_
    obtain ⟨k, hk⟩ := (h.known name).2 ((hnames name).2 ((h'.known name).1 ⟨k', hk'⟩))
    rw [hname] at hk
    cases hk

/-- A table that has met names knows these and no others. -/
lemma mem_names_internAll {names : List String} {name : String} :
    name ∈ (empty.internAll names).names.toList ↔ name ∈ names := by
  rw [exact_empty.mem_names_internAll]
  exact or_iff_right List.not_mem_nil

/-- **The order in which names are met is a matter of renaming**, if there are enough numbers. -/
theorem exists_rename_internAll {names names' : List String}
    (hsame : ∀ name, name ∈ names ↔ name ∈ names') (hcard : names.toFinset.card ≤ 2 ^ 32) :
    ∃ f : Kind ↪ Kind, ∀ name,
      (empty.internAll names').get? name = ((empty.internAll names).get? name).map f := by
  have h := exact_empty.internAll names
  refine h.exists_rename (exact_empty.internAll names') ?_ fun name => ?_
  · have hfinset : (empty.internAll names).names.toList.toFinset = names.toFinset := by
      ext name
      rw [List.mem_toFinset, List.mem_toFinset, mem_names_internAll]
    rwa [← Array.length_toList, ← List.toFinset_card_of_nodup h.nodup, hfinset]
  · rw [mem_names_internAll, mem_names_internAll, hsame]

end KindTable

end TreeMatching
