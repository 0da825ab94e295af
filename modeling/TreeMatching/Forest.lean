/-!
# Ordered forests

An ordered forest is a finite sequence of trees; each tree is a value with a forest below it.
The type `Forest` is built from the empty forest and from a first tree followed by the rest, so
every function on it is an ordinary structural recursion with two recursive calls: one into the
trees below the first root, one along its right siblings.

## Main definitions

* `Forest` — the type; `Forest.append`, `Forest.map`, `Forest.flip`.
* `Forest.size`, `Forest.levels`, `Forest.leaves` — node count, number of levels, leaf count.
* `Forest.roots`, `Forest.preOrder`, `Forest.postOrder`, `Forest.breadthFirst` — traversals.
* `Rooted` — a single tree: a root over a forest.

## Design

Traversals are lists and not iterators: a traversal is the view through which every other function
of the library is described.  Each of them visits every node once (`length_preOrder`,
`postOrder_perm_preOrder`).
-/

set_option autoImplicit false

namespace TreeMatching

universe u v w

/-- A finite ordered forest with a value at every node: either empty, or a first tree, given by
its root value and the forest `below` it, followed by the trees `next` to it. -/
inductive Forest (α : Type u) where
  | nil : Forest α
  | node (value : α) (below : Forest α) (next : Forest α) : Forest α
deriving DecidableEq, Inhabited

namespace Forest

variable {α : Type u} {β : Type v}

/-! ### Measures -/

/-- The number of nodes. -/
def size : Forest α → Nat
  | nil => 0
  | node _ below next => below.size + 1 + next.size

/-- The number of levels: `0` for the empty forest, `1` if all trees are single nodes. -/
def levels : Forest α → Nat
  | nil => 0
  | node _ below next => max (below.levels + 1) next.levels

/-- Whether there is no tree at all. -/
def isEmpty : Forest α → Bool
  | nil => true
  | node .. => false

/-- The number of nodes that have nothing below them. -/
def leaves : Forest α → Nat
  | nil => 0
  | node _ below next => (if below.isEmpty then 1 else below.leaves) + next.leaves

/-! ### Traversals -/

/-- The root values, left to right. -/
def roots : Forest α → List α
  | nil => []
  | node a _ next => a :: next.roots

/-- All values, each before everything below it and before its right siblings. -/
def preOrder : Forest α → List α
  | nil => []
  | node a below next => a :: (below.preOrder ++ next.preOrder)

/-- All values, each after everything below it and before its right siblings. -/
def postOrder : Forest α → List α
  | nil => []
  | node a below next => below.postOrder ++ a :: next.postOrder

/-- Joins two lists of levels level by level. -/
def joinLevels : List (List α) → List (List α) → List (List α)
  | [], ys => ys
  | xs, [] => xs
  | x :: xs, y :: ys => (x ++ y) :: joinLevels xs ys

/-- The values level by level, each level from left to right. -/
def byLevel : Forest α → List (List α)
  | nil => []
  | node a below next => joinLevels ([a] :: below.byLevel) next.byLevel

/-- All values, upper levels first and each level from left to right. -/
def breadthFirst (f : Forest α) : List α := f.byLevel.flatten

/-! ### Construction -/

/-- The trees of the first forest followed by those of the second. -/
def append : Forest α → Forest α → Forest α
  | nil, g => g
  | node a below next, g => node a below (next.append g)

/-- The forest of one node. -/
def leaf (a : α) : Forest α := node a nil nil

/-- Replaces every value and keeps the shape. -/
def map (f : α → β) : Forest α → Forest β
  | nil => nil
  | node a below next => node (f a) (below.map f) (next.map f)

/-- Puts the flipped first forest in front of the second. -/
def flipOnto : Forest α → Forest α → Forest α
  | nil, acc => acc
  | node a below next, acc => next.flipOnto (node a (below.flipOnto nil) acc)

/-- The forest with left and right exchanged: every sequence of siblings, at every level, is
reversed. -/
def flip (f : Forest α) : Forest α := f.flipOnto nil

/-! ### Basic facts -/

/-- The pre-order has one entry for each node. -/
@[simp]
theorem length_preOrder (f : Forest α) : f.preOrder.length = f.size := by
  induction f with
  | nil => rfl
  | node a below next ihb ihn => simp [preOrder, size, ihb, ihn]; omega

/-- The post-order has one entry for each node. -/
@[simp]
theorem length_postOrder (f : Forest α) : f.postOrder.length = f.size := by
  induction f with
  | nil => rfl
  | node a below next ihb ihn => simp [postOrder, size, ihb, ihn]; omega

/-- Both depth-first traversals visit the same nodes equally often. -/
theorem postOrder_perm_preOrder (f : Forest α) : f.postOrder.Perm f.preOrder := by
  induction f with
  | nil => exact .nil
  | node a below next ihb ihn =>
    exact List.perm_middle.trans ((ihb.append ihn).cons a)

/-- The pre-order of two forests in a row. -/
@[simp]
theorem preOrder_append (f g : Forest α) : (f.append g).preOrder = f.preOrder ++ g.preOrder := by
  induction f with
  | nil => rfl
  | node a below next _ ihn => simp [append, preOrder, ihn]

/-- Replacing the values of a forest replaces those of its pre-order. -/
@[simp]
theorem preOrder_map (h : α → β) (f : Forest α) : (f.map h).preOrder = f.preOrder.map h := by
  induction f with
  | nil => rfl
  | node a below next ihb ihn => simp [map, preOrder, ihb, ihn]

/-- Replacing values does not change the size. -/
@[simp]
theorem size_map (h : α → β) (f : Forest α) : (f.map h).size = f.size := by
  induction f with
  | nil => rfl
  | node a below next ihb ihn => simp [map, size, ihb, ihn]

/-- Replacing values replaces those of the roots. -/
@[simp]
theorem roots_map (h : α → β) (f : Forest α) : (f.map h).roots = f.roots.map h := by
  induction f with
  | nil => rfl
  | node a below next _ ihn => simp [map, roots, ihn]

/-- Replacing values does not change the number of levels. -/
@[simp]
theorem levels_map (h : α → β) (f : Forest α) : (f.map h).levels = f.levels := by
  induction f with
  | nil => rfl
  | node a below next ihb ihn => simp [map, levels, ihb, ihn]

/-- Replacing values does not change the number of leaves. -/
@[simp]
theorem leaves_map (h : α → β) (f : Forest α) : (f.map h).leaves = f.leaves := by
  have hempty : ∀ g : Forest α, (g.map h).isEmpty = g.isEmpty := fun g => by cases g <;> rfl
  induction f with
  | nil => rfl
  | node a below next ihb ihn => simp [map, leaves, hempty, ihb, ihn]

/-- Values that are replaced twice can be replaced at once. -/
theorem map_map {γ : Type w} (g : β → γ) (h : α → β) (f : Forest α) :
    (f.map h).map g = f.map fun a => g (h a) := by
  induction f with
  | nil => rfl
  | node a below next ihb ihn => simp [map, ihb, ihn]

/-- Two replacements are the same if they agree on the values of the forest. -/
theorem map_congr {g h : α → β} {f : Forest α} (heq : ∀ a ∈ f.preOrder, g a = h a) :
    f.map g = f.map h := by
  induction f with
  | nil => rfl
  | node a below next ihb ihn =>
    simp only [preOrder, List.forall_mem_cons, List.forall_mem_append] at heq
    obtain ⟨ha, hbelow, hnext⟩ := heq
    rw [map, map, ha, ihb hbelow, ihn hnext]

/-- A forest is empty exactly when it has no node. -/
theorem isEmpty_iff_size_eq_zero (f : Forest α) : f.isEmpty = true ↔ f.size = 0 := by
  cases f with
  | nil => simp [isEmpty, size]
  | node a below next => simp [isEmpty, size]

end Forest

/-- A single tree: a root value over the forest of its subtrees. -/
structure Rooted (α : Type u) where
  /-- The value at the root. -/
  root : α
  /-- Everything under the root. -/
  below : Forest α
deriving DecidableEq, Inhabited

namespace Rooted

variable {α : Type u} {β : Type v}

/-- The tree seen as a forest of one tree. -/
def toForest (t : Rooted α) : Forest α := .node t.root t.below .nil

/-- The number of nodes. -/
def size (t : Rooted α) : Nat := t.below.size + 1

/-- The root first, then everything below it. -/
def preOrder (t : Rooted α) : List α := t.root :: t.below.preOrder

/-- Replaces every value and keeps the shape. -/
def map (f : α → β) (t : Rooted α) : Rooted β := ⟨f t.root, t.below.map f⟩

/-- The tree with the children of every node in reverse order. -/
def flip (t : Rooted α) : Rooted α := ⟨t.root, t.below.flip⟩

/-- The pre-order of a tree has one entry for each node. -/
@[simp]
theorem length_preOrder (t : Rooted α) : t.preOrder.length = t.size := by
  simp [preOrder, size]

/-- Values of a tree that are replaced twice can be replaced at once. -/
theorem map_map {γ : Type w} (g : β → γ) (h : α → β) (t : Rooted α) :
    (t.map h).map g = t.map fun a => g (h a) := by
  rw [map, map, map, Forest.map_map]

/-- Two replacements are the same if they agree on the values of the tree. -/
theorem map_congr {g h : α → β} {t : Rooted α} (heq : ∀ a ∈ t.preOrder, g a = h a) :
    t.map g = t.map h := by
  obtain ⟨hroot, hbelow⟩ := List.forall_mem_cons.1 heq
  rw [map, map, hroot, Forest.map_congr hbelow]

end Rooted

end TreeMatching
