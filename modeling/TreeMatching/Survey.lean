import TreeMatching.Node

/-!
# Surveying a tree

A survey walks once through a tree and writes down, for every node, where it stands and how large
the subtree under it is.  The entries are then laid out in tables, so that any fact about a node is
one look-up away.

## Main definitions

* `Entry` — what the survey knows about one node.
* `Forest.survey` — the walk.
* `scatter` — lays items out in a table, each at the place it asks for.
* `Index`, `Rooted.index` — the tables of a tree.

## Design

The walk hands the place of a node down (its parent, depth, sibling position and pre-order index)
and the extent of a forest up (`Extent`), so one recursion suffices.  The post-order index is not
counted but computed: a node is preceded in post-order by its descendants and by those of its
pre-order predecessors that are not its ancestors, which makes `pre + size - 1 - depth` nodes.
-/

set_option autoImplicit false

namespace TreeMatching

universe u v

/-- What is known about a node of a tree. -/
structure Entry where
  /-- The node itself. -/
  node : Node
  /-- Everything under the node. -/
  below : Forest Node
  /-- The node right above, except for the root. -/
  parent : Option NodeId
  /-- The number of siblings to the left. -/
  position : Nat
  /-- The distance from the root. -/
  depth : Nat
  /-- The number of nodes of the subtree. -/
  size : Nat
  /-- The number of levels below the node. -/
  height : Nat
  /-- The number of leaves strictly below the node. -/
  leaves : Nat
  /-- The number of nodes before this one in pre-order. -/
  pre : Nat
  /-- The number of nodes before this one in post-order. -/
  post : Nat
deriving Inhabited

/-- The extent of a forest: its number of nodes, levels and leaves. -/
structure Extent where
  size : Nat
  levels : Nat
  leaves : Nat
deriving DecidableEq, Inhabited

namespace Extent

/-- The extent of the empty forest. -/
def zero : Extent := ⟨0, 0, 0⟩

/-- The extent of a forest whose first tree has the forest of extent `below` under its root and
whose other trees have the extent `next`. -/
def node (below next : Extent) : Extent where
  size := below.size + 1 + next.size
  levels := max (below.levels + 1) next.levels
  leaves := (if below.size = 0 then 1 else below.leaves) + next.leaves

end Extent

/-- Walks through a forest whose roots have the given parent and depth; the first root has the
given sibling position and pre-order index.  The entries are added in the order in which the walk
leaves the nodes, and the extent of the forest is returned with them. -/
def Forest.survey : Forest Node → Option NodeId → Nat → Nat → Nat → Array Entry →
    Array Entry × Extent
  | .nil, _, _, _, _, entries => (entries, .zero)
  | .node n below next, parent, depth, position, pre, entries =>
    let (entries, under) := below.survey (some n.id) (depth + 1) 0 (pre + 1) entries
    let size := under.size + 1
    let entry : Entry :=
      { node := n, below, parent, position, depth, size
        height := under.levels
        leaves := under.leaves
        pre
        post := pre + size - 1 - depth }
    let (entries, beside) :=
      next.survey parent depth (position + 1) (pre + size) (entries.push entry)
    (entries, .node under beside)

/-- A table of `n` places in which every item stands at the place it asks for; places that nobody
asks for hold `fill`. -/
def scatter {α : Type u} {β : Type v} (fill : β) (n : Nat) (place : α → Nat) (value : α → β)
    (items : Array α) : Array β :=
  items.foldl (fun table x => table.setIfInBounds (place x) (value x)) (Array.replicate n fill)

/-- The tables of a tree. -/
structure Index where
  /-- The entry of each node, at the place of its number. -/
  entries : Array (Option Entry)
  /-- The node numbers in pre-order. -/
  preOrder : Array NodeId
  /-- The node numbers in post-order. -/
  postOrder : Array NodeId
deriving Inhabited

/-- Surveys a tree and lays the entries out in tables. -/
def Rooted.index (t : Rooted Node) : Index :=
  let found := (t.toForest.survey none 0 0 0 #[]).1
  { entries := scatter none (t.size + 1) (fun e => e.node.id) some found
    preOrder := scatter t.root.id t.size Entry.pre (fun e => e.node.id) found
    postOrder := scatter t.root.id t.size Entry.post (fun e => e.node.id) found }

end TreeMatching
