import TreeMatching.Tree

/-!
# Numbering a tree for the edit distance

The nodes of a tree are numbered `1, …, n` in post-order.  The subtree at node `i` then consists of
consecutive numbers ending with `i`; the first of them, `first i`, belongs to its leftmost leaf.  A
*keyroot* is a node that is the last one with its value of `first`: the tables of a pair of
keyroots contain those of all nodes on the leftmost paths below them.

## Main definitions

* `Forest.steps` — the nodes in post-order, each with the number of its descendants.
* `Numbering`, `Numbering.ofTree` — the numbering of a tree.
* `Numbering.first`, `Numbering.keyroots`, `Numbering.weight`.
-/

set_option autoImplicit false

namespace TreeMatching

/-- A node with the number of its descendants. -/
structure Step where
  node : Node
  descendants : Nat
deriving Inhabited

/-- Adds the nodes of a forest in post-order, each with the number of its descendants, and returns
the size of the forest with them. -/
def Forest.steps : Forest Node → Array Step → Array Step × Nat
  | .nil, steps => (steps, 0)
  | .node n below next, steps =>
    let (steps, under) := below.steps steps
    let (steps, beside) := next.steps (steps.push ⟨n, under⟩)
    (steps, under + 1 + beside)

/-- The nodes of a tree in post-order; node `i` stands at place `i - 1`. -/
structure Numbering where
  steps : Array Step
deriving Inhabited

namespace Numbering

/-- The numbering of a tree. -/
def ofTree (t : Rooted Node) : Numbering := ⟨(t.toForest.steps #[]).1⟩

/-- The number of nodes. -/
def size (a : Numbering) : Nat := a.steps.size

/-- The step of node number `i`. -/
def step (a : Numbering) (i : Nat) : Step := a.steps.getD (i - 1) default

/-- Node number `i`. -/
def node (a : Numbering) (i : Nat) : Node := (a.step i).node

/-- The smallest number in the subtree at node `i`. -/
def first (a : Numbering) (i : Nat) : Nat := i - (a.step i).descendants

/-- A subtree begins at or before its root. -/
theorem first_le (a : Numbering) (i : Nat) : a.first i ≤ i := Nat.sub_le _ _

/-- Collects the keyroots among the numbers up to `i`, given the values of `first` for which a
larger keyroot is known, in front of those. -/
def collectKeyroots (a : Numbering) : Nat → List Nat → List Nat → List Nat
  | 0, _, keyroots => keyroots
  | i + 1, seen, keyroots =>
    let f := a.first (i + 1)
    if seen.contains f then a.collectKeyroots i seen keyroots
    else a.collectKeyroots i (f :: seen) ((i + 1) :: keyroots)

/-- The keyroots in increasing order. -/
def keyroots (a : Numbering) : List Nat := a.collectKeyroots a.size [] []

/-- The sum of the sizes of the subtrees at the keyroots: the number of table rows that are
computed. -/
def weight (a : Numbering) : Nat := a.keyroots.foldl (fun n k => n + (k - a.first k + 1)) 0

end Numbering

end TreeMatching
