import TreeMatching.Matching

/-!
# Identical subtrees

Subtrees that occur in both trees are linked as a whole, node by node.  Equal subtrees are dealt
with together, the highest first, so that a subtree is linked before its parts are considered on
their own; the occurrences on both sides are paired in pre-order.

## Main definitions

* `Identical.representatives` — the subtrees that occur on both sides, one node for each.
* `Identical.linkOccurrences` — pairs the occurrences of one subtree.
* `Identical.run` — the stage.
-/

set_option autoImplicit false

namespace TreeMatching.Identical

/-- Whether no node of the subtree at `a` has a partner, on the source side. -/
def srcUntouched (t : Tree) (p : Pairing) (a : NodeId) : Bool :=
  !p.hasSrc a && (t.descendants a).all fun n => !p.hasSrc n

/-- Whether no node of the subtree at `b` has a partner, on the destination side. -/
def dstUntouched (t : Tree) (p : Pairing) (b : NodeId) : Bool :=
  !p.hasDst b && (t.descendants b).all fun n => !p.hasDst n

/-- The source nodes without a partner whose subtree is also that of a destination node without a
partner, in pre-order. -/
def shared (task : Task) (p : Pairing) : List NodeId :=
  let free := task.dst.preOrder.filter fun d => !p.hasDst d
  task.src.preOrder.filter fun s =>
    !p.hasSrc s && free.any fun d => task.src.sameSubtree task.dst s d

/-- The first node for each subtree among the given nodes. -/
def firsts (t : Tree) (nodes : List NodeId) : List NodeId :=
  nodes.foldl (fun kept s => if kept.any fun r => t.sameSubtree t r s then kept else kept ++ [s]) []

/-- One node for each subtree that occurs on both sides, highest subtrees first and those of equal
height in pre-order. -/
def representatives (task : Task) (p : Pairing) : List NodeId :=
  (firsts task.src (shared task p)).mergeSort fun a b => task.src.height b ≤ task.src.height a

/-- Links two forests of the same shape node by node. -/
def linkForests : Forest Node → Forest Node → Matching Unit
  | .node a below next, .node b below' next' => do
    Matching.link a.id b.id
    linkForests below below'
    linkForests next next'
  | _, _ => pure ()

/-- Links two trees of the same shape node by node. -/
def linkTrees (s t : Rooted Node) : Matching Unit := do
  Matching.link s.root.id t.root.id
  linkForests s.below t.below

/-- Pairs the occurrences of the subtree at the source node `r`, the first with the first and so
on, leaving out those of which a part already has a partner. -/
def linkOccurrences (task : Task) (r : NodeId) : Matching Unit := do
  let p ← Matching.pairing
  let srcs := task.src.preOrder.filter fun s =>
    task.src.sameSubtree task.src r s && srcUntouched task.src p s
  let dsts := task.dst.preOrder.filter fun d =>
    task.src.sameSubtree task.dst r d && dstUntouched task.dst p d
  (srcs.zip dsts).forM fun (s, d) => linkTrees (task.src.subtree s) (task.dst.subtree d)

/-- Links identical subtrees. -/
def run (task : Task) : Matching Unit := do
  (representatives task (← Matching.pairing)).forM (linkOccurrences task)

end TreeMatching.Identical
