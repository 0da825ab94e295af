import TreeMatching.Matching

/-!
# The first inner node that fits

Inner nodes are paired by the share of their descendants that are already linked to each other.
Source nodes are taken in post-order, and each takes the first destination node, in post-order,
that passes the threshold; a better one further on is never considered.

## Main definitions

* `FirstFit.eligible` — the destination nodes that are tried.
* `FirstFit.settle` — finds a partner for one source node.
* `FirstFit.run` — the stage.
-/

set_option autoImplicit false

namespace TreeMatching.FirstFit

/-- The free inner destination nodes of the kind of `a`, in post-order. -/
def eligible (task : Task) (p : Pairing) (a : NodeId) : List NodeId :=
  task.dst.postOrder.filter fun b =>
    !task.dst.isLeaf b && !p.hasDst b && task.src.sameKind task.dst a b

/-- Whether the subtrees at two nodes overlap enough. -/
def fits (task : Task) (p : Pairing) (a b : NodeId) : Bool :=
  (BottomUpThresholds.ofSettings task.settings).accepts (task.src.leafCount a)
    (Overlap.between task.src task.dst p a b).chawathe.value

/-- Links a free inner source node to the first node that fits.  The nodes up to that one are
evaluated. -/
def settle (task : Task) (a : NodeId) : Matching Unit := do
  let p ← Matching.pairing
  if !task.src.isLeaf a && !p.hasSrc a then
    let nodes := eligible task p a
    Matching.tally (min nodes.length (nodes.findIdx (fits task p a) + 1))
    if let some b := nodes.find? (fits task p a) then
      Matching.link a b

/-- Links inner nodes to the first partner that fits. -/
def run (task : Task) : Matching Unit := task.src.postOrder.forM (settle task)

end TreeMatching.FirstFit
