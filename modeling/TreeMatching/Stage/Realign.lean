import TreeMatching.Alignment
import TreeMatching.Matching

/-!
# Realignment below linked nodes

A free node below a linked one may belong to a node below the partner.  For the nearest linked
ancestor of each free node the nodes of the two subtrees are aligned in post-order, and free nodes
that are aligned with each other are linked.  This is repeated as long as it links anything.

## Main definitions

* `Realign.anchor?` — the nearest linked ancestor and its partner.
* `Realign.aligns` — when two nodes may be aligned.
* `Realign.realign` — realigns one pair of subtrees.
* `Realign.pass`, `Realign.passes`, `Realign.run` — one pass, several passes, the stage.
-/

set_option autoImplicit false

namespace TreeMatching.Realign

/-- The nearest linked ancestor of a source node with its partner.  If no ancestor is linked, the
two roots stand in; the root itself has no ancestor. -/
def anchor? (task : Task) (p : Pairing) (node : NodeId) : Option Pair :=
  let above := task.src.ancestors node
  (above.findSome? fun a => (p.dst? a).map fun b => (⟨a, b⟩ : Pair))
    <|> above.getLast?.map fun a => ⟨a, task.dst.root⟩

/-- Two nodes may be aligned if they have the same kind and are linked to each other or both
free. -/
def aligns (task : Task) (p : Pairing) (a b : NodeId) : Bool :=
  task.src.sameKind task.dst a b && (p.has a b || p.bothFree a b)

/-- The free pairs on a longest alignment of the subtrees at two nodes; none if the subtrees are
too large. -/
def alignment (task : Task) (p : Pairing) (x : Pair) : List (NodeId × NodeId) :=
  let as := task.src.subtreePostOrder x.src
  let bs := task.dst.subtreePostOrder x.dst
  if task.settings.cellLimit < as.length * bs.length then []
  else Alignment.longest (aligns task p) as bs

/-- Links two nodes if both are free, and returns how many links that made. -/
def linkCounting (a b : NodeId) : Matching Nat := do
  if (← Matching.pairing).bothFree a b then
    Matching.link a b
    return 1
  else
    return 0

/-- Realigns the subtrees at two nodes and returns the number of new links. -/
def realign (task : Task) (x : Pair) : Matching Nat := do
  let found := alignment task (← Matching.pairing) x
  found.foldlM (fun added (a, b) => return added + (← linkCounting a b)) 0

/-- Deals with one free source node: its nearest linked ancestor is realigned, unless that has been
done in this pass.  `visited` are the ancestors that were dealt with, `added` is the number of new
links so far. -/
def consider (task : Task) (visited : List NodeId) (added : Nat) (node : NodeId) :
    Matching (List NodeId × Nat) := do
  let p ← Matching.pairing
  if p.hasSrc node then
    return (visited, added)
  else
    match anchor? task p node with
    | none => return (visited, added)
    | some x =>
      if visited.contains x.src then
        return (visited, added)
      else
        return (x.src :: visited, added + (← realign task x))

/-- One pass over the source nodes that are free at its beginning, in post-order; returns the
number of new links. -/
def pass (task : Task) : Matching Nat := do
  let p ← Matching.pairing
  let free := task.src.postOrder.filter fun n => !p.hasSrc n
  let (_, added) ← free.foldlM (fun state node => consider task state.1 state.2 node) ([], 0)
  return added

/-- Passes until one makes no new link, but at most `limit` of them; returns their number. -/
def passes (task : Task) : Nat → Matching Nat
  | 0 => return 0
  | limit + 1 => do
    if (← pass task) = 0 then return 1
    else return (← passes task limit) + 1

/-- Realigns free nodes below linked nodes.  Each pass but the last links one of the free source
nodes, which bounds the number of passes. -/
def run (task : Task) : Matching Unit := do
  let p ← Matching.pairing
  let _ ← passes task ((task.src.postOrder.filter fun n => !p.hasSrc n).length + 1)

end TreeMatching.Realign
