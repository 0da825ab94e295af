import TreeMatching.Matching

/-!
# Identical subtrees from the top down

Starting from the two roots, two nodes are compared only if their parents were.  Equal subtrees are
linked as a whole; otherwise the search goes on with those pairs of children that have the same
subtree or at least the same kind.  Low subtrees are left to other stages.

## Main definitions

* `TopDown.openChildren` — the pairs of children with which the search goes on.
* `TopDown.visit` — what is done with one pair.
* `TopDown.loop`, `TopDown.run` — the search, and the stage.

## Design

The pairs that still have to be visited are kept on a stack.  Since two nodes are compared only
after their parents, no pair is put there twice, and as many visits as there are pairs suffice.
-/

set_option autoImplicit false

namespace TreeMatching.TopDown

/-- Links two forests of the same shape node by node; a pair of which one node already has a
partner is passed over together with everything below it. -/
def linkForests : Forest Node → Forest Node → Matching Unit
  | .node a below next, .node b below' next' => do
    if (← Matching.pairing).bothFree a.id b.id then
      Matching.link a.id b.id
      linkForests below below'
    linkForests next next'
  | _, _ => pure ()

/-- Links two trees of the same shape node by node. -/
def linkTrees (s t : Rooted Node) : Matching Unit := linkForests s.toForest t.toForest

/-- The pairs of children of `a` and `b` that have the same subtree or the same kind and of which
the second is free. -/
def openChildren (task : Task) (p : Pairing) (a b : NodeId) : List Pair :=
  (task.src.children a).flatMap fun x =>
    ((task.dst.children b).filter fun y =>
      !p.hasDst y && (task.src.sameSubtree task.dst x y || task.src.sameKind task.dst x y)).map
        fun y => ⟨x, y⟩

/-- Looks at one pair and returns the pairs with which the search goes on. -/
def visit (task : Task) (x : Pair) : Matching (List Pair) := do
  let p ← Matching.pairing
  if !p.bothFree x.src x.dst || task.src.height x.src < task.settings.minHeight then
    return []
  else if task.src.sameSubtree task.dst x.src x.dst then
    linkTrees (task.src.subtree x.src) (task.dst.subtree x.dst)
    return []
  else
    return openChildren task p x.src x.dst

/-- Visits the pairs of a stack, the last one added first, at most `steps` of them; returns the
pairs that are left. -/
def loop (task : Task) : Nat → List Pair → Matching (List Pair)
  | 0, stack => return stack
  | _, [] => return []
  | steps + 1, x :: stack => do
    let added ← visit task x
    loop task steps (added.reverse ++ stack)

/-- Links identical subtrees from the top down. -/
def run (task : Task) : Matching Unit := do
  let _ ← loop task (task.src.count * task.dst.count) [⟨task.src.root, task.dst.root⟩]

end TreeMatching.TopDown
