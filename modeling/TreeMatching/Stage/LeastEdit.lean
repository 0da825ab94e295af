import TreeMatching.EditDistance.Script
import TreeMatching.Matching

/-!
# Linking by an optimal edit script

The nodes that an optimal edit script turns into each other are linked, as far as they are of the
same kind and free.

## Main definitions

* `LeastEdit.run` — the stage; it fails, before it links anything, if the trees are too large.
-/

set_option autoImplicit false

namespace TreeMatching.LeastEdit

/-- Links two nodes if they are of the same kind and free. -/
def linkAligned (task : Task) (a b : NodeId) : Matching Unit := do
  if task.src.sameKind task.dst a b then Matching.linkIfFree a b

/-- Links the nodes that an optimal edit script turns into each other. -/
def run (task : Task) : Matching Unit :=
  match EditDistance.prepare task.src task.dst task.settings.cellLimit with
  | .error fault => throw fault
  | .ok (a, b) =>
    (Script.mapping a b task.settings.relabelCost).forM fun (s, d) => linkAligned task s d

end TreeMatching.LeastEdit
