import TreeMatching.Label.Comparer
import TreeMatching.Overlap
import TreeMatching.Settings

/-!
# Matching computations

A matching stage looks at two trees and changes a pairing of their nodes step by step.  It may
stop with a fault; the pairing then stays as the stage left it.

## Main definitions

* `Task` — the two trees and everything else a stage may look at.
* `Task.shardCount` — the number of parts into which a divided stage is split.
* `Progress` — the pairing, and how many overlaps have been computed for it.
* `Matching` — computations that change the progress and may fail.
* `Matching.link`, `Matching.unlink`, `Matching.linkIfFree`, `Matching.tally` — its operations.
-/

set_option autoImplicit false

namespace TreeMatching

/-- What the stages work on.  `readLabel` reads the label of a source node; a stage that is split
into parts survives a reader that fails, and reports the text of the failure, if there is one.
`threads` is the number of threads at hand. -/
structure Task where
  src : Tree
  dst : Tree
  settings : Settings := {}
  rules : LabelRules := {}
  readLabel : NodeId → Except (Option String) String := fun id => .ok (src.label id)
  threads : Nat := 1

/-- The number of parts into which a divided stage is split. -/
def Task.shardCount (task : Task) : Nat := task.settings.shardCount task.threads

/-- What has been achieved: the pairing, and the number of overlaps that were computed. -/
structure Progress where
  pairing : Pairing
  evaluations : Nat := 0

/-- A computation that changes the progress and may fail; on failure the changes made before
remain. -/
abbrev Matching := EStateM Fault Progress

namespace Matching

/-- The pairing at this moment. -/
def pairing : Matching Pairing := return (← get).pairing

/-- Changes the pairing by an operation that may fail. -/
def update (change : Pairing → Except Fault Pairing) : Matching Unit := do
  let progress ← get
  match change progress.pairing with
  | .ok pairing => set { progress with pairing }
  | .error fault => throw fault

/-- Links two nodes. -/
def link (src dst : NodeId) : Matching Unit := update (·.link src dst)

/-- Undoes a link. -/
def unlink (src dst : NodeId) : Matching Unit := update (·.unlink src dst)

/-- Links two nodes if both are free. -/
def linkIfFree (src dst : NodeId) : Matching Unit := do
  if (← pairing).bothFree src dst then link src dst

/-- Undoes a link if it is there. -/
def unlinkIfLinked (src dst : NodeId) : Matching Unit := do
  if (← pairing).has src dst then unlink src dst

/-- Notes that overlaps have been computed. -/
def tally (evaluations : Nat) : Matching Unit :=
  modify fun progress => { progress with evaluations := progress.evaluations + evaluations }

end Matching

end TreeMatching
