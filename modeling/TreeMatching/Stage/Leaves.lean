import TreeMatching.LeafScan

/-!
# Leaves with similar labels

Leaves of the same kind whose labels have enough trigrams in common are paired, the most similar
ones first.  The scan can be split into parts, which changes nothing about its result.

## Main definitions

* `Leaves.scan` — how pairs of leaves are judged.
* `Leaves.candidates`, `Leaves.candidatesSharded` — the pairs that are similar enough.
* `Leaves.run`, `Leaves.runSharded` — the stage, in one go and in parts.
-/

set_option autoImplicit false

namespace TreeMatching.Leaves

/-- Pairs of leaves are judged by a measure of their labels, which has to exceed the threshold. -/
def scan (measure : String → String → Float) (task : Task) (p : Pairing) : LeafScan :=
  .ofFree task.src task.dst p fun _ b label memo =>
    let other := task.dst.label b
    let (x, memo) := memo.fetch label other fun _ => measure label other
    (if task.settings.leafThreshold < x then some (.ofFloat x) else none, memo)

/-- Labels are compared by their trigrams. -/
def measure : String → String → Float := GramMeasure.trigrams.similarity

/-- The pairs of leaves that are similar enough. -/
def candidates (task : Task) (p : Pairing) : List Candidate := (scan measure task p).sequential

/-- The same pairs, found in `w` parts. -/
def candidatesSharded (task : Task) (p : Pairing) (w : Nat) : Except Fault (List Candidate) :=
  (scan measure task p).sharded task.readLabel w

/-- Links leaves with similar labels. -/
def run (task : Task) : Matching Unit := do
  chooseGreedily (candidates task (← Matching.pairing))

/-- Links leaves with similar labels; the scan is split into parts. -/
def runSharded (task : Task) : Matching Unit := do
  match candidatesSharded task (← Matching.pairing) task.shardCount with
  | .ok found => chooseGreedily found
  | .error fault => throw fault

end TreeMatching.Leaves
