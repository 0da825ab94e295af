import TreeMatching.Candidate

/-!
# Scanning pairs of leaves

Some stages look at all pairs of a free source leaf and a free destination leaf of the same kind
and judge each pair by the labels.  The work can be split into parts: part `k` of `w` takes the
source leaves number `k`, `k + w`, `k + 2 w` and so on.

## Main definitions

* `LeafScan` — the leaves and how a pair is judged.
* `LeafScan.look`, `LeafScan.sweep` — one pair of leaves, and all pairs with some source leaves.
* `LeafScan.sequential` — all candidates, found in one go.
* `LeafScan.sharded` — all candidates, found in parts; a part can break down when a label cannot
  be read.

## Design

A sweep reads labels through a function with effects of its own: without any when the work is done
in one go, and with failures when it is done in parts.  Every part runs with a memo of its own.
The id of a candidate tells its place in the scan, so ordering by ids restores the order of the
undivided scan.
-/

set_option autoImplicit false

namespace TreeMatching

/-- The leaves to be scanned, and how a pair of leaves is judged: from the label of the source
leaf and what the memo knows, it gets a score or is dismissed. -/
structure LeafScan where
  src : Tree
  dst : Tree
  srcLeaves : List NodeId
  dstLeaves : List NodeId
  judge : NodeId → NodeId → String → Memo → Option Score × Memo

namespace LeafScan

/-- Scans the leaves that have no partner. -/
def ofFree (src dst : Tree) (p : Pairing)
    (judge : NodeId → NodeId → String → Memo → Option Score × Memo) : LeafScan where
  src := src
  dst := dst
  srcLeaves := src.leaves.filter fun a => !p.hasSrc a
  dstLeaves := dst.leaves.filter fun b => !p.hasDst b
  judge := judge

/-- What a sweep has found out so far: known similarities and candidates. -/
abbrev Sightings := Memo × Array Candidate

/-- Looks at one pair of leaves, each given with its place among all leaves of its side. -/
def look {m : Type → Type} [Monad m] (scan : LeafScan) (read : NodeId → m String)
    (x y : NodeId × Nat) (seen : Sightings) : m Sightings := do
  if scan.src.sameKind scan.dst x.1 y.1 then
    let label ← read x.1
    match scan.judge x.1 y.1 label seen.1 with
    | (some score, memo) =>
      let id := x.2 * scan.dstLeaves.length + y.2
      return (memo, seen.2.push ⟨x.1, y.1, score, id⟩)
    | (none, memo) => return (memo, seen.2)
  else
    return seen

/-- The candidates for the given source leaves, each with its place among all source leaves, in
the order of the scan. -/
def sweep {m : Type → Type} [Monad m] (scan : LeafScan) (read : NodeId → m String)
    (leaves : List (NodeId × Nat)) : m (List Candidate) := do
  let (_, found) ← leaves.foldlM
    (fun seen x => scan.dstLeaves.zipIdx.foldlM (fun seen y => scan.look read x y seen) seen)
    (Memo.empty, #[])
  return found.toList

/-- All candidates, found in one go. -/
def sequential (scan : LeafScan) : List Candidate :=
  Id.run (scan.sweep (fun a => pure (scan.src.label a)) scan.srcLeaves.zipIdx)

/-- The source leaves of part `k` of `w`, each with its place among all source leaves. -/
def part (scan : LeafScan) (w k : Nat) : List (NodeId × Nat) :=
  scan.srcLeaves.zipIdx.filter fun x => x.2 % w == k

/-- All candidates, found in `w` parts.  If parts break down, the first of them is reported. -/
def sharded (scan : LeafScan) (read : NodeId → Except (Option String) String) (w : Nat) :
    Except Fault (List Candidate) := do
  let parts ← (List.range w).mapM fun k =>
    match scan.sweep read (scan.part w k) with
    | .ok found => Except.ok found
    | .error note => Except.error (Fault.worker k note)
  return parts.flatten.mergeSort fun c d => c.id ≤ d.id

end LeafScan

end TreeMatching
