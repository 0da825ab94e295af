import TreeMatching.EditDistance.Cost
import TreeMatching.EditDistance.Numbering
import TreeMatching.Grid

/-!
# The edit distance of two trees

Nodes may be deleted and inserted at cost one each, and a node may be turned into one of the same
kind: free of charge if the labels are equal, else at the cost of relabelling.  The distance of two
trees is the smallest total cost of turning the one into the other.

It is computed by a dynamic program over forests.  The forests that occur are sequences of
consecutive numbers; for a pair of nodes `(i, j)` the table holds the distances of all such
sequences that begin with the first nodes of the two subtrees.

## Main definitions

* `EditDistance.relabel` — the cost of turning one node into another.
* `EditDistance.forestTable` — the distances of forests within two subtrees, from those of smaller
  subtrees.
* `EditDistance.record`, `EditDistance.solve` — collects the distances of all pairs of subtrees.
* `EditDistance.distance` — the distance of two trees.
* `EditDistance.prepare` — numbers two trees, from the left or from the right, whichever makes
  less work.
-/

set_option autoImplicit false

namespace TreeMatching.EditDistance

variable {κ : Type} [Cost κ]

/-- The cost of turning node `i` of the one tree into node `j` of the other. -/
@[specialize]
def relabel (a b : Numbering) (cost : κ) (i j : Nat) : κ :=
  let s := a.node i
  let d := b.node j
  if s.kind ≠ d.kind then Cost.forbidden
  else if s.label = d.label then Cost.zero
  else cost

/-- The distances of forests within the subtrees at `i` and `j`.  Row `x` and column `y` belong to
the first `x` nodes of the one and the first `y` nodes of the other subtree.  `trees` holds the
distances of smaller pairs of subtrees. -/
@[specialize]
def forestTable (a b : Numbering) (cost : κ) (trees : Grid κ) (i j : Nat) : Grid κ :=
  let li := a.first i
  let lj := b.first j
  Grid.build (i - li + 2) (j - lj + 2) Cost.zero fun f x y =>
    match x, y with
    | 0, 0 => Cost.zero
    | x + 1, 0 => Cost.add (f x 0) Cost.one
    | 0, y + 1 => Cost.add (f 0 y) Cost.one
    | x + 1, y + 1 =>
      let s := li + x
      let d := lj + y
      let delete := Cost.add (f x (y + 1)) Cost.one
      let insert := Cost.add (f (x + 1) y) Cost.one
      let both :=
        if a.first s = li ∧ b.first d = lj then Cost.add (f x y) (relabel a b cost s d)
        else Cost.add (f (a.first s - li) (b.first d - lj)) (trees.get s d)
      Cost.least (Cost.least delete insert) both

/-- Copies the distances of pairs of whole subtrees from the table of `(i, j)`: those of the nodes
whose subtrees begin where the subtrees at `i` and `j` begin. -/
@[specialize]
def record (a b : Numbering) (table trees : Grid κ) (i j : Nat) : Grid κ :=
  let li := a.first i
  let lj := b.first j
  (List.range' li (i + 1 - li)).foldl
    (fun trees s =>
      if a.first s = li then
        (List.range' lj (j + 1 - lj)).foldl
          (fun trees d =>
            if b.first d = lj then trees.set s d (table.get (s + 1 - li) (d + 1 - lj)) else trees)
          trees
      else trees)
    trees

/-- The table of distances of subtrees before anything is known. -/
def blank (a b : Numbering) : Grid κ := Grid.fill (a.size + 1) (b.size + 1) Cost.zero

/-- Adds the distances of all pairs of subtrees to a table. -/
@[specialize]
def solve (a b : Numbering) (cost : κ) (trees : Grid κ) : Grid κ :=
  a.keyroots.foldl
    (fun trees i =>
      b.keyroots.foldl
        (fun trees j => record a b (forestTable a b cost trees i j) trees i j) trees)
    trees

/-- The edit distance of two numbered trees. -/
@[specialize]
def distance (a b : Numbering) (cost : κ) : κ := (solve a b cost (blank a b)).get a.size b.size

/-- Numbers two trees for the dynamic program, if they are not too large.  They are flipped if that
makes the tables smaller: flipping both trees changes neither their distance nor the mappings that
attain it. -/
def prepare (src dst : Tree) (limit : Nat) : Except Fault (Numbering × Numbering) :=
  if limit < src.count * dst.count then
    .error (.setting (.tooLarge src.count dst.count limit))
  else
    let leftA := Numbering.ofTree src.shape
    let leftB := Numbering.ofTree dst.shape
    let rightA := Numbering.ofTree src.shape.flip
    let rightB := Numbering.ofTree dst.shape.flip
    if rightA.weight * rightB.weight < leftA.weight * leftB.weight then .ok (rightA, rightB)
    else .ok (leftA, leftB)

/-- The edit distance of two trees, if they are not too large. -/
def ofTrees (src dst : Tree) (cost : κ) (limit : Nat) : Except Fault κ := do
  let (a, b) ← prepare src dst limit
  return distance a b cost

end TreeMatching.EditDistance
