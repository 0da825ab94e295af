import TreeMatching.EditDistance.Distance

/-!
# The mapping behind an edit distance

From the tables of the edit distance the nodes are read off that an optimal edit script turns into
each other.

The table of a pair of subtrees is walked through from its last cell to its first.  Where deleting
or inserting the last node explains the distance, that is done; otherwise the last two nodes are
turned into each other, or the last two subtrees form a problem of their own, which is put aside.

## Main definitions

* `Script.move`, `Script.walk` — one move, and the whole walk through a table.
* `Script.resolve` — deals with the problems put aside.
* `Script.mapping` — the pairs of nodes of an optimal script.
-/

set_option autoImplicit false

namespace TreeMatching.Script

variable {κ : Type} [Cost κ]

/-- What a walk finds: pairs of nodes, in the order in which they are found, and pairs of subtrees
that are problems of their own, the last one first. -/
structure Findings where
  pairs : Array (NodeId × NodeId)
  pending : List (Nat × Nat)

/-- What explains the distance of two forests: their last nodes are deleted, inserted or turned into
each other, or the subtrees at their last nodes are a problem of their own. -/
inductive Move where
  | delete
  | insert
  | align
  | putAside
deriving DecidableEq, Inhabited

/-- The move from the cell of the forests that end with the numbers `i` and `j`, within the table of
the subtrees at `top` and `top'`. -/
@[specialize]
def move (a b : Numbering) (table : Grid κ) (top top' : Nat) (i j : Nat) : Move :=
  let start := a.first top - 1
  let start' := b.first top' - 1
  let cell (x y : Nat) : κ := table.get (x - start) (y - start')
  if start < i ∧ Cost.same (Cost.add (cell (i - 1) j) Cost.one) (cell i j) then .delete
  else if start' < j ∧ Cost.same (Cost.add (cell i (j - 1)) Cost.one) (cell i j) then .insert
  else if a.first i = a.first top ∧ b.first j = b.first top' then .align
  else .putAside

/-- Only a node within the subtree is deleted. -/
theorem lt_of_move_eq_delete {a b : Numbering} {table : Grid κ} {top top' i j : Nat}
    (h : move a b table top top' i j = .delete) : a.first top - 1 < i := by
  unfold move at h
  grind

/-- Only a node within the subtree is inserted. -/
theorem lt_of_move_eq_insert {a b : Numbering} {table : Grid κ} {top top' i j : Nat}
    (h : move a b table top top' i j = .insert) : b.first top' - 1 < j := by
  unfold move at h
  grind

/-- Walks through the table of the subtrees at `top` and `top'`, from the forests that end with the
numbers `i` and `j`. -/
@[specialize]
def walk (a b : Numbering) (table : Grid κ) (top top' : Nat) (i j : Nat) (found : Findings) :
    Findings :=
  if a.first top - 1 < i ∨ b.first top' - 1 < j then
    match hm : move a b table top top' i j with
    | .delete => walk a b table top top' (i - 1) j found
    | .insert => walk a b table top top' i (j - 1) found
    | .align =>
      walk a b table top top' (i - 1) (j - 1)
        { found with pairs := found.pairs.push ((a.node i).id, (b.node j).id) }
    | .putAside =>
      walk a b table top top' (a.first i - 1) (b.first j - 1)
        { found with pending := (i, j) :: found.pending }
  else found
termination_by i + j
decreasing_by
  · have := lt_of_move_eq_delete hm
    omega
  · have := lt_of_move_eq_insert hm
    omega
  · omega
  · have := a.first_le i
    have := b.first_le j
    omega

/-- Deals with pairs of subtrees, the first one of the list first, at most `limit` of them. -/
@[specialize]
def resolve (a b : Numbering) (cost : κ) :
    Nat → Grid κ → Findings → Array (NodeId × NodeId)
  | 0, _, found => found.pairs
  | limit + 1, trees, found =>
    match found.pending with
    | [] => found.pairs
    | (i, j) :: pending =>
      let table := EditDistance.forestTable a b cost trees i j
      let trees := EditDistance.record a b table trees i j
      resolve a b cost limit trees (walk a b table i j i j { found with pending })

/-- The pairs of nodes that an optimal edit script turns into each other.  A problem put aside is
smaller than the one it comes from, so there are no more problems than nodes. -/
@[specialize]
def mapping (a b : Numbering) (cost : κ) : List (NodeId × NodeId) :=
  let trees := EditDistance.solve a b cost (EditDistance.blank a b)
  (resolve a b cost (a.size + b.size) trees ⟨#[], [(a.size, b.size)]⟩).toList

end TreeMatching.Script
