import TreeMatching.Matching

/-!
# Parents by majority

Every pair votes: the parent of its source node should be linked to the parent of its destination
node.  Where the children of a linked parent clearly vote for another node, the two parents exchange
their partners.

## Main definitions

* `ParentVote.votes`, `ParentVote.tallyFor` — the votes, and those of one parent.
* `ParentVote.uniqueMax` — the clear winner of a vote.
* `ParentVote.winner?` — the node to which a parent is moved, with the reasons not to.
* `ParentVote.run` — the stage.
-/

set_option autoImplicit false

namespace TreeMatching.ParentVote

/-- The votes of all pairs, each for a source parent and a destination parent. -/
def votes (task : Task) (p : Pairing) : List Pair :=
  p.pairs.filterMap fun x => do
    return ⟨← task.src.parent? x.src, ← task.dst.parent? x.dst⟩

/-- Adds one vote for a node. -/
def addVote (counts : List (NodeId × Nat)) (node : NodeId) : List (NodeId × Nat) :=
  match counts with
  | [] => [(node, 1)]
  | (n, k) :: rest => if n = node then (n, k + 1) :: rest else (n, k) :: addVote rest node

/-- How many votes each destination node has for the given source parent. -/
def tallyFor (ballots : List Pair) (parent : NodeId) : List (NodeId × Nat) :=
  (ballots.filter fun x => x.src == parent).foldl (fun counts x => addVote counts x.dst) []

/-- The entry with the largest count so far, and how many further entries share it. -/
structure Lead where
  best : NodeId × Nat
  ties : Nat

/-- Takes one more entry into account. -/
def Lead.next (lead : Option Lead) (entry : NodeId × Nat) : Option Lead :=
  match lead with
  | none => some ⟨entry, 0⟩
  | some l =>
    if entry.2 < l.best.2 then some l
    else if entry.2 = l.best.2 then some { l with ties := l.ties + 1 }
    else some ⟨entry, 0⟩

/-- The entry whose count is larger than all others, if there is one. -/
def uniqueMax (counts : List (NodeId × Nat)) : Option (NodeId × Nat) :=
  match counts.foldl Lead.next none with
  | some l => if l.ties = 0 then some l.best else none
  | none => none

/-- The source nodes for which there are votes, in increasing order. -/
def parents (task : Task) (ballots : List Pair) : List NodeId :=
  (List.range' 1 task.src.count).filter fun n => ballots.any fun x => x.src == n

/-- Whether the parents of `parent` and `partner` are linked to each other, so that the two are in
the right place already. -/
def stays (task : Task) (p : Pairing) (parent partner : NodeId) : Bool :=
  let upper := (task.src.parent? parent).bind p.dst?
  upper.isSome && upper == task.dst.parent? partner

/-- An exchange of partners: `parent` and `partner` are linked, and so are `rival` and
`winner`. -/
structure Exchange where
  parent : NodeId
  partner : NodeId
  winner : NodeId
  rival : NodeId

/-- The exchange for which the counts of a parent show a clear majority, unless something speaks
against it. -/
def winner? (task : Task) (p : Pairing) (parent : NodeId) (counts : List (NodeId × Nat)) :
    Option Exchange := do
  let (winner, count) ← uniqueMax counts
  let partner ← p.dst? parent
  let rival ← p.src? winner
  let children := task.src.childCount parent
  if partner = winner then none
  else if !(children / 2 < count || children == 1) then none
  else if stays task p parent partner then none
  else if (parent :: task.src.ancestors parent).contains rival then none
  else if !task.src.sameKind task.dst parent winner then none
  else some ⟨parent, partner, winner, rival⟩

/-- Carries out an exchange; the rival gets the old partner if that is of its kind. -/
def Exchange.perform (task : Task) (x : Exchange) : Matching Unit := do
  Matching.unlinkIfLinked x.rival x.winner
  Matching.unlinkIfLinked x.parent x.partner
  Matching.link x.parent x.winner
  if task.src.sameKind task.dst x.rival x.partner then
    Matching.link x.rival x.partner

/-- Moves one parent to the node its children vote for, given how many votes each node has. -/
def settle (task : Task) (parent : NodeId) (counts : List (NodeId × Nat)) : Matching Unit := do
  if let some x := winner? task (← Matching.pairing) parent counts then
    x.perform task

/-- Moves parents to the nodes their children vote for.  The votes are those at the beginning of
the stage. -/
def run (task : Task) : Matching Unit := do
  let ballots := votes task (← Matching.pairing)
  (parents task ballots).forM fun parent => settle task parent (tallyFor ballots parent)

end TreeMatching.ParentVote
