import TreeMatching.Matching

/-!
# Reconsidering leaf moves

Two linked leaves with different labels may be the result of a wrong turn: if one of them has a
look-alike among the siblings of the other, the link is moved there.  The changes of one round are
prepared first and linked together at its end; rounds go on with the pairs that are still unlike.

## Main definitions

* `LeafMoves.Change` — links to be undone, and links to be made at the end of the round.
* `LeafMoves.lookAlike?` — the sibling to which a link may be moved.
* `LeafMoves.forward?`, `LeafMoves.backward?` — the change for one pair, from either side.
* `LeafMoves.reconsider` — deals with one pair; `LeafMoves.round`, `LeafMoves.rounds` — with all.
* `LeafMoves.run` — the stage.
-/

set_option autoImplicit false

namespace TreeMatching.LeafMoves

/-- Where the siblings are looked for. -/
inductive Anchor where
  /-- Below the partner of the source parent. -/
  | mappedParent
  /-- Below the parent of the destination leaf. -/
  | ownParent
deriving DecidableEq, Inhabited

/-- Links to be undone at once, and links to be made at the end of the round. -/
structure Change where
  undone : List Pair
  made : List Pair
deriving DecidableEq, Inhabited

/-- Whether a queued link takes a source node. -/
def claimsSrc (queue : List Pair) (id : NodeId) : Bool := queue.any fun x => x.src == id

/-- Whether a queued link takes a destination node. -/
def claimsDst (queue : List Pair) (id : NodeId) : Bool := queue.any fun x => x.dst == id

/-- Whether the links of a change touch no node of a queued link. -/
def Change.admissible (c : Change) (queue : List Pair) : Bool :=
  c.made.all fun x => !claimsSrc queue x.src && !claimsDst queue x.dst

/-- Undoes what a change undoes, and queues what it makes. -/
def Change.apply (c : Change) (queue : List Pair) : Matching (List Pair) := do
  c.undone.forM fun x => Matching.unlinkIfLinked x.src x.dst
  return queue ++ c.made

/-- The child of `parent` that looks like the node `like` of another tree: the only one that does,
or of several the one at the given position. -/
def lookAlike? (t : Tree) (parent : NodeId) (position : Nat) (other : Tree) (like : NodeId) :
    Option NodeId :=
  match (t.children parent).filter fun c => t.sameContent other c like with
  | [c] => some c
  | _ => (t.child? parent position).filter fun c => t.sameContent other c like

/-- The link of a pair moves to a destination sibling that looks like the source leaf.  The partner
of that sibling, if it is unlike, gets the destination leaf in exchange; if the sibling is free, a
free source sibling that looks like the destination leaf may get it. -/
def forward? (task : Task) (p : Pairing) (queue : List Pair) (srcParent dstParent : NodeId)
    (x : Pair) : Option Change := do
  let target ← lookAlike? task.dst dstParent (task.src.position x.src) task.src x.src
  match p.src? target with
  | some current =>
    if task.src.sameLabel task.dst current target then none
    else
      let exchange : List Pair :=
        if target ≠ x.dst ∧ current ≠ x.src then [⟨current, x.dst⟩] else []
      some ⟨[x, ⟨current, target⟩], ⟨x.src, target⟩ :: exchange⟩
  | none =>
    let free := (task.src.children srcParent).find? fun c =>
      task.src.isLeaf c && !p.hasSrc c && !claimsSrc queue c && c != x.src &&
        task.src.sameContent task.dst c x.dst
    some ⟨[x], ⟨x.src, target⟩ :: (free.map fun c => (⟨c, x.dst⟩ : Pair)).toList⟩

/-- The link of a pair moves to a source sibling that looks like the destination leaf, with the
roles of the two sides exchanged. -/
def backward? (task : Task) (p : Pairing) (queue : List Pair) (srcParent dstParent : NodeId)
    (x : Pair) : Option Change := do
  let target ← lookAlike? task.src srcParent (task.dst.position x.dst) task.dst x.dst
  match p.dst? target with
  | some current =>
    if task.src.sameLabel task.dst target current then none
    else
      let exchange : List Pair :=
        if target ≠ x.src ∧ current ≠ x.dst then [⟨x.src, current⟩] else []
      some ⟨[x, ⟨target, current⟩], ⟨target, x.dst⟩ :: exchange⟩
  | none =>
    let free := (task.dst.children dstParent).find? fun c =>
      task.dst.isLeaf c && !p.hasDst c && !claimsDst queue c && c != x.dst &&
        task.src.sameContent task.dst x.src c
    some ⟨[x], ⟨target, x.dst⟩ :: (free.map fun c => (⟨x.src, c⟩ : Pair)).toList⟩

/-- The first of the two changes for a pair that is admissible. -/
def change? (task : Task) (p : Pairing) (queue : List Pair) (srcParent dstParent : NodeId)
    (x : Pair) : Option Change :=
  let usable (c : Change) : Bool := c.admissible queue
  (forward? task p queue srcParent dstParent x).filter usable
    <|> (backward? task p queue srcParent dstParent x).filter usable

/-- The parents below which the siblings of a pair are looked for. -/
def anchors? (task : Task) (p : Pairing) (anchor : Anchor) (x : Pair) : Option Pair := do
  let srcParent ← task.src.parent? x.src
  let dstParent ←
    match anchor with
    | .mappedParent => p.dst? srcParent
    | .ownParent => task.dst.parent? x.dst
  return ⟨srcParent, dstParent⟩

/-- Deals with one pair, unless it has been undone in this round; returns the queue of links to be
made. -/
def reconsider (task : Task) (anchor : Anchor) (queue : List Pair) (x : Pair) :
    Matching (List Pair) := do
  let p ← Matching.pairing
  if p.has x.src x.dst then
    match anchors? task p anchor x with
    | none => return queue
    | some parents =>
      match change? task p queue parents.src parents.dst x with
      | some c => c.apply queue
      | none => return queue
  else return queue

/-- Whether a pair consists of two leaves with different labels. -/
def isUnlike (task : Task) (x : Pair) : Bool :=
  task.src.isLeaf x.src && task.dst.isLeaf x.dst && !task.src.sameLabel task.dst x.src x.dst

/-- One round over the given pairs; returns the new links that are again unlike. -/
def round (task : Task) (anchor : Anchor) (work : List Pair) : Matching (List Pair) := do
  let queue ← work.foldlM (reconsider task anchor) []
  queue.forM fun x => Matching.link x.src x.dst
  return queue.filter (isUnlike task)

/-- Rounds until no pair is left, but at most `limit` of them; returns their number. -/
def rounds (task : Task) (anchor : Anchor) : Nat → List Pair → Matching Nat
  | 0, _ => return 0
  | _, [] => return 0
  | limit + 1, work => do
    let work ← round task anchor work
    return (← rounds task anchor limit work) + 1

/-- Reconsiders all unlike pairs of leaves, looking for siblings in the given place; returns the
number of rounds. -/
def reconcile (task : Task) (anchor : Anchor) : Matching Nat := do
  let work := (← Matching.pairing).pairs.filter (isUnlike task)
  rounds task anchor task.settings.maxRounds work

/-- Reconsiders unlike pairs of leaves, first below partners of parents and then below their own
parents. -/
def run (task : Task) : Matching Unit := do
  let _ ← reconcile task .mappedParent
  let _ ← reconcile task .ownParent

end TreeMatching.LeafMoves
