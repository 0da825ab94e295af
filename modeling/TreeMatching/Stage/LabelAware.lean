import TreeMatching.LeafScan

/-!
# Matching by the meaning of labels

Leaves are paired by the similarity of their labels, compared according to their kinds, and by
their relative positions.  Then the inner nodes are paired level by level from the lowest subtrees
up, by their labels and by how well the leaves under each of their children line up.  Classes and
roots that have no other possible partner are paired on the way.

## Main definitions

* `LabelAware.leafScore`, `LabelAware.scan` — how pairs of leaves are judged.
* `LabelAware.childShares`, `LabelAware.childrenSimilarity`, `LabelAware.accepts` — how pairs of
  inner nodes are judged.
* `LabelAware.innerCandidates` — the pairs of inner nodes of one height.
* `LabelAware.run` — the stage.
-/

set_option autoImplicit false

namespace TreeMatching.LabelAware

/-- The comparison of labels. -/
def comparer (task : Task) : LabelComparer := { rules := task.rules }

/-! ### Leaves -/

/-- The place of a node in post-order as a share of the way from the first node to the last. -/
def relativePosition (t : Tree) (id : NodeId) : Float :=
  if t.count ≤ 1 then 0.0 else Float.ofNat (t.postIndex id) / Float.ofNat (t.count - 1)

/-- The weighted mean of the similarity of two labels and the closeness of two positions. -/
def leafScore (s : LabelAwareSettings) (similarity srcPosition dstPosition : Float) : Float :=
  let v := s.similarityWeight
  let w := s.positionWeight
  (v * similarity + w * (1.0 - (srcPosition - dstPosition).abs)) / (v + w)

/-- Pairs of leaves are judged by labels and positions; the similarity of the labels must not fall
below the threshold. -/
def scan (comparer : LabelComparer) (task : Task) (p : Pairing) : LeafScan :=
  let s := task.settings.labelAware
  .ofFree task.src task.dst p fun a b label memo =>
    let (x, memo) := comparer.compareMemo .leaf (task.src.kind a) label (task.dst.kind b)
      (task.dst.label b) memo
    if x < s.leafThreshold then (none, memo)
    else
      let score := leafScore s x (relativePosition task.src a) (relativePosition task.dst b)
      (some (.ofFloat score), memo)

/-- Links leaves; the scan is split into parts. -/
def linkLeaves (task : Task) : Matching Unit := do
  let p ← Matching.pairing
  match (scan (comparer task) task p).sharded task.readLabel task.shardCount with
  | .ok found => chooseGreedily found
  | .error fault => throw fault

/-! ### Classes and roots -/

/-- The only element of a list that has exactly one. -/
def only? : List NodeId → Option NodeId
  | [n] => some n
  | _ => none

/-- Links the only free class declarations of the two trees. -/
def linkSingleClass (task : Task) : Matching Unit := do
  if let some k := task.rules.classKind then
    let p ← Matching.pairing
    let a := only? (task.src.preOrder.filter fun n => task.src.kind n == k && !p.hasSrc n)
    let b := only? (task.dst.preOrder.filter fun n => task.dst.kind n == k && !p.hasDst n)
    if let (some a, some b) := (a, b) then
      Matching.link a b

/-- Links the roots if both are roots of a whole document and free. -/
def linkRoots (task : Task) : Matching Unit := do
  if let some k := task.rules.rootKind then
    let a := task.src.root
    let b := task.dst.root
    if task.src.kind a == k && task.dst.kind b == k then
      Matching.linkIfFree a b

/-! ### Inner nodes -/

/-- The leaves of the subtree at a node; a leaf is its own only one. -/
def leavesUnder (t : Tree) (id : NodeId) : List NodeId :=
  (t.descendants id ++ [id]).filter t.isLeaf

/-- The share of the leaves under a node that have a given property. -/
def shareUnder (t : Tree) (id : NodeId) (property : NodeId → Bool) : Share :=
  let leaves := leavesUnder t id
  ⟨leaves.countP property, max leaves.length 1⟩

/-- Whether a source leaf is linked to a leaf below `b`. -/
def leadsBelowDst (task : Task) (p : Pairing) (b leaf : NodeId) : Bool :=
  (p.dst? leaf).any fun m => task.dst.isLeaf m && task.dst.isDescendant b m

/-- Whether a destination leaf is linked to a leaf below `a`. -/
def leadsBelowSrc (task : Task) (p : Pairing) (a leaf : NodeId) : Bool :=
  (p.src? leaf).any fun m => task.src.isLeaf m && task.src.isDescendant a m

/-- For each child of the two nodes, the share of the leaves under it that are linked to a leaf
under the other node. -/
def childShares (task : Task) (p : Pairing) (a b : NodeId) : List Share :=
  ((task.src.children a).map fun c => shareUnder task.src c (leadsBelowDst task p b)) ++
    (task.dst.children b).map fun c => shareUnder task.dst c (leadsBelowSrc task p a)

/-- The mean of the shares of the children; two nodes without leaves below them agree
completely. -/
def childrenSimilarity (task : Task) (p : Pairing) (a b : NodeId) : Float :=
  if task.src.leafCount a = 0 ∧ task.dst.leafCount b = 0 then 1.0
  else Share.mean (childShares task p a b)

/-- Whether two inner nodes are similar enough: the more, the less their labels agree and the
larger they are. -/
def accepts (s : LabelAwareSettings) (children label : Float) (leaves : Nat) : Bool :=
  if label < s.valueThreshold then s.mismatchThreshold ≤ children
  else if leaves ≤ s.smallLeaves then s.smallThreshold ≤ children
  else s.largeThreshold ≤ children

/-- The similarity of the labels of two inner nodes. -/
def innerSimilarity (task : Task) (a b : NodeId) : Float :=
  (comparer task).compare .inner (task.src.kind a) (task.src.label a) (task.dst.kind b)
    (task.dst.label b)

/-- Whether two inner nodes of the same kind are similar enough under a pairing. -/
def innerFits (task : Task) (p : Pairing) (a b : NodeId) : Bool :=
  accepts task.settings.labelAware (childrenSimilarity task p a b) (innerSimilarity task a b)
    (max (task.src.leafCount a) (task.dst.leafCount b))

/-- The pairs of a free source node of the given height and a free inner destination node that
are similar enough, scored by the mean of the two similarities. -/
def innerCandidates (task : Task) (p : Pairing) (height : Nat) : List Candidate :=
  let srcs := task.src.postOrder.filter fun a => task.src.height a == height && !p.hasSrc a
  let dsts := task.dst.postOrder.filter fun b => !task.dst.isLeaf b && !p.hasDst b
  srcs.zipIdx.flatMap fun (a, i) =>
    dsts.zipIdx.filterMap fun (b, j) =>
      if task.src.sameKind task.dst a b && innerFits task p a b then
        let score := (innerSimilarity task a b + childrenSimilarity task p a b) / 2.0
        some ⟨a, b, .ofFloat score, i * dsts.length + j⟩
      else none

/-- Links the inner source nodes of the given height. -/
def linkInner (task : Task) (height : Nat) : Matching Unit := do
  chooseGreedily (innerCandidates task (← Matching.pairing) height)

/-- Links nodes by the meaning of their labels. -/
def run (task : Task) : Matching Unit := do
  linkLeaves task
  linkSingleClass task
  (List.range' 1 (task.src.height task.src.root)).forM (linkInner task)
  linkRoots task

end TreeMatching.LabelAware
