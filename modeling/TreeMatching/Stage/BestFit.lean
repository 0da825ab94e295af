import TreeMatching.Matching

/-!
# The inner node that fits best, then the leaves

First the inner source nodes are paired in pre-order.  If the parent of a node has a partner, the
child at the same position is preferred; otherwise the node with the best Dice coefficient is
taken among those that agree with the partners of the parents.  Two roots of the same kind are
linked in any case.  Then the leaves are paired, by equal subtree or similar label.

## Main definitions

* `BestFit.labelsAgree`, `BestFit.ancestryAgrees` — conditions on two nodes.
* `BestFit.sameSlot?`, `BestFit.contenders`, `BestFit.best?` — how a partner of an inner node is
  found; `BestFit.settleInner` links it.
* `BestFit.siblingLeaf?`, `BestFit.anyLeaf?` — how a partner of a leaf is found;
  `BestFit.settleLeaf` links it.
* `BestFit.run` — the stage.
-/

set_option autoImplicit false

namespace TreeMatching.BestFit

/-- Whether the labels of two nodes are similar enough. -/
def labelsAgree (task : Task) (a b : NodeId) : Bool :=
  let comparer : LabelComparer := { rules := task.rules }
  let place : Place := if task.src.isLeaf a then .leaf else .inner
  task.settings.leafThreshold ≤
    comparer.compare place (task.src.kind a) (task.src.label a) (task.dst.kind b) (task.dst.label b)

/-- Whether two nodes agree with the partners of their parents: each lies below the partner of the
parent of the other, if there is one. -/
def ancestryAgrees (task : Task) (p : Pairing) (a b : NodeId) : Bool :=
  ((task.src.parent? a).bind p.dst?).all (fun q => task.dst.isDescendant q b) &&
    ((task.dst.parent? b).bind p.src?).all fun q => task.src.isDescendant q a

/-- The partner of the parent of a source node. -/
def parentPartner? (task : Task) (p : Pairing) (a : NodeId) : Option NodeId :=
  (task.src.parent? a).bind p.dst?

/-! ### Inner nodes -/

/-- The free node of the kind and position of `a` below the partner of its parent, if the labels
agree. -/
def sameSlot? (task : Task) (p : Pairing) (a : NodeId) : Option NodeId := do
  let q ← parentPartner? task p a
  let b ← (task.dst.children q).find? fun b =>
    !p.hasDst b && task.src.sameKind task.dst a b && task.dst.position b == task.src.position a
  if labelsAgree task a b then some b else none

/-- The free inner destination nodes of the kind of `a` that agree with it in label and ancestry,
in pre-order. -/
def contenders (task : Task) (p : Pairing) (a : NodeId) : List NodeId :=
  task.dst.preOrder.filter fun b =>
    !p.hasDst b && !task.dst.isLeaf b && task.src.sameKind task.dst a b &&
      ancestryAgrees task p a b && labelsAgree task a b

/-- The node with the highest score that reaches the threshold, the first one of several. -/
def best? (threshold : Float) (score : NodeId → Float) (nodes : List NodeId) : Option NodeId :=
  let better (best : Option (NodeId × Float)) (b : NodeId) : Option (NodeId × Float) :=
    let x := score b
    if threshold ≤ x && best.all (fun y => y.2 < x) then some (b, x) else best
  (nodes.foldl better none).map Prod.fst

/-- Links a free inner source node. -/
def settleInner (task : Task) (a : NodeId) : Matching Unit := do
  let p ← Matching.pairing
  if !p.hasSrc a && !task.src.isLeaf a then
    match sameSlot? task p a with
    | some b => Matching.link a b
    | none =>
      let nodes := contenders task p a
      Matching.tally nodes.length
      let dice (b : NodeId) : Float := (Overlap.between task.src task.dst p a b).dice.value
      match best? task.settings.diceThreshold dice nodes with
      | some b => Matching.link a b
      | none =>
        let root := task.dst.root
        if (task.src.parent? a).isNone && !p.hasDst root && task.src.sameKind task.dst a root then
          Matching.link a root

/-! ### Leaves -/

/-- A partner for a leaf below the partner `q` of its parent: a leaf of the same content, if
possible at the same position, and otherwise the leaf at the same position if the labels agree. -/
def siblingLeaf? (task : Task) (p : Pairing) (a q : NodeId) : Option NodeId :=
  let leaves := (task.dst.children q).filter fun b =>
    !p.hasDst b && task.dst.isLeaf b && task.src.sameKind task.dst a b
  let samePlace (b : NodeId) : Bool := task.dst.position b == task.src.position a
  let sameTree (b : NodeId) : Bool := task.src.sameSubtree task.dst a b
  (leaves.find? fun b => samePlace b && sameTree b)
    <|> leaves.find? sameTree
    <|> leaves.find? fun b => samePlace b && labelsAgree task a b

/-- A partner for a leaf anywhere: the first leaf of the same content, or else the first one of
which the label agrees. -/
def anyLeaf? (task : Task) (p : Pairing) (a : NodeId) : Option NodeId :=
  let leaves := task.dst.preOrder.filter fun b =>
    !p.hasDst b && task.dst.isLeaf b && task.src.sameKind task.dst a b && ancestryAgrees task p a b
  (leaves.find? fun b => task.src.sameSubtree task.dst a b) <|> leaves.find? (labelsAgree task a)

/-- Links a free source leaf. -/
def settleLeaf (task : Task) (a : NodeId) : Matching Unit := do
  let p ← Matching.pairing
  if !p.hasSrc a && task.src.isLeaf a then
    let partner :=
      match parentPartner? task p a with
      | some q => siblingLeaf? task p a q
      | none => anyLeaf? task p a
    if let some b := partner then
      Matching.link a b

/-- Links inner nodes to the partner that fits best, and then leaves. -/
def run (task : Task) : Matching Unit := do
  task.src.preOrder.forM (settleInner task)
  task.src.preOrder.forM (settleLeaf task)

end TreeMatching.BestFit
