import TreeMatching.Matching

/-!
# Adopting orphan leaves

A free leaf under a linked parent is given a partner below the partner of the parent: the child at
the same position, or what a wrapper at that position contains, or a sibling of the same content.
A node that is taken may have a worse partner, which it then loses.

## Main definitions

* `OrphanLeaves.Adoption` — a link to be made, and the link it replaces, if any.
* `OrphanLeaves.adoptSrc?`, `OrphanLeaves.adoptDst?` — what is done about one free leaf.
* `OrphanLeaves.run` — the stage: first the source leaves, then the destination leaves.
-/

set_option autoImplicit false

namespace TreeMatching.OrphanLeaves

/-- A link to be made, and the link that has to be undone before. -/
structure Adoption where
  link : Pair
  replaced : Option Pair := none
deriving DecidableEq, Inhabited

/-- Carries out an adoption. -/
def Adoption.perform (x : Adoption) : Matching Unit := do
  if let some old := x.replaced then
    Matching.unlink old.src old.dst
  Matching.link x.link.src x.link.dst

/-! ### Source leaves -/

/-- The free source leaf `node` takes `target` from its partner `current`. -/
def takeDst (node target current : NodeId) : Adoption := ⟨⟨node, target⟩, some ⟨current, target⟩⟩

/-- Whether a source node has no linked parent. -/
def srcParentFree (task : Task) (p : Pairing) (id : NodeId) : Bool :=
  (task.src.parent? id).all fun q => !p.hasSrc q

/-- The source leaf `node` finds `child`, of its own kind, at its position. -/
def adoptSrcSameSlot? (task : Task) (p : Pairing) (node child : NodeId) : Option Adoption :=
  match p.src? child with
  | none => some { link := ⟨node, child⟩ }
  | some current =>
    if task.src.sameLabel task.dst node child then
      if task.src.label current ≠ task.src.label node then some (takeDst node child current)
      else none
    else if srcParentFree task p current && !task.src.sameLabel task.dst current child then
      some (takeDst node child current)
    else none

/-- The source leaf `node` finds at its position a node with the only child `inner`. -/
def adoptSrcWrapped? (task : Task) (p : Pairing) (node inner : NodeId) : Option Adoption :=
  if task.src.sameContent task.dst node inner then
    (p.src? inner).bind fun current =>
      if task.src.label current ≠ task.src.label node || srcParentFree task p current then
        some (takeDst node inner current)
      else none
  else none

/-- The source leaf `node` looks for a node of its content among the given ones. -/
def adoptSrcAmong? (task : Task) (p : Pairing) (node : NodeId) (siblings : List NodeId) :
    Option Adoption :=
  siblings.findSome? fun b =>
    if task.src.sameContent task.dst node b then
      match p.src? b with
      | none => some { link := ⟨node, b⟩ }
      | some current =>
        if task.src.sameLabel task.dst current b then none else some (takeDst node b current)
    else none

/-- What is done about a free source leaf. -/
def adoptSrc? (task : Task) (p : Pairing) (node : NodeId) : Option Adoption := do
  let parent ← task.src.parent? node
  let partner ← p.dst? parent
  let child ← task.dst.child? partner (task.src.position node)
  if task.src.sameKind task.dst node child then adoptSrcSameSlot? task p node child
  else if task.dst.childCount child = 1 then
    adoptSrcWrapped? task p node (← task.dst.child? child 0)
  else adoptSrcAmong? task p node (task.dst.children partner)

/-! ### Destination leaves -/

/-- The free destination leaf `node` takes `target` from its partner `current`. -/
def takeSrc (node target current : NodeId) : Adoption := ⟨⟨target, node⟩, some ⟨target, current⟩⟩

/-- Whether a destination node has no linked parent. -/
def dstParentFree (task : Task) (p : Pairing) (id : NodeId) : Bool :=
  (task.dst.parent? id).all fun q => !p.hasDst q

/-- The destination leaf `node` finds `child`, of its own kind, at its position. -/
def adoptDstSameSlot? (task : Task) (p : Pairing) (node child : NodeId) : Option Adoption :=
  match p.dst? child with
  | none => some { link := ⟨child, node⟩ }
  | some current =>
    if task.src.sameLabel task.dst child node then
      if task.dst.label current ≠ task.dst.label node then some (takeSrc node child current)
      else none
    else if dstParentFree task p current && !task.src.sameLabel task.dst child current then
      some (takeSrc node child current)
    else none

/-- The destination leaf `node` finds at its position a node with the only child `inner`. -/
def adoptDstWrapped? (task : Task) (p : Pairing) (node inner : NodeId) : Option Adoption :=
  if task.src.sameContent task.dst inner node then
    (p.dst? inner).bind fun current =>
      if task.dst.label current ≠ task.dst.label node || dstParentFree task p current then
        some (takeSrc node inner current)
      else none
  else none

/-- The destination leaf `node` looks for a node of its content among the given ones. -/
def adoptDstAmong? (task : Task) (p : Pairing) (node : NodeId) (siblings : List NodeId) :
    Option Adoption :=
  siblings.findSome? fun a =>
    if task.src.sameContent task.dst a node then
      match p.dst? a with
      | none => some { link := ⟨a, node⟩ }
      | some current =>
        if task.src.sameLabel task.dst a current then none else some (takeSrc node a current)
    else none

/-- The destination leaf `node` finds itself below a new parent, whose own parent has the partner
`partner`: it may have been the child at the position of its parent before. -/
def adoptDstUnderNew? (task : Task) (p : Pairing) (node parent partner : NodeId) :
    Option Adoption := do
  let child ← task.src.child? partner (task.dst.position parent)
  if task.src.sameContent task.dst child node then
    match p.dst? child with
    | none => some { link := ⟨child, node⟩ }
    | some current =>
      if task.dst.label current ≠ task.dst.label node then some (takeSrc node child current)
      else none
  else none

/-- What is done about a free destination leaf; `unmatched` are the destination nodes that were
free when the stage began. -/
def adoptDst? (task : Task) (p : Pairing) (unmatched : List NodeId) (node : NodeId) :
    Option Adoption := do
  let parent ← task.dst.parent? node
  match p.src? parent with
  | some partner =>
    let child ← task.src.child? partner (task.dst.position node)
    if task.src.sameKind task.dst child node then adoptDstSameSlot? task p node child
    else if task.src.childCount child = 1 then
      adoptDstWrapped? task p node (← task.src.child? child 0)
    else adoptDstAmong? task p node (task.src.children partner)
  | none =>
    if unmatched.contains parent then
      let grandparent ← task.dst.parent? parent
      adoptDstUnderNew? task p node parent (← p.src? grandparent)
    else none

/-! ### The stage -/

/-- Finds a partner for a source leaf, if it is still free. -/
def settleSrc (task : Task) (node : NodeId) : Matching Unit := do
  let p ← Matching.pairing
  if task.src.childCount node = 0 ∧ !p.hasSrc node then
    if let some x := adoptSrc? task p node then x.perform

/-- Finds a partner for a destination leaf, if it is still free. -/
def settleDst (task : Task) (unmatched : List NodeId) (node : NodeId) : Matching Unit := do
  let p ← Matching.pairing
  if task.dst.childCount node = 0 ∧ !p.hasDst node then
    if let some x := adoptDst? task p unmatched node then x.perform

/-- Finds partners for free leaves under linked parents. -/
def run (task : Task) : Matching Unit := do
  let p ← Matching.pairing
  let srcs := task.src.preOrder.filter fun n => !p.hasSrc n
  let dsts := task.dst.preOrder.filter fun n => !p.hasDst n
  srcs.forM (settleSrc task)
  dsts.forM (settleDst task dsts)

end TreeMatching.OrphanLeaves
