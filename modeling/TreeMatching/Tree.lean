import TreeMatching.Fault
import TreeMatching.Survey

/-!
# Trees

A `Tree` is a numbered tree together with the tables of its survey.  All other modules look at
trees through the functions of this one.

## Main definitions

* `Marks` — spans and further texts attached to nodes.
* `Tree`, `Tree.ofShape` — the type and the one way to make a value of it.
* `Tree.kind`, `Tree.label`, `Tree.parent?`, `Tree.children`, `Tree.size`, … — facts about a node.
* `Tree.preOrder`, `Tree.postOrder`, `Tree.breadthFirst`, `Tree.leaves` — traversals.
* `Tree.isDescendant`, `Tree.descendants`, `Tree.ancestors`, `Tree.subtreePostOrder`.
* `Tree.sameSubtree` — whether the subtrees at two nodes are alike.

## Design

A node is named by its number.  A number that does not occur in the tree gets the facts of an empty
entry, so that all functions are total; but it has no kind, and so it is not of the same kind as
anything.  The tables are determined by the shape (`index_eq`): they are there for speed and carry
no information of their own.
-/

set_option autoImplicit false

namespace TreeMatching

/-- A part of a source text, from `start` up to but not including `stop`. -/
structure Span where
  start : Nat
  stop : Nat
deriving DecidableEq, Inhabited

/-- What is attached to nodes beside kind and label. -/
structure Marks where
  /-- Where nodes stand in a source text. -/
  spans : Std.HashMap NodeId Span := {}
  /-- Further texts of nodes, each under a key. -/
  notes : Std.HashMap (NodeId × String) String := {}

/-- A numbered tree with its tables.  `marks` is absent if the tree does not provide spans and
further texts at all. -/
structure Tree where
  /-- The nodes in their arrangement. -/
  shape : Rooted Node
  /-- Spans and further texts, if provided. -/
  marks : Option Marks
  /-- The numbers are `1, …, n`. -/
  numbered : shape.Numbered
  /-- The tables. -/
  index : Index
  /-- The tables are those of the shape. -/
  index_eq : index = shape.index

namespace Tree

/-- The tree of a numbered shape. -/
def ofShape (shape : Rooted Node) (numbered : shape.Numbered) (marks : Option Marks) : Tree where
  shape := shape
  marks := marks
  numbered := numbered
  index := shape.index
  index_eq := rfl

/-- The same tree, without spans and further texts. -/
def withoutMarks (t : Tree) : Tree := { t with marks := none }

/-! ### Facts about a node -/

/-- The number of the root. -/
def root (t : Tree) : NodeId := t.shape.root.id

/-- The number of nodes. -/
def count (t : Tree) : Nat := t.shape.size

/-- The entry of a node, if the number occurs in the tree. -/
def entry? (t : Tree) (id : NodeId) : Option Entry := (t.index.entries[id]?).join

/-- The entry of a node. -/
def entry (t : Tree) (id : NodeId) : Entry := (t.entry? id).getD default

/-- The kind of a node. -/
def kind (t : Tree) (id : NodeId) : Kind := (t.entry id).node.kind

/-- The kind of a node, if the number occurs in the tree. -/
def kind? (t : Tree) (id : NodeId) : Option Kind := (t.entry? id).map fun e => e.node.kind

/-- The label of a node. -/
def label (t : Tree) (id : NodeId) : String := (t.entry id).node.label

/-- The subtree at a node. -/
def subtree (t : Tree) (id : NodeId) : Rooted Node := ⟨(t.entry id).node, (t.entry id).below⟩

/-- The node right above a node; the root has none. -/
def parent? (t : Tree) (id : NodeId) : Option NodeId := (t.entry id).parent

/-- The children of a node in order. -/
def children (t : Tree) (id : NodeId) : List NodeId := (t.entry id).below.roots.map Node.id

/-- The child of a node at a sibling position. -/
def child? (t : Tree) (id : NodeId) (position : Nat) : Option NodeId := (t.children id)[position]?

/-- The number of children of a node. -/
def childCount (t : Tree) (id : NodeId) : Nat := (t.children id).length

/-- The number of siblings to the left of a node. -/
def position (t : Tree) (id : NodeId) : Nat := (t.entry id).position

/-- The number of nodes of the subtree at a node. -/
def size (t : Tree) (id : NodeId) : Nat := (t.entry id).size

/-- The number of levels below a node. -/
def height (t : Tree) (id : NodeId) : Nat := (t.entry id).height

/-- The distance of a node from the root. -/
def depth (t : Tree) (id : NodeId) : Nat := (t.entry id).depth

/-- The number of leaves strictly below a node. -/
def leafCount (t : Tree) (id : NodeId) : Nat := (t.entry id).leaves

/-- The place of a node in pre-order. -/
def preIndex (t : Tree) (id : NodeId) : Nat := (t.entry id).pre

/-- The place of a node in post-order. -/
def postIndex (t : Tree) (id : NodeId) : Nat := (t.entry id).post

/-- Whether a node has no children. -/
def isLeaf (t : Tree) (id : NodeId) : Bool := t.size id == 1

/-! ### Traversals -/

/-- All nodes in pre-order. -/
def preOrder (t : Tree) : List NodeId := t.index.preOrder.toList

/-- All nodes in post-order. -/
def postOrder (t : Tree) : List NodeId := t.index.postOrder.toList

/-- All nodes, upper levels first. -/
def breadthFirst (t : Tree) : List NodeId := t.shape.toForest.breadthFirst.map Node.id

/-- All nodes without children, in post-order. -/
def leaves (t : Tree) : List NodeId := t.postOrder.filter t.isLeaf

/-- Whether `node` lies strictly below `ancestor`: its pre-order index lies in the run of indices
that belongs to the subtree. -/
def isDescendant (t : Tree) (ancestor node : NodeId) : Bool :=
  let a := t.preIndex ancestor
  let n := t.preIndex node
  a < n && n < a + t.size ancestor

/-- Everything strictly below a node, in pre-order: a run of the pre-order of the tree. -/
def descendants (t : Tree) (id : NodeId) : List NodeId :=
  let pre := t.preIndex id
  (t.index.preOrder.extract (pre + 1) (pre + t.size id)).toList

/-- The nodes met on the way up from a node, at most `steps` of them. -/
def climb (t : Tree) : Nat → NodeId → List NodeId
  | 0, _ => []
  | steps + 1, id =>
    match t.parent? id with
    | none => []
    | some p => p :: t.climb steps p

/-- Everything strictly above a node, nearest first. -/
def ancestors (t : Tree) (id : NodeId) : List NodeId := t.climb (t.depth id) id

/-- A node and everything below it, in post-order. -/
def subtreePostOrder (t : Tree) (id : NodeId) : List NodeId :=
  (t.descendants id ++ [id]).mergeSort fun a b => t.postIndex a ≤ t.postIndex b

/-! ### Looking for nodes -/

/-- The node reached from the root by following child positions. -/
def atPath? (t : Tree) (path : List Nat) : Option NodeId := path.foldlM t.child? t.root

/-- The first node in pre-order with a label. -/
def find? (t : Tree) (label : String) : Option NodeId := t.preOrder.find? (t.label · == label)

/-- Whether the subtrees at two nodes agree in shape, kinds and labels. -/
def sameSubtree (s t : Tree) (a b : NodeId) : Bool :=
  s.size a == t.size b && (s.subtree a).alike (t.subtree b)

/-- The first node in pre-order whose subtree is that at the given node. -/
def firstAlike (t : Tree) (id : NodeId) : NodeId := (t.preOrder.find? (t.sameSubtree t id)).getD id

/-- Whether two numbers belong to nodes of the same kind. -/
def sameKind (s t : Tree) (a b : NodeId) : Bool :=
  (s.kind? a).any fun kind => t.kind? b == some kind

/-- Whether two nodes have the same label. -/
def sameLabel (s t : Tree) (a b : NodeId) : Bool := s.label a == t.label b

/-- Whether two nodes have the same kind and label. -/
def sameContent (s t : Tree) (a b : NodeId) : Bool := s.sameKind t a b && s.sameLabel t a b

/-! ### Marks -/

/-- Where a node stands in a source text. -/
def span (t : Tree) (id : NodeId) : Except Fault (Option Span) :=
  match t.marks with
  | none => .error (.unsupported .span)
  | some marks => .ok marks.spans[id]?

/-- A further text of a node. -/
def note (t : Tree) (id : NodeId) (key : String) : Except Fault (Option String) :=
  match t.marks with
  | none => .error (.unsupported .metadata)
  | some marks => .ok marks.notes[(id, key)]?

end Tree

end TreeMatching
