import TreeMatching.Forest
import TreeMatching.Kind

/-!
# Nodes of labelled trees

A node has a number, which names it within its tree, a kind and a label.  Two subtrees are *alike*
when they agree in everything but the numbers: the same kinds and labels in the same arrangement.

## Main definitions

* `NodeId`, `Node` — a node and its number.
* `Node.alike`, `Forest.alike`, `Rooted.alike` — equality up to numbering.
* `Rooted.Numbered` — the nodes carry the numbers `1, 2, …, n`, each exactly once.

## Main results

* `Forest.alike_iff` — two forests are alike exactly when erasing the numbers makes them equal.
-/

set_option autoImplicit false

namespace TreeMatching

/-- The number of a node within its tree; numbers start at one. -/
abbrev NodeId := Nat

/-- A node of a labelled tree. -/
structure Node where
  /-- The number that names the node within its tree. -/
  id : NodeId
  /-- What the node is. -/
  kind : Kind
  /-- The text the node carries; it may be empty. -/
  label : String
deriving DecidableEq, Inhabited

/-- What a node shows apart from its number. -/
def Node.content (n : Node) : Kind × String := (n.kind, n.label)

/-- Whether two nodes have the same kind and the same label. -/
def Node.alike (a b : Node) : Bool := a.kind == b.kind && a.label == b.label

/-- Two nodes are alike exactly if they have the same content. -/
theorem Node.alike_iff (a b : Node) : a.alike b = true ↔ a.content = b.content := by
  simp [Node.alike, Node.content, Prod.ext_iff]

/-- Whether two forests have the same shape with the same kinds and labels. -/
def Forest.alike : Forest Node → Forest Node → Bool
  | .nil, .nil => true
  | .node a below next, .node b below' next' =>
    a.alike b && below.alike below' && next.alike next'
  | _, _ => false

/-- **Likeness is equality of contents.**  Two forests are alike exactly when they become equal
once the numbers of the nodes are erased. -/
theorem Forest.alike_iff (f g : Forest Node) :
    f.alike g = true ↔ f.map Node.content = g.map Node.content := by
  induction f generalizing g with
  | nil => cases g <;> simp [Forest.alike, Forest.map]
  | node a below next ihb ihn =>
    cases g with
    | nil => simp [Forest.alike, Forest.map]
    | node b below' next' =>
      simp [Forest.alike, Forest.map, Node.alike_iff, ihb, ihn, and_assoc]

/-- Whether two trees agree in shape, kinds and labels. -/
def Rooted.alike (s t : Rooted Node) : Bool := s.root.alike t.root && s.below.alike t.below

/-- The nodes carry the numbers from one to the node count, each number once, and the root is
number one. -/
structure Rooted.Numbered (t : Rooted Node) : Prop where
  /-- The root has the first number. -/
  root : t.root.id = 1
  /-- The numbers in use are `1, …, n`. -/
  ids : (t.preOrder.map Node.id).Perm (List.range' 1 t.size)

/-- Numbers a forest in pre-order, starting at `start`, and returns the next free number with
it. -/
def Forest.number : Forest (Kind × String) → Nat → Forest Node × Nat
  | .nil, start => (.nil, start)
  | .node (kind, label) below next, start =>
    let (below, stop) := below.number (start + 1)
    let (next, stop) := next.number stop
    (.node ⟨start, kind, label⟩ below next, stop)

/-- Numbers a tree in pre-order; the root is number one. -/
def Rooted.number (t : Rooted (Kind × String)) : Rooted Node :=
  ⟨⟨1, t.root.1, t.root.2⟩, (t.below.number 2).1⟩

/-- Numbering uses up as many numbers as there are nodes. -/
@[simp]
theorem Forest.number_snd (f : Forest (Kind × String)) (start : Nat) :
    (f.number start).2 = start + f.size := by
  induction f generalizing start with
  | nil => rfl
  | node a below next ihb ihn =>
    simp only [Forest.number, Forest.size, ihb, ihn]
    omega

/-- Numbering in pre-order lists the numbers consecutively in pre-order. -/
theorem Forest.map_id_preOrder_number (f : Forest (Kind × String)) (start : Nat) :
    (f.number start).1.preOrder.map Node.id = List.range' start f.size := by
  induction f generalizing start with
  | nil => rfl
  | node a below next ihb ihn =>
    have h : below.size + 1 + next.size = 1 + (below.size + next.size) := by omega
    simp only [Forest.number, Forest.preOrder, List.map_cons, List.map_append, ihb, ihn,
      Forest.size, Forest.number_snd, h]
    rw [← List.range'_append_1 (s := start) (m := 1), ← List.range'_append_1]
    simp [List.range'_succ]

/-- Numbering keeps the size. -/
@[simp]
theorem Forest.size_number (f : Forest (Kind × String)) (start : Nat) :
    (f.number start).1.size = f.size := by
  have h := congrArg List.length (f.map_id_preOrder_number start)
  simpa using h

/-- A tree numbered in pre-order is numbered. -/
theorem Rooted.numbered_number (t : Rooted (Kind × String)) : t.number.Numbered where
  root := rfl
  ids := by
    have h : t.number.size = t.below.size + 1 := by simp [Rooted.number, Rooted.size]
    rw [h]
    simp [Rooted.number, Rooted.preOrder, Forest.map_id_preOrder_number, List.range'_succ]

end TreeMatching
