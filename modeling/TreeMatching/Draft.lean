import TreeMatching.Tree

/-!
# Growing a tree

A draft starts with a root and grows by one child at a time; a new node is always the last child
of its parent and gets the next number.  At any moment the draft can be turned into a `Tree`.

## Main definitions

* `Forest.addLast?` — adds a node as last child of the node with a given number.
* `Draft`, `Draft.start`, `Draft.addChild`, `Draft.setSpan`, `Draft.setNote`, `Draft.build`.

## Main results

* `Forest.addLast?_perm` — adding a node changes the nodes of a forest by that node only; hence
  drafts stay numbered `1, …, n` (`Rooted.Numbered.addLast?`).
-/

set_option autoImplicit false

namespace TreeMatching

/-- Adds a node as last child of the node numbered `parent`; `none` if there is no such node. -/
def Forest.addLast? (parent : NodeId) (new : Node) : Forest Node → Option (Forest Node)
  | .nil => none
  | .node n below next =>
    if n.id = parent then some (.node n (below.append (.leaf new)) next)
    else
      match below.addLast? parent new with
      | some below => some (.node n below next)
      | none => (next.addLast? parent new).map (.node n below)

/-- Adding a node changes the nodes of a forest by that node only.

**Proof sketch.** Induction on the forest, with the new node below the first root itself, somewhere
below it, or in the rest.  In each case it can be moved to the front. -/
theorem Forest.addLast?_perm {parent : NodeId} {new : Node} {f g : Forest Node}
    (h : f.addLast? parent new = some g) : g.preOrder.Perm (new :: f.preOrder) := by
  induction f generalizing g with
  | nil => simp [Forest.addLast?] at h
  | node n below next ihb ihn =>
    simp only [Forest.addLast?] at h
    split at h
    · cases h
      simp only [Forest.preOrder, Forest.preOrder_append, Forest.leaf, List.append_nil]
      have hb : (below.preOrder ++ [new]).Perm (new :: below.preOrder) := List.perm_append_comm
      exact ((hb.append_right next.preOrder).cons n).trans (.swap new n _)
    · split at h
      · rename_i below' hb
        cases h
        simp only [Forest.preOrder]
        exact (((ihb hb).append_right _).cons n).trans (.swap new n _)
      · simp only [Option.map_eq_some_iff] at h
        obtain ⟨next', hn, rfl⟩ := h
        simp only [Forest.preOrder]
        exact (((ihn hn).append_left _).trans List.perm_middle |>.cons n).trans (.swap new n _)

/-- Adds a node as last child of the node numbered `parent`; `none` if there is no such node. -/
def Rooted.addLast? (parent : NodeId) (new : Node) (t : Rooted Node) : Option (Rooted Node) :=
  if t.root.id = parent then some ⟨t.root, t.below.append (.leaf new)⟩
  else (t.below.addLast? parent new).map (⟨t.root, ·⟩)

/-- Adding a node to a tree keeps its root, and adds the node to all others. -/
theorem Rooted.addLast?_perm {parent : NodeId} {new : Node} {s t : Rooted Node}
    (h : t.addLast? parent new = some s) :
    s.root = t.root ∧ s.preOrder.Perm (new :: t.preOrder) := by
  simp only [Rooted.addLast?] at h
  split at h
  · cases h
    refine ⟨rfl, ?_⟩
    simp only [Rooted.preOrder, Forest.preOrder_append, Forest.leaf, Forest.preOrder,
      List.append_nil]
    exact (List.perm_append_comm.cons t.root).trans (.swap new t.root _)
  · simp only [Option.map_eq_some_iff] at h
    obtain ⟨below, hb, rfl⟩ := h
    exact ⟨rfl, ((Forest.addLast?_perm hb).cons t.root).trans (.swap new t.root _)⟩

/-- **Growth keeps the numbering.**  If the new node carries the next number, the grown tree is
numbered again.

**Proof sketch.** The new tree has one node more, and the numbers are the old ones and the next
one. -/
theorem Rooted.Numbered.addLast? {parent : NodeId} {new : Node} {s t : Rooted Node}
    (numbered : t.Numbered) (fresh : new.id = t.size + 1)
    (h : t.addLast? parent new = some s) : s.Numbered where
  root := (Rooted.addLast?_perm h).1 ▸ numbered.root
  ids := by
    have hp := (Rooted.addLast?_perm h).2
    have hs : s.size = t.size + 1 := by
      have := hp.length_eq
      simpa using this
    have hr : List.range' 1 (t.size + 1) = List.range' 1 t.size ++ [t.size + 1] := by
      rw [List.range'_concat, Nat.add_comm 1, Nat.one_mul]
    rw [hs, hr]
    refine (hp.map Node.id).trans ?_
    rw [List.map_cons, fresh]
    have hc : ((t.size + 1) :: List.range' 1 t.size).Perm (List.range' 1 t.size ++ [t.size + 1]) :=
      (List.perm_append_singleton _ _).symm
    exact (numbered.ids.cons _).trans hc

/-- A tree that is still growing. -/
structure Draft where
  /-- The nodes added so far. -/
  shape : Rooted Node
  /-- The marks set so far. -/
  marks : Marks
  /-- The nodes are numbered in the order in which they were added. -/
  numbered : shape.Numbered

namespace Draft

/-- A draft with a root only. -/
def start (kind : Kind) (label : String) : Draft where
  shape := ⟨⟨1, kind, label⟩, .nil⟩
  marks := {}
  numbered := ⟨rfl, List.Perm.refl _⟩

/-- Whether a number belongs to a node of the draft. -/
def has (d : Draft) (id : NodeId) : Bool := 1 ≤ id && id ≤ d.shape.size

/-- Adds a node as last child of `parent` and returns its number with the grown draft. -/
def addChild (d : Draft) (parent : NodeId) (kind : Kind) (label : String) :
    Except Fault (NodeId × Draft) :=
  let id := d.shape.size + 1
  match h : d.shape.addLast? parent ⟨id, kind, label⟩ with
  | none => .error (.foreignNode parent)
  | some shape => .ok (id, { d with shape, numbered := d.numbered.addLast? rfl h })

/-- Records where a node stands in a source text. -/
def setSpan (d : Draft) (id : NodeId) (span : Span) : Except Fault Draft :=
  if d.has id then
    .ok { d with marks := { d.marks with spans := d.marks.spans.insert id span } }
  else .error (.foreignNode id)

/-- Attaches a further text to a node; an earlier text under the same key is replaced. -/
def setNote (d : Draft) (id : NodeId) (key text : String) : Except Fault Draft :=
  if d.has id then
    .ok { d with marks := { d.marks with notes := d.marks.notes.insert (id, key) text } }
  else .error (.foreignNode id)

/-- The tree that the draft has become. -/
def build (d : Draft) : Tree := .ofShape d.shape d.numbered (some d.marks)

/-- Grows a tree from a root and further nodes, each given by its parent, kind and label. -/
def ofRows (kind : Kind) (label : String) (rows : List (NodeId × Kind × String)) :
    Except Fault Draft :=
  rows.foldlM
    (fun d row => do
      let (_, d) ← d.addChild row.1 row.2.1 row.2.2
      return d)
    (start kind label)

end Draft

end TreeMatching
