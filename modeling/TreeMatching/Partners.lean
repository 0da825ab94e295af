import TreeMatching.Node

/-!
# Tables of partners

A table of partners has a place for each of the first few nodes of a tree, and a place holds the
partner of its node, if there is one.  A node past the end of the table has none.  The table grows
as far as needed when a node gets a partner; it never shrinks.

## Main definitions

* `Partners` — the table.
* `Partners.get?`, `Partners.entries`, `Partners.nodes`, `Partners.count` — how it is looked at.
* `Partners.set`, `Partners.clear` — how it is changed.

## Main results

* `Partners.get?_set`, `Partners.get?_clear` — a change is seen at its own node only.
* `Partners.count_set`, `Partners.count_clear` — how a change moves the number of partners.
* `Partners.mem_entries_iff`, `Partners.pairwise_entries`, `Partners.length_entries` — the entries
  are the nodes with their partners, in order, as many as there are partners.
-/

set_option autoImplicit false

namespace TreeMatching

/-- The partners of the nodes of one tree. -/
structure Partners where
  /-- What stands at the places of the first few nodes. -/
  places : Array (Option NodeId)

namespace Partners

/-- A table of the given length without partners. -/
def blank (length : Nat) : Partners := ⟨Array.replicate length none⟩

/-- The partner of a node. -/
def get? (t : Partners) (id : NodeId) : Option NodeId := t.places[id]?.join

/-- The number of nodes that have a partner. -/
def count (t : Partners) : Nat := t.places.countP Option.isSome

/-- The nodes that have a partner, in their order, each with its partner. -/
def entries (t : Partners) : List (NodeId × NodeId) :=
  t.places.toList.zipIdx.filterMap fun (partner, id) => partner.map (id, ·)

/-- The nodes that have a partner, in their order. -/
def nodes (t : Partners) : List NodeId := t.entries.map Prod.fst

/-- The table, at least so long that it has a place for a node. -/
def grown (t : Partners) (id : NodeId) : Partners :=
  ⟨t.places ++ Array.replicate (id + 1 - t.places.size) none⟩

/-- Gives a node a partner. -/
def set (t : Partners) (id partner : NodeId) : Partners :=
  ⟨(t.grown id).places.setIfInBounds id (some partner)⟩

/-- Takes its partner from a node. -/
def clear (t : Partners) (id : NodeId) : Partners :=
  ⟨t.places.setIfInBounds id none⟩

/-- In a blank table nobody has a partner. -/
@[simp] theorem get?_blank (length id : Nat) : (blank length).get? id = none := by
  simp only [get?, blank, Array.getElem?_replicate]
  split <;> rfl

/-- In a blank table there are no entries to count. -/
@[simp] theorem count_blank (length : Nat) : (blank length).count = 0 := by
  simp [count, blank, Array.countP_replicate]

/-! ### Growing a table -/

/-- A table that has grown for a number has a place for it. -/
theorem lt_size_grown (t : Partners) (id : Nat) : id < (t.grown id).places.size := by
  simp only [grown, Array.size_append, Array.size_replicate]
  omega

/-- Growing does not change the partner of anybody. -/
@[simp] theorem get?_grown (t : Partners) (id x : NodeId) : (t.grown id).get? x = t.get? x := by
  simp only [get?, grown, Array.getElem?_append, Array.getElem?_replicate]
  split
  · rfl
  · next h =>
    rw [Array.getElem?_eq_none (Nat.not_lt.mp h)]
    split <;> rfl

/-- Growing does not change the number of entries. -/
@[simp] theorem count_grown (t : Partners) (id : NodeId) : (t.grown id).count = t.count := by
  simp [count, grown, Array.countP_append, Array.countP_replicate]

/-! ### What the two changes do -/

/-- Setting a partner changes that of one number only. -/
theorem get?_set (t : Partners) (id partner x : NodeId) :
    (t.set id partner).get? x = if id = x then some partner else t.get? x := by
  rw [← get?_grown t id x]
  simp only [get?, set, Array.getElem?_setIfInBounds, lt_size_grown, if_true]
  split <;> rfl

/-- Clearing a place changes the partner of one number only. -/
theorem get?_clear (t : Partners) (id x : NodeId) :
    (t.clear id).get? x = if id = x then none else t.get? x := by
  simp only [get?, clear, Array.getElem?_setIfInBounds]
  split
  · split <;> rfl
  · rfl

/-- Overwriting a place changes the number of partners by what the place held and by what it
holds now. -/
theorem count_setIfInBounds (t : Partners) (id : NodeId) (x : Option NodeId)
    (h : id < t.places.size) :
    count ⟨t.places.setIfInBounds id x⟩ + (if (t.get? id).isSome then 1 else 0) =
      t.count + (if x.isSome then 1 else 0) := by
  have hget : t.get? id = t.places[id] := by
    rw [get?, Array.getElem?_eq_getElem h, Option.join_some]
  have hle : (if t.places[id].isSome then 1 else 0) ≤ t.places.countP Option.isSome :=
    Array.boole_getElem_le_countP h
  rw [count, Array.setIfInBounds, dif_pos h, Array.countP_set h, hget, count]
  omega

/-- Setting a partner adds an entry, unless there was one before. -/
theorem count_set (t : Partners) (id partner : NodeId) :
    (t.set id partner).count = if (t.get? id).isSome then t.count else t.count + 1 := by
  have h := count_setIfInBounds (t.grown id) id (some partner) (lt_size_grown t id)
  rw [get?_grown, count_grown, Option.isSome_some, if_pos rfl] at h
  rw [set]
  by_cases hsome : (t.get? id).isSome
  · rw [if_pos hsome] at h ⊢
    omega
  · rw [if_neg hsome] at h ⊢
    omega

/-- Clearing a place takes away an entry, if there was one. -/
theorem count_clear (t : Partners) (id : NodeId) :
    (t.clear id).count = if (t.get? id).isSome then t.count - 1 else t.count := by
  rw [clear]
  by_cases hid : id < t.places.size
  · have h := count_setIfInBounds t id none hid
    rw [Option.isSome_none, if_neg Bool.false_ne_true] at h
    by_cases hsome : (t.get? id).isSome
    · rw [if_pos hsome] at h ⊢
      omega
    · rw [if_neg hsome] at h ⊢
      omega
  · have hget : t.get? id = none := by
      rw [get?, Array.getElem?_eq_none (Nat.not_lt.mp hid), Option.join_none]
    rw [Array.setIfInBounds, dif_neg hid, hget]
    rfl

/-! ### The nodes that have a partner -/

/-- The entries are the numbers that have partners, with these. -/
theorem mem_entries_iff {t : Partners} {id x : NodeId} :
    (id, x) ∈ t.entries ↔ t.get? id = some x := by
  simp only [entries, get?, List.mem_filterMap, Prod.exists, List.mem_zipIdx_iff_getElem?,
    Option.map_eq_some_iff, Prod.mk.injEq, Array.getElem?_toList, Option.join_eq_some_iff]
  constructor
  · rintro ⟨_, _, h, _, rfl, rfl, rfl⟩
    exact h
  · intro h
    exact ⟨some x, id, h, x, rfl, rfl, rfl⟩

/-- The entries are listed by the order of their nodes. -/
theorem pairwise_entries (t : Partners) : t.entries.Pairwise (·.1 < ·.1) := by
  have hidx : t.places.toList.zipIdx.Pairwise (·.2 < ·.2) := by
    rw [← List.pairwise_map (R := (· < ·)), List.zipIdx_map_snd]
    exact List.pairwise_lt_range'
  refine hidx.filterMap _ ?_
  rintro ⟨x, i⟩ ⟨y, j⟩ hij a ha b hb
  obtain ⟨_, _, rfl⟩ := Option.map_eq_some_iff.mp ha
  obtain ⟨_, _, rfl⟩ := Option.map_eq_some_iff.mp hb
  exact hij

/-- The number of entries is the one that is kept. -/
theorem length_entries (t : Partners) : t.entries.length = t.count := by
  calc t.entries.length
      = t.places.toList.zipIdx.countP (Option.isSome ∘ Prod.fst) := by
        simp [entries, List.length_filterMap_eq_countP, Function.comp_def]
    _ = (t.places.toList.zipIdx.map Prod.fst).countP Option.isSome := List.countP_map.symm
    _ = t.count := by rw [List.zipIdx_map_fst, Array.countP_toList, count]

/-- The listed nodes are those that have partners. -/
theorem mem_nodes_iff {t : Partners} {id : NodeId} : id ∈ t.nodes ↔ ∃ x, t.get? id = some x := by
  simp [nodes, mem_entries_iff]

/-- No node is listed twice. -/
theorem nodup_nodes (t : Partners) : t.nodes.Nodup :=
  List.pairwise_map.mpr (t.pairwise_entries.imp fun h => Nat.ne_of_lt h)

/-- As many nodes are listed as there are entries. -/
theorem length_nodes (t : Partners) : t.nodes.length = t.count := by
  rw [nodes, List.length_map, length_entries]

end Partners

end TreeMatching
