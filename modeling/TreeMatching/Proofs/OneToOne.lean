import Mathlib.Data.List.Nodup
import Mathlib.Data.List.Perm.Basic
import TreeMatching.Pairing
import TreeMatching.Proofs.TreeTables

set_option autoImplicit false

/-!
# One-to-one pairings

A pairing is kept in two directions.  It is one-to-one if these are inverse to each other; linking
two free nodes and undoing a link keep it so.

## Main definitions

* `Pairing.OneToOne` — the two directions are inverse to each other.
* `Pairing.Joins` — the pairing is one-to-one and joins nodes of two trees.

## Main results

* `Pairing.isOneToOne_iff` — the check of a pairing decides whether it is one-to-one.
* `Pairing.OneToOne.insert`, `Pairing.OneToOne.erase` — what keeps a pairing one-to-one.
* `Pairing.Joins.insert`, `Pairing.Joins.erase` — the same for pairings of two trees.
-/

namespace TreeMatching.Pairing

variable {p : Pairing} {s d x y : NodeId}

/-! ### Looking at a pairing -/

/-- Two nodes are both free if neither has a partner. -/
lemma bothFree_iff : p.bothFree s d = true ↔ p.dst? s = none ∧ p.src? d = none := by
  simp [bothFree, hasSrc, hasDst]

/-- Two nodes are linked if the one is the partner of the other. -/
lemma has_iff : p.has s d = true ↔ p.dst? s = some d := by
  simp [has]

/-- A source node is free if it has no partner. -/
lemma not_hasSrc_iff : (!p.hasSrc s) = true ↔ p.dst? s = none := by
  simp [hasSrc]

/-- A destination node is free if it has no partner. -/
lemma not_hasDst_iff : (!p.hasDst d) = true ↔ p.src? d = none := by
  simp [hasDst]

/-- The pairs are the linked source nodes with their partners. -/
lemma mem_pairs_iff {z : Pair} : z ∈ p.pairs ↔ p.dst? z.src = some z.dst := by
  simp only [pairs, dst?, List.mem_map, Prod.exists, Partners.mem_entries_iff]
  constructor
  · rintro ⟨s, d, h, rfl⟩
    exact h
  · intro h
    exact ⟨z.src, z.dst, h, rfl⟩

/-- The size of a pairing is the number of its pairs. -/
lemma length_pairs : p.pairs.length = p.size := by
  rw [pairs, List.length_map, Partners.length_entries, p.size_eq]

/-- The pairs are listed by the order of their source nodes. -/
lemma pairwise_pairs : p.pairs.Pairwise (·.src < ·.src) := by
  rw [pairs, List.pairwise_map]
  exact p.forward.pairwise_entries

/-- No source node occurs in two pairs. -/
lemma nodup_map_src_pairs : (p.pairs.map Pair.src).Nodup := by
  have h : p.pairs.map Pair.src = p.forward.nodes := by
    rw [pairs, List.map_map]
    rfl
  rw [h]
  exact p.forward.nodup_nodes

/-- No pair is listed twice. -/
lemma nodup_pairs : p.pairs.Nodup := List.Nodup.of_map _ nodup_map_src_pairs

/-! ### The two directions -/

/-- The two directions of a pairing are inverse to each other. -/
def OneToOne (p : Pairing) : Prop := ∀ s d, p.dst? s = some d ↔ p.src? d = some s

/-- In the empty pairing no source node has a partner. -/
@[simp] lemma dst?_empty : empty.dst? s = none := Partners.get?_blank ..

/-- In the empty pairing no destination node has a partner. -/
@[simp] lemma src?_empty : empty.src? d = none := Partners.get?_blank ..

/-- The empty pairing is one-to-one. -/
lemma oneToOne_empty : empty.OneToOne := by
  intro s d
  simp

/-- Two nodes with the same partner are the same. -/
lemma OneToOne.src_inj (h : p.OneToOne) (hs : p.dst? s = some d) (hx : p.dst? x = some d) :
    s = x := by
  rw [h] at hs hx
  rw [hs, Option.some_inj] at hx
  exact hx

/-- Linking two free nodes keeps a pairing one-to-one.

**Proof sketch.** Both look-ups change at one place.  The four cases are whether `x` and `y` are the
new partners; in the mixed cases an old link would lead to a node that was free. -/
lemma OneToOne.insert (h : p.OneToOne) (hs : p.dst? s = none) (hd : p.src? d = none) :
    (p.insert s d).OneToOne := by
  intro x y
  rw [dst?_insert, src?_insert]
  by_cases hx : s = x
  · subst hx
    by_cases hy : d = y
    · simp [hy]
    · have hback : p.src? y ≠ some s := fun e => by
        rw [← h s y, hs] at e
        cases e
      simp [hy, hback]
  · by_cases hy : d = y
    · subst hy
      have hforth : p.dst? x ≠ some d := fun e => by
        rw [h x d, hd] at e
        cases e
      simp [hx, hforth]
    · simpa [hx, hy] using h x y

/-- Undoing a link keeps a pairing one-to-one.

**Proof sketch.** As for `OneToOne.insert`, with four cases; in the mixed ones the link that is
undone would be another one. -/
lemma OneToOne.erase (h : p.OneToOne) (hsd : p.dst? s = some d) : (p.erase s d).OneToOne := by
  intro x y
  rw [dst?_erase, src?_erase]
  by_cases hx : s = x
  · subst hx
    by_cases hy : d = y
    · simp [hy]
    · have hback : p.src? y ≠ some s := fun e => by
        rw [← h s y, hsd, Option.some.injEq] at e
        exact hy e
      simp [hy, hback]
  · by_cases hy : d = y
    · subst hy
      have hforth : p.dst? x ≠ some d := fun e => by
        rw [h x d, (h s d).1 hsd, Option.some.injEq] at e
        exact hx e
      simp [hx, hforth]
    · simpa [hx, hy] using h x y

/-- In a one-to-one pairing no destination node occurs in two pairs. -/
lemma nodup_map_dst_pairs (h : ∀ s d, p.dst? s = some d → p.src? d = some s) :
    (p.pairs.map Pair.dst).Nodup := by
  refine List.Nodup.map_on ?_ nodup_pairs
  rintro ⟨s, d⟩ hz ⟨s', d'⟩ hz' hd
  obtain rfl : d = d' := hd
  have h1 := h _ _ (mem_pairs_iff.1 hz)
  rw [h _ _ (mem_pairs_iff.1 hz'), Option.some.injEq] at h1
  exact congrArg (Pair.mk · d) h1.symm

/-- **The check of a pairing decides whether it is one-to-one.**

**Proof sketch.** The check finds every pair again from its destination, so the destinations of the
pairs are distinct nodes with a partner.  Since there are as many nodes with a partner on either
side, these are all of them, and the backward direction knows nothing that the forward one does
not. -/
theorem isOneToOne_iff : p.isOneToOne = true ↔ p.OneToOne := by
  have hlen : (p.pairs.map Pair.dst).length = p.size := by rw [List.length_map, length_pairs]
  have hnodes : ∀ d, d ∈ p.backward.nodes ↔ ∃ s, p.src? d = some s := fun d =>
    Partners.mem_nodes_iff
  simp only [isOneToOne, length_pairs, Bool.and_eq_true, List.all_eq_true, beq_iff_eq, and_true]
  constructor
  · rintro ⟨hback, hsize⟩
    have hforth : ∀ s d, p.dst? s = some d → p.src? d = some s := fun s d hsd =>
      hback ⟨s, d⟩ (mem_pairs_iff.2 hsd)
    have hsub : p.pairs.map Pair.dst ⊆ p.backward.nodes := by
      intro d hd
      obtain ⟨z, hz, rfl⟩ := List.mem_map.1 hd
      exact (hnodes _).2 ⟨z.src, hback z hz⟩
    have hperm : (p.pairs.map Pair.dst).Perm p.backward.nodes :=
      (List.subperm_of_subset (nodup_map_dst_pairs hforth) hsub).perm_of_length_le
        (by rw [hlen, Partners.length_nodes, hsize])
    intro s d
    refine ⟨hforth s d, fun hds => ?_⟩
    obtain ⟨z, hz, rfl⟩ := List.mem_map.1 (hperm.mem_iff.2 ((hnodes d).2 ⟨s, hds⟩))
    rw [hback z hz, Option.some.injEq] at hds
    rw [← hds]
    exact mem_pairs_iff.1 hz
  · intro h
    refine ⟨fun z hz => (h _ _).1 (mem_pairs_iff.1 hz), ?_⟩
    have hperm : (p.pairs.map Pair.dst).Perm p.backward.nodes := by
      rw [List.perm_ext_iff_of_nodup (nodup_map_dst_pairs fun s d => (h s d).1)
        p.backward.nodup_nodes]
      intro d
      rw [hnodes, List.mem_map]
      constructor
      · rintro ⟨z, hz, rfl⟩
        exact ⟨z.src, (h _ _).1 (mem_pairs_iff.1 hz)⟩
      · rintro ⟨s, hs⟩
        exact ⟨⟨s, d⟩, mem_pairs_iff.2 ((h s d).2 hs), rfl⟩
    rw [← Partners.length_nodes, ← hperm.length_eq, hlen]

/-! ### Pairings of two trees -/

/-- A one-to-one pairing whose pairs join a node of the one tree with a node of the other. -/
structure Joins (p : Pairing) (src dst : Tree) : Prop where
  /-- The two directions are inverse to each other. -/
  oneToOne : p.OneToOne
  /-- Every pair consists of a source node and a destination node. -/
  nodes : ∀ s d, p.dst? s = some d → s ∈ src.preOrder ∧ d ∈ dst.preOrder

variable {src dst : Tree}

/-- Linking free nodes of the two trees keeps a pairing of the two trees. -/
lemma Joins.insert (h : p.Joins src dst) (hs : p.dst? s = none) (hd : p.src? d = none)
    (hsrc : s ∈ src.preOrder) (hdst : d ∈ dst.preOrder) : (p.insert s d).Joins src dst where
  oneToOne := h.oneToOne.insert hs hd
  nodes := by
    intro x y hxy
    rw [dst?_insert] at hxy
    split at hxy
    · next hx =>
      cases hxy
      exact ⟨hx ▸ hsrc, hdst⟩
    · exact h.nodes x y hxy

/-- Undoing a link keeps a pairing of the two trees. -/
lemma Joins.erase (h : p.Joins src dst) (hsd : p.dst? s = some d) :
    (p.erase s d).Joins src dst where
  oneToOne := h.oneToOne.erase hsd
  nodes := by
    intro x y hxy
    rw [dst?_erase] at hxy
    split at hxy
    · cases hxy
    · exact h.nodes x y hxy

end TreeMatching.Pairing
