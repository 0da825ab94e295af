import Mathlib.Algebra.BigOperators.Ring.Finset
import Mathlib.Algebra.BigOperators.WithTop
import Mathlib.Order.Interval.Finset.Nat
import TreeMatching.Proofs.DistanceTables

set_option autoImplicit false

/-!
# Edit mappings and the distance of two trees

An edit mapping of two trees is a set of pairs of nodes that is one-to-one, respects the ancestors
and the order from left to right in both directions, and pairs nodes of the same kind.  The nodes
without a partner are deleted or inserted at cost one each, and a pair with different labels costs
as much as relabelling.

The distance is computed from numbers and not from nodes.  A numbering, from the left as well as
from the right, turns edit mappings into alignments of the numbers and back, at the same cost.

## Main definitions

* `IsEditMapping`, `editCost`, `editCosts` — edit mappings, the cost of one, and all costs.
* `Numbering.nodesAt` — the pair of nodes that a pair of numbers stands for.

## Main results

* `Numbering.Describes.isDescendant_iff`, `Numbering.Describes.isLeftOf_iff` — how numbers decide
  which of two nodes is above or beside the other.
* `Numbering.isEditMapping_image_iff` — edit mappings are alignments with equal kinds.
* `Numbering.isLeast_editCosts_distance` — the distance of two numberings is the least cost of an
  edit mapping.
* `distance_is_least_edit_cost` — hence numbering from the left and from the right gives the same
  distance.
-/

namespace TreeMatching

/-- A set of pairs of nodes of two trees that describes how the one tree is edited into the other:
which nodes are kept, and what becomes of them. -/
structure IsEditMapping (src dst : Tree) (M : Finset (NodeId × NodeId)) : Prop where
  /-- The pairs consist of nodes of the two trees. -/
  nodes : ∀ x ∈ M, x.1 ∈ src.preOrder ∧ x.2 ∈ dst.preOrder
  /-- No node has two partners. -/
  oneToOne : ∀ x ∈ M, ∀ y ∈ M, x.1 = y.1 ↔ x.2 = y.2
  /-- One node lies below another exactly if its partner lies below the partner of that one. -/
  ancestors : ∀ x ∈ M, ∀ y ∈ M, src.isDescendant x.1 y.1 = true ↔ dst.isDescendant x.2 y.2 = true
  /-- One node lies to the left of another exactly if its partner lies to the left of the partner of
  that one. -/
  order : ∀ x ∈ M, ∀ y ∈ M, src.isLeftOf x.1 y.1 = true ↔ dst.isLeftOf x.2 y.2 = true
  /-- Partners have the same kind. -/
  kinds : ∀ x ∈ M, src.kind x.1 = dst.kind x.2

/-- The cost of an edit mapping: one for each node without a partner, and `cost` for each pair with
different labels. -/
def editCost (src dst : Tree) (cost : ℚ) (M : Finset (NodeId × NodeId)) : ℚ :=
  (src.count - M.card) + (dst.count - M.card) +
    cost * (M.filter fun x => src.label x.1 ≠ dst.label x.2).card

/-- The costs of all edit mappings of two trees. -/
def editCosts (src dst : Tree) (cost : ℚ) : Set ℚ :=
  {c | ∃ M, IsEditMapping src dst M ∧ editCost src dst cost M = c}

namespace Numbering

/-! ### Numbers and nodes -/

section OneTree

variable {a : Numbering} {t : Tree} {mirrored : Bool} {place : Entry → Nat} {i j : ℕ}

/-- Every node has a number. -/
lemma Describes.exists_number (h : a.Describes t mirrored place) {id : NodeId}
    (hid : id ∈ t.preOrder) : ∃ i, (1 ≤ i ∧ i ≤ a.size) ∧ (a.node i).id = id := by
  obtain ⟨he, hnode⟩ := Tree.entry_mem_of_mem_preOrder hid
  have hr := h.range _ he
  have hs := Tree.size_pos_of_mem_entries he
  refine ⟨place (t.entry id), ⟨by omega, h.size ▸ hr.2⟩, ?_⟩
  rw [h.node he, hnode]

/-- Every number stands for a node, with an entry at that place. -/
lemma Describes.exists_entry (h : a.Describes t mirrored place) (hi : 1 ≤ i ∧ i ≤ a.size) :
    ∃ e ∈ t.entries, place e = i ∧ e.node = a.node i := by
  obtain ⟨e, he, rfl⟩ := h.onto i hi.1 (h.size ▸ hi.2)
  exact ⟨e, he, rfl, (h.node he).symm⟩

/-- Different numbers stand for different nodes. -/
lemma Describes.id_node_inj (h : a.Describes t mirrored place) (hi : 1 ≤ i ∧ i ≤ a.size)
    (hj : 1 ≤ j ∧ j ≤ a.size) : (a.node i).id = (a.node j).id ↔ i = j := by
  obtain ⟨e, he, rfl, hne⟩ := h.exists_entry hi
  obtain ⟨u, hu, rfl, hnu⟩ := h.exists_entry hj
  rw [← hne, ← hnu]
  refine ⟨fun heq => ?_, fun heq => ?_⟩
  · rw [Tree.entry_ext he hu heq]
  · rw [h.place_inj he hu heq]

/-- **What lies below a node** are the numbers of its run, except its own. -/
lemma Describes.isDescendant_iff (h : a.Describes t mirrored place) (hi : 1 ≤ i ∧ i ≤ a.size)
    (hj : 1 ≤ j ∧ j ≤ a.size) :
    t.isDescendant (a.node i).id (a.node j).id = true ↔ j < i ∧ a.first i ≤ j := by
  obtain ⟨e, he, rfl, hne⟩ := h.exists_entry hi
  obtain ⟨u, hu, rfl, hnu⟩ := h.exists_entry hj
  have hf := h.first_add_size he
  rw [← hne, ← hnu, Tree.isDescendant_iff_above he hu, h.above e he u hu]
  omega

/-- **What lies to the left of a node** are the numbers before its run; if nodes are numbered from
the right, it is the other way round.

**Proof sketch.** The run of a node ends with its own number and is as long as its subtree.
Numbered from the left, the nodes beside an entry come before its run; numbered from the right, they
come behind it. -/
lemma Describes.isLeftOf_iff (h : a.Describes t mirrored place) (hi : 1 ≤ i ∧ i ≤ a.size)
    (hj : 1 ≤ j ∧ j ≤ a.size) :
    t.isLeftOf (a.node i).id (a.node j).id = true ↔
      if mirrored then j < a.first i else i < a.first j := by
  obtain ⟨e, he, rfl, hne⟩ := h.exists_entry hi
  obtain ⟨u, hu, rfl, hnu⟩ := h.exists_entry hj
  have hfe := h.first_add_size he
  have hfu := h.first_add_size hu
  have heu := h.beside e he u hu
  have hue := h.beside u hu e he
  rw [← hne, ← hnu, Tree.isLeftOf_iff_leftOf he hu]
  cases mirrored with
  | false =>
    simp only [Entry.Beside, Bool.false_eq_true, ↓reduceIte] at heu ⊢
    rw [heu]
    omega
  | true =>
    simp only [Entry.Beside, ↓reduceIte] at hue ⊢
    rw [hue]
    omega

/-- The tree and the numbering agree about the kind of a node. -/
lemma Describes.kind_node (h : a.Describes t mirrored place) (hi : 1 ≤ i ∧ i ≤ a.size) :
    t.kind (a.node i).id = (a.node i).kind := by
  obtain ⟨e, he, rfl, hne⟩ := h.exists_entry hi
  rw [← hne, Tree.kind, Tree.entry_of_mem_entries he]

/-- The tree and the numbering agree about the label of a node. -/
lemma Describes.label_node (h : a.Describes t mirrored place) (hi : 1 ≤ i ∧ i ≤ a.size) :
    t.label (a.node i).id = (a.node i).label := by
  obtain ⟨e, he, rfl, hne⟩ := h.exists_entry hi
  rw [← hne, Tree.label, Tree.entry_of_mem_entries he]

end OneTree

/-! ### Edit mappings as alignments -/

/-- The nodes that a pair of numbers stands for. -/
def nodesAt (a b : Numbering) (u : ℕ × ℕ) : NodeId × NodeId := ((a.node u.1).id, (b.node u.2).id)

/-- A pair of numbers of nodes. -/
def InRange (a b : Numbering) (u : ℕ × ℕ) : Prop :=
  (1 ≤ u.1 ∧ u.1 ≤ a.size) ∧ 1 ≤ u.2 ∧ u.2 ≤ b.size

/-- The pairs consist of nodes of the same kind. -/
def SameKinds (a b : Numbering) (pairs : Finset (ℕ × ℕ)) : Prop :=
  ∀ u ∈ pairs, (a.node u.1).kind = (b.node u.2).kind

variable {a b : Numbering} {src dst : Tree} {mirrored : Bool} {place place' : Entry → Nat}
  {pairs : Finset (ℕ × ℕ)}

/-- An alignment of two whole trees joins nodes of the trees. -/
lemma Aligned.inRange (h : a.Aligned b 1 1 (a.size + 1) (b.size + 1) pairs) :
    ∀ u ∈ pairs, a.InRange b u := by
  intro u hu
  have := h.range u hu
  exact ⟨by omega, by omega⟩

/-- Different pairs of numbers stand for different pairs of nodes. -/
lemma injOn_nodesAt (ha : a.Describes src mirrored place) (hb : b.Describes dst mirrored place')
    (hr : ∀ u ∈ pairs, a.InRange b u) : Set.InjOn (a.nodesAt b) pairs := by
  intro u hu v hv heq
  obtain ⟨h1, h2⟩ := Prod.mk.inj heq
  exact Prod.ext ((ha.id_node_inj (hr u hu).1 (hr v hv).1).1 h1)
    ((hb.id_node_inj (hr u hu).2 (hr v hv).2).1 h2)

/-- Pairs of numbers align the two trees if and only if the same numbers lie below each other, and
the same numbers beside each other, on both sides: the smaller one of two numbers lies below or
beside the larger one.

**Proof sketch.** Of two different numbers the larger one has the smaller one in its run or behind
it, so that "below" and "beside" cover all cases.  Each of the conditions of an alignment then is a
statement about inequalities between numbers and the starts of runs. -/
lemma aligned_iff_below_beside (hr : ∀ u ∈ pairs, a.InRange b u) :
    a.Aligned b 1 1 (a.size + 1) (b.size + 1) pairs ↔
      (∀ u ∈ pairs, ∀ v ∈ pairs,
        (v.1 < u.1 ∧ a.first u.1 ≤ v.1 ↔ v.2 < u.2 ∧ b.first u.2 ≤ v.2)) ∧
      ∀ u ∈ pairs, ∀ v ∈ pairs, (u.1 < a.first v.1 ↔ u.2 < b.first v.2) := by
  constructor
  · intro h
    constructor
    · intro u hu v hv
      have h1 := h.order v hv u hu
      have h2 := h.nested v hv u hu
      omega
    · intro u hu v hv
      have h1 := h.order u hu v hv
      have h2 := h.nested u hu v hv
      have hfa := a.first_le v.1
      have hfb := b.first_le v.2
      omega
  · rintro ⟨hbelow, hbeside⟩
    refine ⟨?_, ?_, ?_⟩
    · intro u hu
      have ⟨h1, h2⟩ := hr u hu
      omega
    · intro u hu v hv
      have h1 := hbelow v hv u hu
      have h2 := hbeside u hu v hv
      have hfa := a.first_le v.1
      have hfb := b.first_le v.2
      omega
    · intro u hu v hv huv
      have h1 := hbelow v hv u hu
      have h2 := hbeside u hu v hv
      omega

/-- The same nodes lie to the left of each other if and only if the same numbers lie beside each
other, no matter from which side nodes are numbered.

**Proof sketch.** For each pair of pairs both sides say the same, with the two exchanged if nodes
are numbered from the right.  Since all pairs of pairs are considered, this makes no difference. -/
lemma isLeftOf_iff_beside (ha : a.Describes src mirrored place)
    (hb : b.Describes dst mirrored place') (hr : ∀ u ∈ pairs, a.InRange b u) :
    (∀ u ∈ pairs, ∀ v ∈ pairs, src.isLeftOf (a.node u.1).id (a.node v.1).id = true ↔
        dst.isLeftOf (b.node u.2).id (b.node v.2).id = true) ↔
      ∀ u ∈ pairs, ∀ v ∈ pairs, (u.1 < a.first v.1 ↔ u.2 < b.first v.2) := by
  have hsides : ∀ u ∈ pairs, ∀ v ∈ pairs,
      ((src.isLeftOf (a.node u.1).id (a.node v.1).id = true ↔
        dst.isLeftOf (b.node u.2).id (b.node v.2).id = true) ↔
        if mirrored then (v.1 < a.first u.1 ↔ v.2 < b.first u.2)
        else (u.1 < a.first v.1 ↔ u.2 < b.first v.2)) := by
    intro u hu v hv
    rw [ha.isLeftOf_iff (hr u hu).1 (hr v hv).1, hb.isLeftOf_iff (hr u hu).2 (hr v hv).2]
    cases mirrored <;> rfl
  -- seen from the right, the two pairs change their roles
  cases mirrored with
  | false =>
    simp only [Bool.false_eq_true, ↓reduceIte] at hsides
    exact ⟨fun h u hu v hv => (hsides u hu v hv).1 (h u hu v hv),
      fun h u hu v hv => (hsides u hu v hv).2 (h u hu v hv)⟩
  | true =>
    simp only [↓reduceIte] at hsides
    exact ⟨fun h u hu v hv => (hsides v hv u hu).1 (h v hv u hu),
      fun h u hu v hv => (hsides u hu v hv).2 (h v hv u hu)⟩

/-- **Edit mappings are alignments with equal kinds.**

**Proof sketch.** The conditions on ancestors, order and kinds are translated one by one by the
lemmas above.  Alignments are one-to-one because they keep the order of numbers in both
directions. -/
theorem isEditMapping_image_iff (ha : a.Describes src mirrored place)
    (hb : b.Describes dst mirrored place') (hr : ∀ u ∈ pairs, a.InRange b u) :
    IsEditMapping src dst (pairs.image (a.nodesAt b)) ↔
      a.Aligned b 1 1 (a.size + 1) (b.size + 1) pairs ∧ a.SameKinds b pairs := by
  have hbelow : ∀ u ∈ pairs, ∀ v ∈ pairs,
      ((src.isDescendant (a.node u.1).id (a.node v.1).id = true ↔
        dst.isDescendant (b.node u.2).id (b.node v.2).id = true) ↔
        (v.1 < u.1 ∧ a.first u.1 ≤ v.1 ↔ v.2 < u.2 ∧ b.first u.2 ≤ v.2)) := by
    intro u hu v hv
    rw [ha.isDescendant_iff (hr u hu).1 (hr v hv).1, hb.isDescendant_iff (hr u hu).2 (hr v hv).2]
  have hkinds : ∀ u ∈ pairs, (src.kind (a.node u.1).id = dst.kind (b.node u.2).id ↔
      (a.node u.1).kind = (b.node u.2).kind) := by
    intro u hu
    rw [ha.kind_node (hr u hu).1, hb.kind_node (hr u hu).2]
  constructor
  · rintro ⟨-, -, hancestors, horder, hk⟩
    simp only [Finset.forall_mem_image, nodesAt] at hancestors horder hk
    refine ⟨(aligned_iff_below_beside hr).2 ⟨?_, (isLeftOf_iff_beside ha hb hr).1 ?_⟩, ?_⟩
    · exact fun u hu v hv => (hbelow u hu v hv).1 (hancestors hu hv)
    · exact fun u hu v hv => horder hu hv
    · exact fun u hu => (hkinds u hu).1 (hk hu)
  · rintro ⟨h, hk⟩
    obtain ⟨h1, h2⟩ := (aligned_iff_below_beside hr).1 h
    refine ⟨?_, ?_, ?_, ?_, ?_⟩ <;> simp only [Finset.forall_mem_image, nodesAt]
    · exact fun u hu => ⟨ha.node_mem (hr u hu).1.2, hb.node_mem (hr u hu).2.2⟩
    · intro u hu v hv
      rw [ha.id_node_inj (hr u hu).1 (hr v hv).1, hb.id_node_inj (hr u hu).2 (hr v hv).2]
      have huv := h.order u hu v hv
      have hvu := h.order v hv u hu
      omega
    · exact fun u hu v hv => (hbelow u hu v hv).2 (h1 u hu v hv)
    · exact (isLeftOf_iff_beside ha hb hr).2 h2
    · exact fun u hu => (hkinds u hu).2 (hk u hu)

/-- Every edit mapping consists of the nodes of some pairs of numbers.

**Proof sketch.** Take all pairs of numbers whose nodes are in the mapping.  Every node of a tree
has a number, so nothing is lost. -/
lemma exists_pairs_image_eq (ha : a.Describes src mirrored place)
    (hb : b.Describes dst mirrored place') {M : Finset (NodeId × NodeId)}
    (hM : ∀ x ∈ M, x.1 ∈ src.preOrder ∧ x.2 ∈ dst.preOrder) :
    ∃ pairs : Finset (ℕ × ℕ), (∀ u ∈ pairs, a.InRange b u) ∧ pairs.image (a.nodesAt b) = M := by
  refine ⟨((Finset.Icc 1 a.size) ×ˢ (Finset.Icc 1 b.size)).filter (a.nodesAt b · ∈ M), ?_, ?_⟩
  · intro u hu
    simpa [InRange] using Finset.mem_product.1 (Finset.mem_filter.1 hu).1
  · ext x
    constructor
    · intro hx
      obtain ⟨u, hu, rfl⟩ := Finset.mem_image.1 hx
      exact (Finset.mem_filter.1 hu).2
    · intro hx
      obtain ⟨i, hi, hix⟩ := ha.exists_number (hM x hx).1
      obtain ⟨j, hj, hjx⟩ := hb.exists_number (hM x hx).2
      have hij : a.nodesAt b (i, j) = x := Prod.ext hix hjx
      refine Finset.mem_image.2 ⟨(i, j), Finset.mem_filter.2 ⟨?_, hij ▸ hx⟩, hij⟩
      exact Finset.mem_product.2 ⟨Finset.mem_Icc.2 hi, Finset.mem_Icc.2 hj⟩

/-! ### Costs -/

variable {r : ℚ}

/-- The cost of relabelling a node of the same kind. -/
lemma relabel_of_kind_eq {i j : ℕ} (h : (a.node i).kind = (b.node j).kind) :
    EditDistance.relabel a b (r : WithTop ℚ) i j =
      ((if (a.node i).label ≠ (b.node j).label then r else 0 : ℚ) : WithTop ℚ) := by
  rw [EditDistance.relabel, if_neg (not_not.2 h), ite_not]
  split <;> rfl

/-- Nodes of different kinds must not be partners. -/
lemma relabel_of_kind_ne {i j : ℕ} {cost : WithTop ℚ} (h : (a.node i).kind ≠ (b.node j).kind) :
    EditDistance.relabel a b cost i j = ⊤ := by
  rw [EditDistance.relabel]
  exact if_pos h

/-- The pairs of an alignment of finite cost have equal kinds. -/
lemma sameKinds_of_alignmentCost_ne_top {cost : WithTop ℚ} {l l' x y : ℕ}
    (h : a.alignmentCost b cost l l' x y pairs ≠ ⊤) : a.SameKinds b pairs := by
  intro u hu
  by_contra hne
  refine h ?_
  rw [alignmentCost, pairingCost, ← Finset.add_sum_erase _ _ hu, relabel_of_kind_ne hne, top_add,
    top_add, add_top]

/-- **Edit mappings cost as much as alignments.**

**Proof sketch.** Each pair of an alignment costs what relabelling costs, less two for the nodes
that need not be deleted and inserted.  Summing up, the pairs with different labels are counted, and
these are the images of those counted by the cost of the mapping.  What remains are the sizes of the
trees. -/
lemma alignmentCost_eq_editCost (ha : a.Describes src mirrored place)
    (hb : b.Describes dst mirrored place') (hr : ∀ u ∈ pairs, a.InRange b u)
    (hk : a.SameKinds b pairs) :
    a.alignmentCost b (r : WithTop ℚ) 1 1 (a.size + 1) (b.size + 1) pairs =
      (editCost src dst r (pairs.image (a.nodesAt b)) : ℚ) := by
  have hinj := injOn_nodesAt ha hb hr
  have hlabels : (pairs.image (a.nodesAt b)).filter (fun x => src.label x.1 ≠ dst.label x.2) =
      (pairs.filter fun u => (a.node u.1).label ≠ (b.node u.2).label).image (a.nodesAt b) := by
    rw [Finset.filter_image]
    congr 1
    refine Finset.filter_congr fun u hu => ?_
    rw [nodesAt, ha.label_node (hr u hu).1, hb.label_node (hr u hu).2]
  -- a pair saves a deletion and an insertion, and may cost a change of label
  have hpairs : a.pairingCost b (r : WithTop ℚ) pairs =
      ((r * (pairs.filter fun u => (a.node u.1).label ≠ (b.node u.2).label).card -
        2 * pairs.card : ℚ) : WithTop ℚ) := by
    calc a.pairingCost b (r : WithTop ℚ) pairs
        = ∑ u ∈ pairs, (((if (a.node u.1).label ≠ (b.node u.2).label then r else 0) + -2 : ℚ) :
            WithTop ℚ) := by
          refine Finset.sum_congr rfl fun u hu => ?_
          rw [relabel_of_kind_eq (hk u hu), ← WithTop.coe_add]
      _ = _ := by
          rw [← WithTop.coe_sum, Finset.sum_add_distrib, ← Finset.sum_filter, Finset.sum_const,
            Finset.sum_const, nsmul_eq_mul, nsmul_eq_mul]
          congr 1
          ring
  rw [alignmentCost, hpairs, ← WithTop.coe_add, editCost, hlabels, Finset.card_image_of_injOn hinj,
    Finset.card_image_of_injOn (hinj.mono (Finset.coe_subset.2 (Finset.filter_subset _ _))),
    ← ha.size, ← hb.size, extent]
  congr 1
  push_cast
  ring

/-! ### The distance -/

/-- **The distance of two numberings is the least cost of an edit mapping.**

**Proof sketch.** It is the least cost of an alignment.  The empty alignment has finite cost, so
the distance is finite, and so every alignment that attains it is an edit mapping. -/
theorem isLeast_editCosts_distance (ha : a.Describes src mirrored place)
    (hb : b.Describes dst mirrored place') (r : ℚ) :
    ∃ d : ℚ, EditDistance.distance a b (r : WithTop ℚ) = d ∧ IsLeast (editCosts src dst r) d := by
  obtain ⟨⟨pairs, hpairs, hcost⟩, hleast⟩ :=
    EditDistance.isLeast_distance ha.laminar hb.laminar
  have hlower : ∀ M, IsEditMapping src dst M →
      EditDistance.distance a b (r : WithTop ℚ) ≤ (editCost src dst r M : ℚ) := by
    intro M hM
    obtain ⟨N, hN, rfl⟩ := exists_pairs_image_eq ha hb hM.nodes
    obtain ⟨hal, hk⟩ := (isEditMapping_image_iff ha hb hN).1 hM
    exact hleast ⟨N, hal, alignmentCost_eq_editCost ha hb hN hk⟩
  have hempty : IsEditMapping src dst ∅ :=
    ⟨by simp, by simp, by simp, by simp, by simp⟩
  have hfinite : EditDistance.distance a b (r : WithTop ℚ) ≠ ⊤ :=
    ne_top_of_le_ne_top WithTop.coe_ne_top (hlower ∅ hempty)
  have hk : a.SameKinds b pairs := sameKinds_of_alignmentCost_ne_top (hcost ▸ hfinite)
  have hM := (isEditMapping_image_iff ha hb hpairs.inRange).2 ⟨hpairs, hk⟩
  have hd := hcost.symm.trans (alignmentCost_eq_editCost ha hb hpairs.inRange hk)
  refine ⟨_, hd, ⟨_, hM, rfl⟩, ?_⟩
  rintro c ⟨M, hM, rfl⟩
  exact WithTop.coe_le_coe.1 (hd ▸ hlower M hM)

end Numbering

/-- **The distance is the least cost of an edit mapping**, for trees numbered from the left and for
trees numbered from the right.  In particular both give the same distance, and this is what is
returned, whichever of them makes less work.

**Proof sketch.** Both numberings describe the trees, so both distances are the least cost, which is
unique; and preparing two trees chooses one of the numberings. -/
theorem distance_is_least_edit_cost (src dst : Tree) (r : ℚ) (limit : ℕ)
    (hlimit : src.count * dst.count ≤ limit) :
    ∃ d : ℚ, IsLeast (editCosts src dst r) d ∧
      EditDistance.distance (.ofTree src.shape) (.ofTree dst.shape) (r : WithTop ℚ) = d ∧
      EditDistance.distance (.ofTree src.shape.flip) (.ofTree dst.shape.flip) (r : WithTop ℚ) = d ∧
      EditDistance.ofTrees src dst (r : WithTop ℚ) limit = .ok (d : WithTop ℚ) := by
  obtain ⟨d, hd, hleast⟩ := Numbering.isLeast_editCosts_distance
    (Numbering.describes_ofTree src) (Numbering.describes_ofTree dst) r
  obtain ⟨d', hd', hleast'⟩ := Numbering.isLeast_editCosts_distance
    (Numbering.describes_ofTree_flip src) (Numbering.describes_ofTree_flip dst) r
  obtain rfl := hleast.unique hleast'
  refine ⟨d, hleast, hd, hd', ?_⟩
  rcases EditDistance.prepare_cases src dst limit with ⟨h, -⟩ | ⟨-, a, b, m, p, p', hp, ha, hb⟩
  · omega
  · obtain ⟨d', hd', hleast'⟩ := Numbering.isLeast_editCosts_distance ha hb r
    rw [EditDistance.ofTrees, hp, hleast.unique hleast', ← hd']
    rfl

/-- Two trees with the same labels, of which one is turned into the other by deleting a node and
inserting it elsewhere. -/
theorem least_edit_cost_of_moved_node :
    let src : Tree := .ofContents ⟨(⟨0⟩, "f"), .node (⟨0⟩, "d")
      (.node (⟨0⟩, "a") .nil (.node (⟨0⟩, "c") (.leaf (⟨0⟩, "b")) .nil)) (.leaf (⟨0⟩, "e"))⟩
    let dst : Tree := .ofContents ⟨(⟨0⟩, "f"), .node (⟨0⟩, "c")
      (.node (⟨0⟩, "d") (.node (⟨0⟩, "a") .nil (.leaf (⟨0⟩, "b"))) .nil) (.leaf (⟨0⟩, "e"))⟩
    src.count * dst.count ≤ 36 ∧ IsLeast (editCosts src dst 1) 2 ∧
      EditDistance.ofTrees src dst (1 : WithTop ℚ) 36 = .ok 2 := by
  intro src dst
  obtain ⟨d, hleast, hleft, -, hd⟩ := distance_is_least_edit_cost src dst 1 36 (by decide)
  have htwo : EditDistance.distance (.ofTree src.shape) (.ofTree dst.shape) (1 : WithTop ℚ) = 2 :=
    by decide +kernel
  obtain rfl : d = 2 := WithTop.coe_inj.1 (hleft.symm.trans htwo)
  exact ⟨by decide, hleast, hd⟩

end TreeMatching
