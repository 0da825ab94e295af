import Mathlib.Algebra.BigOperators.Group.Finset.Basic
import Mathlib.Algebra.Order.AddGroupWithTop
import Mathlib.Algebra.Order.Ring.Abs
import Mathlib.Algebra.Order.Ring.Rat
import Mathlib.Order.Bounds.Image
import Mathlib.Tactic.Abel
import Mathlib.Tactic.Ring
import TreeMatching.Proofs.PostOrder

set_option autoImplicit false

/-!
# The costs of aligning two forests

The edit distance looks at forests that are runs of numbers: the forest from `l` up to, but not
including, `x` in the one tree and the forest from `l'` up to `y` in the other.  An alignment pairs
numbers of the two forests so that their order and the nesting of their subtrees agree.  Its cost is
one for each number without a partner and the cost of relabelling for each pair.

The costs of all alignments of two forests satisfy a recurrence: the last number of the one forest
has no partner, or the last number of the other has none, or the two are partners of each other.

## Main definitions

* The instance of `Cost` for exact numbers extended with infinity.
* `Numbering.Aligned` — alignments of two forests.
* `Numbering.alignmentCost`, `Numbering.forestCosts` — the cost of an alignment, and all costs.

## Main results

* `Numbering.forestCosts_succ_whole`, `Numbering.forestCosts_succ_split` — the recurrence, if the
  last subtrees are the whole forests and if they need not be.
* `Numbering.isLeast_succ_whole`, `Numbering.isLeast_succ_split` — the same for the least cost.
-/

namespace TreeMatching

/-- Costs as exact numbers, extended with infinity for what is forbidden.  Two finite costs count as
the same if they differ by less than a billionth; infinity is not the same as anything. -/
instance : Cost (WithTop ℚ) where
  zero := 0
  one := 1
  forbidden := ⊤
  add x y := x + y
  least := min
  same
    | (x : ℚ), (y : ℚ) => |x - y| < 1 / 1000000000
    | _, _ => false

namespace Numbering

variable (a b : Numbering) (cost : WithTop ℚ)

/-- A set of pairs of numbers that aligns the forest from `l` to `x` with the forest from `l'` to
`y`: the pairs are ordered in the same way on both sides, and of two pairs the subtrees are nested
on both sides or on neither. -/
structure Aligned (l l' x y : ℕ) (pairs : Finset (ℕ × ℕ)) : Prop where
  /-- The pairs consist of numbers of the two forests. -/
  range : ∀ u ∈ pairs, (l ≤ u.1 ∧ u.1 < x) ∧ l' ≤ u.2 ∧ u.2 < y
  /-- Both sides have the same order. -/
  order : ∀ u ∈ pairs, ∀ v ∈ pairs, u.1 < v.1 ↔ u.2 < v.2
  /-- Subtrees are nested on both sides or on neither. -/
  nested : ∀ u ∈ pairs, ∀ v ∈ pairs, u.1 < v.1 → (a.first v.1 ≤ u.1 ↔ b.first v.2 ≤ u.2)

/-- What the pairs of an alignment cost, compared to deleting and inserting all their nodes. -/
def pairingCost (pairs : Finset (ℕ × ℕ)) : WithTop ℚ :=
  ∑ u ∈ pairs, (EditDistance.relabel a b cost u.1 u.2 + ((-2 : ℚ) : WithTop ℚ))

/-- The cost of deleting one forest and inserting the other. -/
def extent (l l' x y : ℕ) : ℚ := (x - l) + (y - l')

/-- The cost of an alignment of two forests. -/
def alignmentCost (l l' x y : ℕ) (pairs : Finset (ℕ × ℕ)) : WithTop ℚ :=
  extent l l' x y + a.pairingCost b cost pairs

/-- The costs of all alignments of two forests. -/
def forestCosts (l l' x y : ℕ) : Set (WithTop ℚ) :=
  {c | ∃ pairs, a.Aligned b l l' x y pairs ∧ a.alignmentCost b cost l l' x y pairs = c}

variable {a b cost} {l l' x y s d : ℕ} {pairs : Finset (ℕ × ℕ)}

namespace Aligned

/-- The empty alignment is one of any two forests. -/
lemma empty : a.Aligned b l l' x y ∅ := ⟨by simp, by simp, by simp⟩

/-- A part of an alignment aligns all forests within which it lies. -/
lemma restrict {m m' z w : ℕ} {part : Finset (ℕ × ℕ)} (h : a.Aligned b l l' x y pairs)
    (hpart : part ⊆ pairs)
    (hrange : ∀ u ∈ part, (m ≤ u.1 ∧ u.1 < z) ∧ m' ≤ u.2 ∧ u.2 < w) :
    a.Aligned b m m' z w part :=
  ⟨hrange, fun u hu v hv => h.order u (hpart hu) v (hpart hv),
    fun u hu v hv => h.nested u (hpart hu) v (hpart hv)⟩

/-- A larger pair is larger on both sides. -/
lemma lt_of_mem (h : a.Aligned b l l' (s + 1) (d + 1) pairs) (hsd : (s, d) ∈ pairs) {u : ℕ × ℕ}
    (hu : u ∈ pairs) (hne : u ≠ (s, d)) : u.1 < s ∧ u.2 < d := by
  have hr := h.range u hu
  have h1 := h.order u hu _ hsd
  have h2 := h.order _ hsd u hu
  dsimp only at h1 h2
  have hlt : u.1 < s := by
    by_contra hge
    have h1' : u.1 = s := by omega
    have h2' : u.2 = d := by omega
    exact hne (Prod.ext h1' h2')
  exact ⟨hlt, h1.1 hlt⟩

/-- **The last number of one forest has no partner, or the last numbers are partners.**

**Proof sketch.** Suppose both last numbers have partners.  Since partners keep the order, the
partner of the last number on the one side is the last number on the other. -/
lemma succ_cases (h : a.Aligned b l l' (s + 1) (d + 1) pairs) :
    a.Aligned b l l' s (d + 1) pairs ∨ a.Aligned b l l' (s + 1) d pairs ∨ (s, d) ∈ pairs := by
  by_cases hs : ∃ u ∈ pairs, u.1 = s
  · by_cases hd : ∃ v ∈ pairs, v.2 = d
    · obtain ⟨u, hu, hus⟩ := hs
      obtain ⟨v, hv, hvd⟩ := hd
      have hr := h.range u hu
      have hr' := h.range v hv
      have h1 := h.order u hu v hv
      have h2 := h.order v hv u hu
      have hud : u.2 = d := by omega
      obtain rfl : u = (s, d) := Prod.ext hus hud
      exact .inr (.inr hu)
    · refine .inr (.inl (h.restrict subset_rfl fun u hu => ?_))
      have hr := h.range u hu
      have hne : u.2 ≠ d := fun e => hd ⟨u, hu, e⟩
      omega
  · refine .inl (h.restrict subset_rfl fun u hu => ?_)
    have hr := h.range u hu
    have hne : u.1 ≠ s := fun e => hs ⟨u, hu, e⟩
    omega

/-- Whole trees are aligned by aligning what lies below their roots, and the roots.

**Proof sketch.** The roots have the largest numbers, and both runs begin where the forests begin,
so that everything else is smaller and lies below them on both sides. -/
lemma insert_roots (h : a.Aligned b l l' s d pairs) (hs : a.first s = l) (hd : b.first d = l') :
    a.Aligned b l l' (s + 1) (d + 1) (insert (s, d) pairs) := by
  have hls : l ≤ s := hs ▸ a.first_le s
  have hld : l' ≤ d := hd ▸ b.first_le d
  -- both roots come behind everything else
  have hr := h.range
  refine ⟨?_, ?_, ?_⟩
  · intro u hu
    rcases Finset.mem_insert.1 hu with rfl | hu
    · exact ⟨⟨hls, by omega⟩, hld, by omega⟩
    · have := hr u hu
      omega
  · intro u hu v hv
    rcases Finset.mem_insert.1 hu with rfl | hu <;> rcases Finset.mem_insert.1 hv with rfl | hv
    · simp
    · have := hr v hv
      dsimp only
      omega
    · have := hr u hu
      dsimp only
      omega
    · exact h.order u hu v hv
  · intro u hu v hv huv
    rcases Finset.mem_insert.1 hu with rfl | hu <;> rcases Finset.mem_insert.1 hv with rfl | hv
    · exact absurd huv (lt_irrefl _)
    · have := hr v hv
      dsimp only at huv
      omega
    · have := hr u hu
      dsimp only
      omega
    · exact h.nested u hu v hv huv

/-- Alignments of two forests and of the trees behind them form an alignment.

**Proof sketch.** Everything in the last trees comes behind everything in the forests on the left,
so order is kept.  Subtrees within the last trees begin there, and so contain nothing of the forests
on the left. -/
lemma union_last {left last : Finset (ℕ × ℕ)} (ha : a.Laminar) (hb : b.Laminar)
    (hs : 1 ≤ s ∧ s ≤ a.size) (hd : 1 ≤ d ∧ d ≤ b.size)
    (hl : l ≤ a.first s) (hl' : l' ≤ b.first d)
    (h : a.Aligned b l l' (a.first s) (b.first d) left)
    (h' : a.Aligned b (a.first s) (b.first d) (s + 1) (d + 1) last) :
    a.Aligned b l l' (s + 1) (d + 1) (left ∪ last) := by
  have hr := h.range
  have hr' := h'.range
  have hfs := a.first_le s
  have hfd := b.first_le d
  have hs1 := ha.first_pos s hs.1 hs.2
  have hd1 := hb.first_pos d hd.1 hd.2
  refine ⟨?_, ?_, ?_⟩
  · intro u hu
    rcases Finset.mem_union.1 hu with hu | hu
    · have := hr u hu
      omega
    · have := hr' u hu
      omega
  · intro u hu v hv
    rcases Finset.mem_union.1 hu with hu | hu <;> rcases Finset.mem_union.1 hv with hv | hv
    · exact h.order u hu v hv
    · have := hr u hu
      have := hr' v hv
      omega
    · have := hr' u hu
      have := hr v hv
      omega
    · exact h'.order u hu v hv
  · intro u hu v hv huv
    rcases Finset.mem_union.1 hu with hu | hu <;> rcases Finset.mem_union.1 hv with hv | hv
    · exact h.nested u hu v hv huv
    · -- the subtree of `v` lies within the last tree, so it does not contain `u`
      have hu' := hr u hu
      have hv' := hr' v hv
      have h1 := ha.nested s v.1 hs.2 (by omega) (by omega) (by omega)
      have h2 := hb.nested d v.2 hd.2 (by omega) (by omega) (by omega)
      omega
    · have := hr' u hu
      have := hr v hv
      omega
    · exact h'.nested u hu v hv huv

end Aligned

/-! ### Costs -/

/-- A further node of the first forest adds one to the extent. -/
lemma extent_succ_left : extent l l' (s + 1) y = extent l l' s y + 1 := by
  simp only [extent]
  push_cast
  ring

/-- A further node of the second forest adds one to the extent. -/
lemma extent_succ_right : extent l l' x (d + 1) = extent l l' x d + 1 := by
  simp only [extent]
  push_cast
  ring

/-- The extents of two forests that are cut in two add up. -/
lemma extent_add (m m' : ℕ) : extent l l' m m' + extent m m' x y = extent l l' x y := by
  simp only [extent]
  ring

/-- A further node without a partner costs one. -/
lemma alignmentCost_succ_left :
    a.alignmentCost b cost l l' (s + 1) y pairs = a.alignmentCost b cost l l' s y pairs + 1 := by
  rw [alignmentCost, alignmentCost, extent_succ_left, WithTop.coe_add, WithTop.coe_one,
    add_right_comm]

/-- A further node of the second forest without a partner costs one. -/
lemma alignmentCost_succ_right :
    a.alignmentCost b cost l l' x (d + 1) pairs = a.alignmentCost b cost l l' x d pairs + 1 := by
  rw [alignmentCost, alignmentCost, extent_succ_right, WithTop.coe_add, WithTop.coe_one,
    add_right_comm]

/-- A further pair costs as much as relabelling.

**Proof sketch.** The extent grows by two, which the summand of the new pair takes away again, so
that the cost of relabelling remains. -/
lemma alignmentCost_insert (h : (s, d) ∉ pairs) :
    a.alignmentCost b cost l l' (s + 1) (d + 1) (insert (s, d) pairs) =
      a.alignmentCost b cost l l' s d pairs + EditDistance.relabel a b cost s d := by
  have htwo : ((extent l l' (s + 1) (d + 1) : ℚ) : WithTop ℚ) =
      (extent l l' s d : ℚ) + ((2 : ℚ) : WithTop ℚ) := by
    rw [extent_succ_left, extent_succ_right, ← WithTop.coe_add]
    congr 1
    ring
  -- the two nodes need no longer be deleted and inserted
  have hcancel : ((2 : ℚ) : WithTop ℚ) + ((-2 : ℚ) : WithTop ℚ) = 0 := by
    rw [← WithTop.coe_add]
    norm_num
  rw [alignmentCost, alignmentCost, pairingCost, pairingCost, Finset.sum_insert h, htwo]
  calc _ = (extent l l' s d : WithTop ℚ) + ∑ u ∈ pairs,
          (EditDistance.relabel a b cost u.1 u.2 + ((-2 : ℚ) : WithTop ℚ)) +
        EditDistance.relabel a b cost s d + (((2 : ℚ) : WithTop ℚ) + ((-2 : ℚ) : WithTop ℚ)) := by
        abel
    _ = _ := by rw [hcancel, add_zero]

/-- The costs of forests side by side add up. -/
lemma alignmentCost_union {m m' : ℕ} {left last : Finset (ℕ × ℕ)} (h : Disjoint left last) :
    a.alignmentCost b cost l l' x y (left ∪ last) =
      a.alignmentCost b cost l l' m m' left + a.alignmentCost b cost m m' x y last := by
  simp only [alignmentCost, pairingCost]
  rw [Finset.sum_union h, ← extent_add m m', WithTop.coe_add]
  abel

/-! ### The recurrence -/

/-- Empty forests have nothing to align. -/
lemma isLeast_forestCosts_empty : IsLeast (a.forestCosts b cost l l' l l') 0 := by
  have hcost : a.alignmentCost b cost l l' l l' ∅ = 0 := by
    simp [alignmentCost, pairingCost, extent]
  refine ⟨⟨∅, .empty, hcost⟩, ?_⟩
  rintro c ⟨pairs, h, rfl⟩
  have hempty : pairs = ∅ := Finset.eq_empty_of_forall_notMem fun u hu => by
    have := h.range u hu
    omega
  rw [hempty, hcost]

/-- Alignments with an empty forest: every further node costs one. -/
lemma forestCosts_succ_left :
    a.forestCosts b cost l l' (s + 1) l' = (· + 1) '' a.forestCosts b cost l l' s l' := by
  ext c
  constructor
  · rintro ⟨pairs, h, rfl⟩
    refine ⟨_, ⟨pairs, h.restrict subset_rfl fun u hu => ?_, rfl⟩, alignmentCost_succ_left.symm⟩
    have := h.range u hu
    omega
  · rintro ⟨_, ⟨pairs, h, rfl⟩, rfl⟩
    refine ⟨pairs, h.restrict subset_rfl fun u hu => ?_, alignmentCost_succ_left⟩
    have := h.range u hu
    omega

/-- Against an empty forest, a further node has to be inserted. -/
lemma forestCosts_succ_right :
    a.forestCosts b cost l l' l (d + 1) = (· + 1) '' a.forestCosts b cost l l' l d := by
  ext c
  constructor
  · rintro ⟨pairs, h, rfl⟩
    refine ⟨_, ⟨pairs, h.restrict subset_rfl fun u hu => ?_, rfl⟩, alignmentCost_succ_right.symm⟩
    have := h.range u hu
    omega
  · rintro ⟨_, ⟨pairs, h, rfl⟩, rfl⟩
    refine ⟨pairs, h.restrict subset_rfl fun u hu => ?_, alignmentCost_succ_right⟩
    have := h.range u hu
    omega

/-- Whatever is done with the last nodes, an alignment in which one of them has no partner is one of
smaller forests.

**Proof sketch.** By `Aligned.succ_cases` an alignment leaves one of the last numbers without a
partner, and then it is one of smaller forests with one more deletion or insertion, or it pairs
them, and then its cost is among the rest.  Conversely alignments of smaller forests are alignments
of the larger ones. -/
lemma forestCosts_succ_eq {rest : Set (WithTop ℚ)}
    (hrest : rest ⊆ a.forestCosts b cost l l' (s + 1) (d + 1))
    (hpaired : ∀ pairs, a.Aligned b l l' (s + 1) (d + 1) pairs → (s, d) ∈ pairs →
      a.alignmentCost b cost l l' (s + 1) (d + 1) pairs ∈ rest) :
    a.forestCosts b cost l l' (s + 1) (d + 1) =
      (· + 1) '' a.forestCosts b cost l l' s (d + 1) ∪
        (· + 1) '' a.forestCosts b cost l l' (s + 1) d ∪ rest := by
  apply Set.Subset.antisymm
  · rintro _ ⟨pairs, h, rfl⟩
    rcases h.succ_cases with h' | h' | h'
    · exact .inl (.inl ⟨_, ⟨pairs, h', rfl⟩, alignmentCost_succ_left.symm⟩)
    · exact .inl (.inr ⟨_, ⟨pairs, h', rfl⟩, alignmentCost_succ_right.symm⟩)
    · exact .inr (hpaired pairs h h')
  · rintro c ((⟨_, ⟨pairs, h, rfl⟩, rfl⟩ | ⟨_, ⟨pairs, h, rfl⟩, rfl⟩) | hc)
    · refine ⟨pairs, h.restrict subset_rfl fun u hu => ?_, alignmentCost_succ_left⟩
      have := h.range u hu
      omega
    · refine ⟨pairs, h.restrict subset_rfl fun u hu => ?_, alignmentCost_succ_right⟩
      have := h.range u hu
      omega
    · exact hrest hc

/-- **The recurrence for whole trees.**  If the last subtrees are the whole forests, the roots may
be partners of each other.

**Proof sketch.** Without the pair of the roots an alignment aligns what lies below the roots, and
any alignment of that can be extended by the pair of the roots. -/
theorem forestCosts_succ_whole (hs : a.first s = l) (hd : b.first d = l') :
    a.forestCosts b cost l l' (s + 1) (d + 1) =
      (· + 1) '' a.forestCosts b cost l l' s (d + 1) ∪
        (· + 1) '' a.forestCosts b cost l l' (s + 1) d ∪
        (· + EditDistance.relabel a b cost s d) '' a.forestCosts b cost l l' s d := by
  refine forestCosts_succ_eq ?_ ?_
  · rintro _ ⟨_, ⟨pairs, h, rfl⟩, rfl⟩
    refine ⟨_, h.insert_roots hs hd, alignmentCost_insert fun hsd => ?_⟩
    have := (h.range _ hsd).1.2
    omega
  · intro pairs h hsd
    refine ⟨_, ⟨pairs.erase (s, d), h.restrict (Finset.erase_subset _ _) fun u hu => ?_, rfl⟩, ?_⟩
    · obtain ⟨hne, hu⟩ := Finset.mem_erase.1 hu
      have hr := h.range u hu
      have hlt := h.lt_of_mem hsd hu hne
      omega
    · dsimp only
      rw [← alignmentCost_insert (Finset.notMem_erase _ _), Finset.insert_erase hsd]

/-- **The recurrence for forests.**  The last subtrees may be aligned with each other, and what
precedes them with each other.

**Proof sketch.** If the last nodes are partners, then the numbers of a pair lie in the last
subtrees on both sides or on neither, since the subtrees are nested on both sides or on neither. -/
theorem forestCosts_succ_split (ha : a.Laminar) (hb : b.Laminar) (hs : 1 ≤ s ∧ s ≤ a.size)
    (hd : 1 ≤ d ∧ d ≤ b.size) (hl : l ≤ a.first s) (hl' : l' ≤ b.first d) :
    a.forestCosts b cost l l' (s + 1) (d + 1) =
      (· + 1) '' a.forestCosts b cost l l' s (d + 1) ∪
        (· + 1) '' a.forestCosts b cost l l' (s + 1) d ∪
        Set.image2 (· + ·) (a.forestCosts b cost l l' (a.first s) (b.first d))
          (a.forestCosts b cost (a.first s) (b.first d) (s + 1) (d + 1)) := by
  refine forestCosts_succ_eq ?_ ?_
  · rintro _ ⟨_, ⟨left, h, rfl⟩, _, ⟨last, h', rfl⟩, rfl⟩
    refine ⟨left ∪ last, h.union_last ha hb hs hd hl hl' h', alignmentCost_union ?_⟩
    rw [Finset.disjoint_left]
    intro u hu hu'
    have := (h.range u hu).1
    have := (h'.range u hu').1
    omega
  · intro pairs h hsd
    have hside : ∀ u ∈ pairs, u.1 < a.first s ↔ u.2 < b.first d := by
      intro u hu
      by_cases hne : u = (s, d)
      · subst hne
        have := a.first_le s
        have := b.first_le d
        dsimp only
        omega
      · have hlt := h.lt_of_mem hsd hu hne
        have hnested := h.nested u hu _ hsd hlt.1
        dsimp only at hnested
        omega
    refine ⟨_, ⟨pairs.filter (·.1 < a.first s), ?_, rfl⟩,
      _, ⟨pairs.filter (¬ ·.1 < a.first s), ?_, rfl⟩, ?_⟩
    · refine h.restrict (Finset.filter_subset _ _) fun u hu => ?_
      obtain ⟨hu, hlt⟩ := Finset.mem_filter.1 hu
      have hr := h.range u hu
      have := hside u hu
      omega
    · refine h.restrict (Finset.filter_subset _ _) fun u hu => ?_
      obtain ⟨hu, hlt⟩ := Finset.mem_filter.1 hu
      have hr := h.range u hu
      have := hside u hu
      omega
    · dsimp only
      rw [← alignmentCost_union (Finset.disjoint_filter_filter_not _ _ _),
        Finset.filter_union_filter_not_eq]

/-! ### The least cost -/

/-- If all costs are raised by one, so is the least one. -/
lemma isLeast_add_one {costs : Set (WithTop ℚ)} {v : WithTop ℚ} (h : IsLeast costs v) :
    IsLeast ((· + 1) '' costs) (v + 1) :=
  Monotone.map_isLeast (fun _ _ hxy => add_le_add_left hxy 1) h

/-- The least cost of whole trees. -/
theorem isLeast_succ_whole (hs : a.first s = l) (hd : b.first d = l') {v w z : WithTop ℚ}
    (hv : IsLeast (a.forestCosts b cost l l' s (d + 1)) v)
    (hw : IsLeast (a.forestCosts b cost l l' (s + 1) d) w)
    (hz : IsLeast (a.forestCosts b cost l l' s d) z) :
    IsLeast (a.forestCosts b cost l l' (s + 1) (d + 1))
      (min (min (v + 1) (w + 1)) (z + EditDistance.relabel a b cost s d)) := by
  rw [forestCosts_succ_whole hs hd]
  refine ((isLeast_add_one hv).union (isLeast_add_one hw)).union ?_
  exact Monotone.map_isLeast (fun _ _ hxy => add_le_add_left hxy _) hz

/-- The least cost of forests. -/
theorem isLeast_succ_split (ha : a.Laminar) (hb : b.Laminar) (hs : 1 ≤ s ∧ s ≤ a.size)
    (hd : 1 ≤ d ∧ d ≤ b.size) (hl : l ≤ a.first s) (hl' : l' ≤ b.first d) {v w z t : WithTop ℚ}
    (hv : IsLeast (a.forestCosts b cost l l' s (d + 1)) v)
    (hw : IsLeast (a.forestCosts b cost l l' (s + 1) d) w)
    (hz : IsLeast (a.forestCosts b cost l l' (a.first s) (b.first d)) z)
    (ht : IsLeast (a.forestCosts b cost (a.first s) (b.first d) (s + 1) (d + 1)) t) :
    IsLeast (a.forestCosts b cost l l' (s + 1) (d + 1))
      (min (min (v + 1) (w + 1)) (z + t)) := by
  rw [forestCosts_succ_split ha hb hs hd hl hl']
  refine ((isLeast_add_one hv).union (isLeast_add_one hw)).union ?_
  exact IsLeast.image2 (fun _ _ _ hxy => add_le_add_left hxy _)
    (fun _ _ _ hxy => add_le_add_right hxy _) hz ht

end Numbering

end TreeMatching
