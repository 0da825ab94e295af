import TreeMatching.Overlap
import TreeMatching.Proofs.Adoptions
import TreeMatching.Proofs.Ancestry
import TreeMatching.Proofs.ExactShares

set_option autoImplicit false

/-!
# The overlap of two subtrees

The common descendants of two nodes are counted from the source side: for each descendant of the
one node it is asked whether its partner lies below the other.  What is counted are the pairs that
lead from below the one node to below the other, so for a one-to-one pairing it does not matter
from which side one counts, and there are no more common descendants than there are on either side.
From this follows how the four measures compare.

## Main results

* `Tree.length_descendants`, `Tree.length_descendants_eq_countP` — how many descendants a node has.
* `Overlap.common_between` — the common descendants are pairs of the pairing.
* `Overlap.between_inverse` — the overlap, seen from the other side.
* `Overlap.common_between_le` — it is no larger than either set of descendants.
* `Overlap.jaccard_le_chawathe`, `Overlap.chawathe_le_dice`, `Overlap.dice_le_inclusion` — the order
  of the measures.
* `overlap_measures_are_ordered` — the results together.
-/

namespace TreeMatching

namespace Tree

variable {t : Tree} {a : NodeId}

/-- A subtree consists of its root and the descendants of that. -/
lemma length_descendants (ha : a ∈ t.preOrder) : (t.descendants a).length + 1 = t.size a := by
  rw [← length_subtreePostOrder ha, subtreePostOrder_perm.length_eq, List.length_cons]

/-- The descendants of a node are the nodes that have it on the chain of their parents. -/
lemma mem_descendants_iff_mem_ancestors {x : NodeId} :
    x ∈ t.descendants a ↔ a ∈ t.ancestors x := by
  rw [← isDescendant_iff_mem_ancestors]
  refine ⟨fun h => ?_, mem_descendants_of_isDescendant⟩
  by_cases ha : a ∈ t.preOrder
  · exact ((mem_descendants_iff ha).1 h).2
  · rw [descendants_of_notMem ha] at h
    cases h

/-- The descendants of a node are counted by the chains of parents on which it lies. -/
lemma length_descendants_eq_countP (ha : a ∈ t.preOrder) :
    (t.descendants a).length = t.preOrder.countP fun n => a ∈ t.ancestors n := by
  rw [descendants_eq_filter ha, ← List.countP_eq_length_filter]
  refine List.countP_congr fun n _ => ?_
  rw [decide_eq_true_iff, isDescendant_iff_mem_ancestors]

end Tree

/-- Seen from the other side, the pairs have their nodes in each other's place. -/
lemma Pairing.OneToOne.pairs_inverse_perm {p : Pairing} (h : p.OneToOne) :
    p.inverse.pairs.Perm (p.pairs.map Pair.swap) := by
  have hswap : Function.Injective Pair.swap :=
    Function.LeftInverse.injective (g := Pair.swap) fun _ => rfl
  refine (List.perm_ext_iff_of_nodup nodup_pairs (nodup_pairs.map hswap)).2 fun z => ?_
  exact h.swap_mem_pairs_inverse (z := z.swap).trans (List.mem_map_of_injective hswap).symm

namespace Overlap

variable {src dst : Tree} {p : Pairing} {a b : NodeId} {o : Overlap}

/-! ### Counting pairs -/

/-- **The common descendants are pairs of the pairing**, namely those that lead from below the one
node to below the other.

**Proof sketch.** The sources of these pairs are distinct, and they are the descendants of the one
node whose partners lie below the other. -/
lemma common_between (src dst : Tree) (p : Pairing) (a b : NodeId) :
    (between src dst p a b).common =
      p.pairs.countP fun z => a ∈ src.ancestors z.src ∧ b ∈ dst.ancestors z.dst := by
  set counted := p.pairs.filter fun z => a ∈ src.ancestors z.src ∧ b ∈ dst.ancestors z.dst
    with hcounted
  have hsources : (counted.map Pair.src).Nodup :=
    Pairing.nodup_map_src_pairs.sublist (List.filter_sublist.map _)
  have hbelow : (src.descendants a).Nodup :=
    Tree.nodup_preOrder.sublist (Tree.descendants_sublist src a)
  have hmem : ∀ x, x ∈ counted.map Pair.src ↔
      x ∈ (src.descendants a).filter fun d => (p.dst? d).any (dst.isDescendant b) := by
    intro x
    simp only [hcounted, List.mem_map, List.mem_filter, Pairing.mem_pairs_iff, decide_eq_true_eq,
      Option.any_eq_true, Tree.mem_descendants_iff_mem_ancestors,
      Tree.isDescendant_iff_mem_ancestors]
    constructor
    · rintro ⟨z, ⟨hz, ha, hb⟩, rfl⟩
      exact ⟨ha, z.dst, hz, hb⟩
    · rintro ⟨ha, d, hd, hb⟩
      exact ⟨⟨x, d⟩, ⟨hd, ha, hb⟩, rfl⟩
  calc (between src dst p a b).common
      = ((src.descendants a).filter fun d => (p.dst? d).any (dst.isDescendant b)).length :=
        List.countP_eq_length_filter
    _ = (counted.map Pair.src).length :=
        ((List.perm_ext_iff_of_nodup hsources (hbelow.filter _)).2 hmem).length_eq.symm
    _ = p.pairs.countP fun z => a ∈ src.ancestors z.src ∧ b ∈ dst.ancestors z.dst := by
        rw [List.length_map, hcounted, List.countP_eq_length_filter]

/-- **Seen from the other side, the overlap has the same common descendants.**

**Proof sketch.** The inverse pairing has the same pairs, swapped, and a pair is common if both of
its nodes lie below, whichever comes first. -/
lemma between_inverse (hp : p.OneToOne) (ha : a ∈ src.preOrder) (hb : b ∈ dst.preOrder) :
    between dst src p.inverse b a =
      ⟨(between src dst p a b).common, (between src dst p a b).dst,
        (between src dst p a b).src⟩ := by
  have hcommon : (between dst src p.inverse b a).common = (between src dst p a b).common := by
    rw [common_between, common_between, hp.pairs_inverse_perm.countP_eq, List.countP_map]
    refine List.countP_congr fun z _ => ?_
    rw [Function.comp_apply, decide_eq_true_iff, decide_eq_true_iff]
    exact and_comm
  have hsrc : (dst.descendants b).length = dst.size b - 1 :=
    Nat.eq_sub_of_add_eq (Tree.length_descendants hb)
  have hdst : (src.descendants a).length = src.size a - 1 :=
    Nat.eq_sub_of_add_eq (Tree.length_descendants ha)
  exact (Overlap.mk.injEq ..).mpr ⟨hcommon, hsrc, hdst.symm⟩

/-- **There are no more common descendants than descendants on either side.** -/
lemma common_between_le (hp : p.OneToOne) (ha : a ∈ src.preOrder) (hb : b ∈ dst.preOrder) :
    (between src dst p a b).common ≤
      min (between src dst p a b).src (between src dst p a b).dst := by
  refine le_min List.countP_le_length ?_
  have hback : (between dst src p.inverse b a).common ≤ (between dst src p.inverse b a).src :=
    List.countP_le_length
  rwa [between_inverse hp ha hb] at hback

/-! ### The order of the measures -/

/-- The union of two sets is no smaller than the larger one. -/
lemma jaccard_le_chawathe (h : o.common ≤ min o.src o.dst) :
    o.jaccard.exact ≤ o.chawathe.exact := by
  have hwhole : max o.src o.dst ≤ o.src + o.dst - o.common := by omega
  refine Share.exact_le_exact ?_ ?_ (Nat.mul_le_mul_left _ hwhole)
  · change o.common ≤ o.src + o.dst - o.common
    omega
  · change o.src + o.dst - o.common = 0 → max o.src o.dst = 0
    omega

/-- The mean size of two sets is no larger than the larger one. -/
lemma chawathe_le_dice (h : o.common ≤ min o.src o.dst) : o.chawathe.exact ≤ o.dice.exact := by
  refine Share.exact_le_exact ?_ ?_ ?_
  · change o.common ≤ max o.src o.dst
    omega
  · change max o.src o.dst = 0 → o.src + o.dst = 0
    omega
  · change o.common * (o.src + o.dst) ≤ 2 * o.common * max o.src o.dst
    rw [Nat.mul_comm 2, Nat.mul_assoc]
    exact Nat.mul_le_mul_left _ (by omega)

/-- The mean size of two sets is no smaller than the smaller one.  If that is empty, its share is
one, and no share is larger. -/
lemma dice_le_inclusion (h : o.common ≤ min o.src o.dst) : o.dice.exact ≤ o.inclusion.exact := by
  refine Share.exact_le_exact ?_ ?_ ?_
  · change 2 * o.common ≤ o.src + o.dst
    omega
  · change o.src + o.dst = 0 → min o.src o.dst = 0
    omega
  · change 2 * o.common * min o.src o.dst ≤ o.common * (o.src + o.dst)
    rw [Nat.mul_comm 2, Nat.mul_assoc]
    exact Nat.mul_le_mul_left _ (by omega)

end Overlap

/-- **Overlaps do not depend on the side, and their measures are ordered.**  For nodes of two trees
and a one-to-one pairing, the common descendants are the pairs that lead from below the one node to
below the other, and the descendants are the nodes that have it on the chain of their parents.
There are no more common ones than there are on either side.  With the trees in each other's place
and the inverse pairing the two numbers of descendants change their places, and the common ones
remain as many.  As exact numbers the four measures increase from the share in the union to the
share in the smaller set, which is at most one; this includes nodes without descendants.

**Proof sketch.** Descendants are the nodes that have the given one among their ancestors, which
gives the three counts.  The common ones are at most as many as on either side because the pairing
is one-to-one.  The measures are then compared as quotients of these numbers. -/
theorem overlap_measures_are_ordered (src dst : Tree) (p : Pairing) (hone : p.isOneToOne = true)
    {a b : NodeId} (ha : a ∈ src.preOrder) (hb : b ∈ dst.preOrder) :
    let o := Overlap.between src dst p a b
    (o.common = p.pairs.countP fun z => a ∈ src.ancestors z.src ∧ b ∈ dst.ancestors z.dst) ∧
    ((o.src = src.preOrder.countP fun n => a ∈ src.ancestors n) ∧
      o.dst = dst.preOrder.countP fun n => b ∈ dst.ancestors n) ∧
    (o.common ≤ min o.src o.dst ∧ o.common ≤ o.src + o.dst ∧ 1 ≤ dst.size b) ∧
    Overlap.between dst src p.inverse b a = ⟨o.common, o.dst, o.src⟩ ∧
    (o.jaccard.exact ≤ o.chawathe.exact ∧ o.chawathe.exact ≤ o.dice.exact ∧
      o.dice.exact ≤ o.inclusion.exact ∧ o.inclusion.exact ≤ 1) := by
  intro o
  have hp := Pairing.isOneToOne_iff.1 hone
  have hle : o.common ≤ min o.src o.dst := Overlap.common_between_le hp ha hb
  have hsize := Tree.length_descendants hb
  have hdst : o.dst = dst.preOrder.countP fun n => b ∈ dst.ancestors n := by
    rw [← Tree.length_descendants_eq_countP hb]
    change dst.size b - 1 = _
    omega
  refine ⟨Overlap.common_between src dst p a b, ⟨Tree.length_descendants_eq_countP ha, hdst⟩,
    ⟨hle, by omega, by omega⟩, Overlap.between_inverse hp ha hb,
    Overlap.jaccard_le_chawathe hle, Overlap.chawathe_le_dice hle, Overlap.dice_le_inclusion hle,
    Share.exact_le_one hle⟩

/-- A block with two leaves has moved one level down, next to a node that is new: three of the four
nodes below the one root lie below the other. -/
theorem moved_block_is_counted_from_either_side :
    let src : Tree := .ofContents ⟨(⟨0⟩, "a"),
      .node (⟨1⟩, "b") (.node (⟨2⟩, "c") .nil (.leaf (⟨3⟩, "d"))) (.leaf (⟨4⟩, "e"))⟩
    let dst : Tree := .ofContents ⟨(⟨0⟩, "a"),
      .node (⟨5⟩, "f") (.node (⟨1⟩, "b") (.node (⟨2⟩, "c") .nil (.leaf (⟨3⟩, "d")))
        (.node (⟨6⟩, "h") (.leaf (⟨7⟩, "i")) .nil)) (.leaf (⟨8⟩, "j"))⟩
    let p := ((Pairing.empty.insert 2 3).insert 3 4).insert 4 5
    let o := Overlap.between src dst p 1 1
    p.isOneToOne = true ∧ 1 ∈ src.preOrder ∧ 1 ∈ dst.preOrder ∧ o = ⟨3, 4, 7⟩ ∧
      Overlap.between dst src p.inverse 1 1 = ⟨3, 7, 4⟩ ∧
      (o.jaccard.exact ≤ o.chawathe.exact ∧ o.chawathe.exact ≤ o.dice.exact ∧
        o.dice.exact ≤ o.inclusion.exact ∧ o.inclusion.exact ≤ 1) := by
  intro src dst p o
  have hone : p.isOneToOne = true := by decide +kernel
  have hsrc : 1 ∈ src.preOrder := by decide +kernel
  have hdst : 1 ∈ dst.preOrder := by decide +kernel
  have ho : o = ⟨3, 4, 7⟩ := by decide +kernel
  obtain ⟨-, -, -, hback, hmeasures⟩ := overlap_measures_are_ordered src dst p hone hsrc hdst
  exact ⟨hone, hsrc, hdst, ho, hback.trans (by rw [show Overlap.between src dst p 1 1 = _ from ho]),
    hmeasures⟩

end TreeMatching
