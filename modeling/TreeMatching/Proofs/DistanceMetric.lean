import Mathlib.Data.Finset.Prod
import Mathlib.Tactic.Linarith
import TreeMatching.Proofs.EditMapping
import TreeMatching.Proofs.Positions

set_option autoImplicit false

/-!
# The edit distance is a metric

The distance of two trees does not depend on which of them is the source, going through a third tree
is never shorter, and alike trees have distance zero.  If relabelling is not free, then only alike
trees have distance zero.

All of this is about edit mappings.  They can be turned round and composed; the nodes of alike trees
that stand at the same place form one, and one that costs nothing pairs all nodes, so it pairs those
that stand at the same place.

## Main definitions

* `composePairs` — the composition of two sets of pairs.
* `Tree.profile` — the contents of the nodes in pre-order, each with its number of descendants.
* `placePairs` — the pairs of nodes that stand at the same place.

## Main results

* `IsEditMapping.swap`, `IsEditMapping.compose` — edit mappings turned round, and composed.
* `editCost_compose_le` — a composition costs at most as much as both mappings together.
* `Tree.alike_iff_profile_eq` — the profile of a tree determines its shape, kinds and labels.
* `Tree.Alike.isEditMapping_placePairs` — alike trees are paired by position.
* `IsEditMapping.alike_of_editCost_eq_zero` — a mapping that costs nothing pairs alike trees.
* `distance_is_metric_up_to_likeness` — the laws of the distance.
-/

namespace TreeMatching

variable {src mid dst : Tree} {M N : Finset (NodeId × NodeId)} {r : ℚ}

/-! ### Sizes and costs of edit mappings -/

/-- The pairs with different labels. -/
def relabelled (src dst : Tree) (M : Finset (NodeId × NodeId)) : Finset (NodeId × NodeId) :=
  M.filter fun x => src.label x.1 ≠ dst.label x.2

/-- The cost of an edit mapping, in terms of the pairs with different labels. -/
lemma editCost_eq (M : Finset (NodeId × NodeId)) :
    editCost src dst r M =
      (src.count - M.card) + (dst.count - M.card) + r * (relabelled src dst M).card :=
  rfl

/-- There are as many numbers as nodes. -/
lemma Tree.card_toFinset_preOrder (t : Tree) : t.preOrder.toFinset.card = t.count := by
  rw [List.toFinset_card_of_nodup t.nodup_preOrder, Tree.length_preOrder]

namespace IsEditMapping

/-- No source node is mapped twice. -/
lemma injOn_fst (h : IsEditMapping src dst M) : Set.InjOn Prod.fst (M : Set (NodeId × NodeId)) :=
  fun x hx y hy heq => Prod.ext heq ((h.oneToOne x hx y hy).1 heq)

/-- No destination node is mapped to twice. -/
lemma injOn_snd (h : IsEditMapping src dst M) : Set.InjOn Prod.snd (M : Set (NodeId × NodeId)) :=
  fun x hx y hy heq => Prod.ext ((h.oneToOne x hx y hy).2 heq) heq

/-- The nodes that are mapped belong to the source tree. -/
lemma image_fst_subset (h : IsEditMapping src dst M) :
    M.image Prod.fst ⊆ src.preOrder.toFinset := by
  intro s hs
  obtain ⟨x, hx, rfl⟩ := Finset.mem_image.1 hs
  exact List.mem_toFinset.2 (h.nodes x hx).1

/-- The nodes that are mapped to belong to the destination tree. -/
lemma image_snd_subset (h : IsEditMapping src dst M) :
    M.image Prod.snd ⊆ dst.preOrder.toFinset := by
  intro d hd
  obtain ⟨x, hx, rfl⟩ := Finset.mem_image.1 hd
  exact List.mem_toFinset.2 (h.nodes x hx).2

/-- A mapping has at most as many pairs as there are source nodes. -/
lemma card_le_src (h : IsEditMapping src dst M) : M.card ≤ src.count := by
  rw [← Finset.card_image_of_injOn h.injOn_fst, ← src.card_toFinset_preOrder]
  exact Finset.card_le_card h.image_fst_subset

/-- A mapping has at most as many pairs as there are destination nodes. -/
lemma card_le_dst (h : IsEditMapping src dst M) : M.card ≤ dst.count := by
  rw [← Finset.card_image_of_injOn h.injOn_snd, ← dst.card_toFinset_preOrder]
  exact Finset.card_le_card h.image_snd_subset

/-- An edit mapping never costs less than nothing. -/
lemma editCost_nonneg (h : IsEditMapping src dst M) (hr : 0 ≤ r) : 0 ≤ editCost src dst r M := by
  have hsrc : (M.card : ℚ) ≤ src.count := by exact_mod_cast h.card_le_src
  have hdst : (M.card : ℚ) ≤ dst.count := by exact_mod_cast h.card_le_dst
  have hlabels : 0 ≤ r * ((relabelled src dst M).card : ℚ) := by positivity
  rw [editCost_eq]
  exact add_nonneg (add_nonneg (sub_nonneg.2 hsrc) (sub_nonneg.2 hdst)) hlabels

/-! ### Turning mappings round -/

/-- An edit mapping read backwards is an edit mapping. -/
lemma swap (h : IsEditMapping src dst M) : IsEditMapping dst src (M.image Prod.swap) := by
  constructor <;> simp only [Finset.forall_mem_image, Prod.fst_swap, Prod.snd_swap]
  · exact fun x hx => (h.nodes x hx).symm
  · exact fun x hx y hy => (h.oneToOne x hx y hy).symm
  · exact fun x hx y hy => (h.ancestors x hx y hy).symm
  · exact fun x hx y hy => (h.order x hx y hy).symm
  · exact fun x hx => (h.kinds x hx).symm

end IsEditMapping

/-- It costs the same: what was deleted is inserted, and relabelled pairs are relabelled. -/
lemma editCost_swap (M : Finset (NodeId × NodeId)) :
    editCost dst src r (M.image Prod.swap) = editCost src dst r M := by
  have hlabels : relabelled dst src (M.image Prod.swap) =
      (relabelled src dst M).image Prod.swap := by
    rw [relabelled, Finset.filter_image]
    simp only [Prod.fst_swap, Prod.snd_swap, ne_comm]
    rfl
  rw [editCost_eq, editCost_eq, hlabels, Finset.card_image_of_injective _ Prod.swap_injective,
    Finset.card_image_of_injective _ Prod.swap_injective, add_comm ((dst.count : ℚ) - _)]

/-- **The costs of editing one tree into another are those of editing it back.** -/
theorem editCosts_comm (src dst : Tree) (r : ℚ) : editCosts src dst r = editCosts dst src r := by
  have hsub : ∀ s t : Tree, editCosts s t r ⊆ editCosts t s r := by
    rintro s t _ ⟨M, hM, rfl⟩
    exact ⟨M.image Prod.swap, hM.swap, editCost_swap M⟩
  exact (hsub src dst).antisymm (hsub dst src)

/-! ### Composing mappings -/

/-- The pairs of pairs that meet in the middle. -/
def meetingPairs (M N : Finset (NodeId × NodeId)) :
    Finset ((NodeId × NodeId) × (NodeId × NodeId)) :=
  (M ×ˢ N).filter fun u => u.1.2 = u.2.1

/-- The composition of two sets of pairs: what is paired with the same node in the middle. -/
def composePairs (M N : Finset (NodeId × NodeId)) : Finset (NodeId × NodeId) :=
  (meetingPairs M N).image fun u => (u.1.1, u.2.2)

/-- Two pairs meet if the first leads to where the second starts. -/
lemma mem_meetingPairs {u : (NodeId × NodeId) × (NodeId × NodeId)} :
    u ∈ meetingPairs M N ↔ (u.1 ∈ M ∧ u.2 ∈ N) ∧ u.1.2 = u.2.1 := by
  rw [meetingPairs, Finset.mem_filter, Finset.mem_product]

/-- Two nodes are joined by the composition if some node between them is joined to both. -/
lemma mem_composePairs {x : NodeId × NodeId} :
    x ∈ composePairs M N ↔ ∃ b, (x.1, b) ∈ M ∧ (b, x.2) ∈ N := by
  rw [composePairs, Finset.mem_image]
  constructor
  · rintro ⟨⟨⟨a, b⟩, b', c⟩, hu, rfl⟩
    obtain ⟨⟨hM, hN⟩, heq⟩ := mem_meetingPairs.1 hu
    obtain rfl : b = b' := heq
    exact ⟨b, hM, hN⟩
  · rintro ⟨b, hM, hN⟩
    exact ⟨((x.1, b), b, x.2), mem_meetingPairs.2 ⟨⟨hM, hN⟩, rfl⟩, rfl⟩

/-- If a function tells the pairs of a set apart, then no more of them have a value in common with
another set than that set has pairs. -/
lemma card_filter_mem_image_le {side : NodeId × NodeId → NodeId}
    (hinj : Set.InjOn side (M : Set (NodeId × NodeId))) :
    (M.filter fun x => side x ∈ N.image side).card ≤ N.card := by
  have hinj' : Set.InjOn side ((M.filter fun x => side x ∈ N.image side : Finset _) : Set _) :=
    hinj.mono (Finset.coe_subset.2 (Finset.filter_subset _ _))
  rw [← Finset.card_image_of_injOn hinj']
  have hsub : (M.filter fun x => side x ∈ N.image side).image side ⊆ N.image side := by
    intro s hs
    obtain ⟨x, hx, rfl⟩ := Finset.mem_image.1 hs
    exact (Finset.mem_filter.1 hx).2
  exact (Finset.card_le_card hsub).trans Finset.card_image_le

section Compose

variable (hM : IsEditMapping src mid M) (hN : IsEditMapping mid dst N)

include hM hN

/-- **Edit mappings can be composed.**

**Proof sketch.** Every condition on the composition is the condition on the first mapping followed
by that on the second. -/
theorem IsEditMapping.compose : IsEditMapping src dst (composePairs M N) := by
  refine ⟨fun x hx => ?_, fun x hx y hy => ?_, fun x hx y hy => ?_, fun x hx y hy => ?_,
    fun x hx => ?_⟩
  all_goals obtain ⟨b, hxM, hxN⟩ := mem_composePairs.1 hx
  · exact ⟨(hM.nodes _ hxM).1, (hN.nodes _ hxN).2⟩
  · obtain ⟨b', hyM, hyN⟩ := mem_composePairs.1 hy
    exact (hM.oneToOne _ hxM _ hyM).trans (hN.oneToOne _ hxN _ hyN)
  · obtain ⟨b', hyM, hyN⟩ := mem_composePairs.1 hy
    exact (hM.ancestors _ hxM _ hyM).trans (hN.ancestors _ hxN _ hyN)
  · obtain ⟨b', hyM, hyN⟩ := mem_composePairs.1 hy
    exact (hM.order _ hxM _ hyM).trans (hN.order _ hxN _ hyN)
  · exact (hM.kinds _ hxM).trans (hN.kinds _ hxN)

/-- Pairs of pairs that meet in the middle are as many as the pairs of the composition. -/
lemma card_composePairs : (composePairs M N).card = (meetingPairs M N).card := by
  refine Finset.card_image_of_injOn fun u hu v hv heq => ?_
  obtain ⟨⟨huM, huN⟩, -⟩ := mem_meetingPairs.1 hu
  obtain ⟨⟨hvM, hvN⟩, -⟩ := mem_meetingPairs.1 hv
  obtain ⟨h1, h2⟩ := Prod.mk.inj heq
  exact Prod.ext (hM.injOn_fst huM hvM h1) (hN.injOn_snd huN hvN h2)

/-- **A composition loses at most the nodes in the middle that only one mapping keeps.**

**Proof sketch.** The nodes in the middle that the first mapping keeps and those that the second
one keeps are all nodes of the tree in the middle; every node that both keep makes a pair. -/
lemma card_add_card_le : M.card + N.card ≤ (composePairs M N).card + mid.count := by
  have hunion : M.image Prod.snd ∪ N.image Prod.fst ⊆ mid.preOrder.toFinset :=
    Finset.union_subset hM.image_snd_subset hN.image_fst_subset
  have hinter : M.image Prod.snd ∩ N.image Prod.fst ⊆
      (meetingPairs M N).image fun u => u.1.2 := by
    intro b hb
    obtain ⟨hbM, hbN⟩ := Finset.mem_inter.1 hb
    obtain ⟨⟨a, b'⟩, hx, rfl⟩ := Finset.mem_image.1 hbM
    obtain ⟨⟨b'', c⟩, hy, heq⟩ := Finset.mem_image.1 hbN
    obtain rfl : b'' = b' := heq
    exact Finset.mem_image.2 ⟨((a, b''), b'', c), mem_meetingPairs.2 ⟨⟨hx, hy⟩, rfl⟩, rfl⟩
  calc M.card + N.card
      = (M.image Prod.snd).card + (N.image Prod.fst).card := by
        rw [Finset.card_image_of_injOn hM.injOn_snd, Finset.card_image_of_injOn hN.injOn_fst]
    _ = (M.image Prod.snd ∪ N.image Prod.fst).card +
          (M.image Prod.snd ∩ N.image Prod.fst).card := (Finset.card_union_add_card_inter _ _).symm
    _ ≤ mid.count + (meetingPairs M N).card :=
        add_le_add ((Finset.card_le_card hunion).trans_eq mid.card_toFinset_preOrder)
          ((Finset.card_le_card hinter).trans Finset.card_image_le)
    _ = (composePairs M N).card + mid.count := by rw [card_composePairs hM hN, add_comm]

/-- A pair of the composition with different labels has different labels on one half of the way.

**Proof sketch.** The label of such a pair changes between source and middle, or between middle and
destination.  Each node of the source and each one of the destination is in one pair of the
composition only, so that the pairs of either sort can be counted by their ends. -/
lemma card_relabelled_compose_le :
    (relabelled src dst (composePairs M N)).card ≤
      (relabelled src mid M).card + (relabelled mid dst N).card := by
  have hcompose := hM.compose hN
  have hsub : relabelled src dst (composePairs M N) ⊆
      ((composePairs M N).filter fun x => x.1 ∈ (relabelled src mid M).image Prod.fst) ∪
        (composePairs M N).filter fun x => x.2 ∈ (relabelled mid dst N).image Prod.snd := by
    intro x hx
    obtain ⟨hx, hne⟩ := Finset.mem_filter.1 hx
    obtain ⟨b, hxM, hxN⟩ := mem_composePairs.1 hx
    -- if the first half keeps the label, the second half changes it
    by_cases hb : src.label x.1 = mid.label b
    · have hlate : (b, x.2) ∈ relabelled mid dst N :=
        Finset.mem_filter.2 ⟨hxN, fun heq => hne (hb.trans heq)⟩
      refine Finset.mem_union_right _ (Finset.mem_filter.2 ⟨hx, ?_⟩)
      exact Finset.mem_image.2 ⟨_, hlate, rfl⟩
    · have hearly : (x.1, b) ∈ relabelled src mid M := Finset.mem_filter.2 ⟨hxM, hb⟩
      refine Finset.mem_union_left _ (Finset.mem_filter.2 ⟨hx, ?_⟩)
      exact Finset.mem_image.2 ⟨_, hearly, rfl⟩
  calc (relabelled src dst (composePairs M N)).card
      ≤ _ := Finset.card_le_card hsub
    _ ≤ _ := Finset.card_union_le _ _
    _ ≤ (relabelled src mid M).card + (relabelled mid dst N).card :=
        add_le_add (card_filter_mem_image_le hcompose.injOn_fst)
          (card_filter_mem_image_le hcompose.injOn_snd)

/-- **A composition costs at most as much as both mappings together.**

**Proof sketch.** Nodes that are left out by the composition are left out by one of the two
mappings, and labels that differ along the whole way differ on one half of it. -/
theorem editCost_compose_le (hr : 0 ≤ r) :
    editCost src dst r (composePairs M N) ≤ editCost src mid r M + editCost mid dst r N := by
  have hcard : ((M.card : ℚ) + N.card) ≤ (composePairs M N).card + mid.count := by
    exact_mod_cast card_add_card_le hM hN
  have hlabels : r * ((relabelled src dst (composePairs M N)).card : ℚ) ≤
      r * (relabelled src mid M).card + r * (relabelled mid dst N).card := by
    rw [← mul_add]
    refine mul_le_mul_of_nonneg_left ?_ hr
    exact_mod_cast card_relabelled_compose_le hM hN
  rw [editCost_eq, editCost_eq, editCost_eq]
  linarith

end Compose

/-! ### Profiles -/

/-- The contents of the nodes of a forest in pre-order, each with its number of descendants. -/
def Forest.profile (f : Forest Node) : List ((Kind × String) × Nat) :=
  f.preSteps.map fun s => (s.node.content, s.descendants)

/-- The profile of a forest starts with the content and the size below the first root. -/
lemma Forest.profile_node (n : Node) (below next : Forest Node) :
    (Forest.node n below next).profile =
      (n.content, below.size) :: (below.profile ++ next.profile) := by
  rw [profile, preSteps, List.map_cons, List.map_append]
  rfl

/-- The profile has an entry for every node of a forest. -/
@[simp]
lemma Forest.length_profile (f : Forest Node) : f.profile.length = f.size := by
  rw [profile, List.length_map, length_preSteps]

/-- **The profile of a forest determines its shape, kinds and labels.**

**Proof sketch.** Induction on the forest.  The first entry tells the content of the first root and
how many of the entries behind it belong to the trees below that root. -/
theorem Forest.map_content_eq_iff_profile_eq (f g : Forest Node) :
    f.map Node.content = g.map Node.content ↔ f.profile = g.profile := by
  induction f generalizing g with
  | nil => cases g <;> simp [map, profile, preSteps]
  | node n below next ihb ihn =>
    cases g with
    | nil => simp [map, profile, preSteps]
    | node m below' next' =>
      rw [map, map, Forest.node.injEq, ihb, ihn, profile_node, profile_node, List.cons.injEq]
      constructor
      · rintro ⟨hcontent, hbelow, hnext⟩
        have hsize : below.size = below'.size := by
          rw [← length_profile, hbelow, length_profile]
        rw [hcontent, hsize, hbelow, hnext]
        exact ⟨rfl, rfl⟩
      · rintro ⟨hfirst, hrest⟩
        obtain ⟨hcontent, hsize⟩ := Prod.mk.inj hfirst
        have hlength : below.profile.length = below'.profile.length := by
          rw [length_profile, length_profile, hsize]
        exact ⟨hcontent, List.append_inj hrest hlength⟩

namespace Tree

variable {t : Tree} {id : NodeId}

/-- The contents of the nodes of a tree in pre-order, each with its number of descendants. -/
def profile (t : Tree) : List ((Kind × String) × Nat) := t.shape.toForest.profile

/-- The profile has an entry for every node of a tree. -/
lemma length_profile (t : Tree) : t.profile.length = t.count := by
  rw [profile, Forest.length_profile, size_toForest]

/-- The entry of a node in the profile. -/
lemma getElem?_profile (h : id ∈ t.preOrder) :
    t.profile[t.preIndex id]? = some ((t.entry id).node.content, t.size id - 1) := by
  have hstep := Forest.getElem?_preSteps_of_mem_entries (entry_mem_of_mem_preOrder h).1
  rw [Nat.sub_zero] at hstep
  rw [profile, Forest.profile, List.getElem?_map, preIndex, hstep]
  rfl

/-- Trees are alike exactly if they have the same profile. -/
theorem alike_iff_profile_eq : src.Alike dst ↔ src.profile = dst.profile := by
  rw [profile, profile, ← Forest.map_content_eq_iff_profile_eq]
  simp only [Alike, Rooted.toForest, Rooted.map, Forest.map, Rooted.mk.injEq, Forest.node.injEq,
    and_true]

/-- Nodes at the same place of alike trees have subtrees of the same size. -/
lemma Alike.size_eq (h : src.Alike dst) {s d : NodeId} (hsd : SamePlace src dst s d) :
    src.size s = dst.size d := by
  obtain ⟨hs, hd, hpre⟩ := samePlace_iff.1 hsd
  have hentry := getElem?_profile hs
  rw [alike_iff_profile_eq.1 h, hpre, getElem?_profile hd, Option.some.injEq] at hentry
  have hsize := (Prod.mk.inj hentry).2
  have hs1 := size_eq_of_mem hs
  have hd1 := size_eq_of_mem hd
  omega

end Tree

/-! ### Alike trees have distance zero -/

/-- The pairs of nodes that stand at the same place of two trees. -/
def placePairs (src dst : Tree) : Finset (NodeId × NodeId) :=
  (src.preOrder.zip dst.preOrder).toFinset

/-- Two nodes are paired by place if they are at the same place in pre-order. -/
lemma mem_placePairs {x : NodeId × NodeId} :
    x ∈ placePairs src dst ↔ SamePlace src dst x.1 x.2 := by
  rw [placePairs, List.mem_toFinset, List.mem_iff_getElem?, SamePlace]
  exact exists_congr fun k => List.getElem?_zip_eq_some

namespace Tree.Alike

variable (h : src.Alike dst)

include h

/-- **Alike trees are paired by position.**

**Proof sketch.** Nodes at the same place of alike trees have the same index and the same size, and
all conditions of an edit mapping are stated by indices and sizes, but for that on kinds, which are
equal. -/
lemma isEditMapping_placePairs : IsEditMapping src dst (placePairs src dst) := by
  have hplace : ∀ x ∈ placePairs src dst, SamePlace src dst x.1 x.2 := fun x => mem_placePairs.1
  have hnodes : ∀ x ∈ placePairs src dst, x.1 ∈ src.preOrder ∧ x.2 ∈ dst.preOrder ∧
      src.preIndex x.1 = dst.preIndex x.2 := fun x hx => samePlace_iff.1 (hplace x hx)
  have hbelow : ∀ x ∈ placePairs src dst, ∀ y ∈ placePairs src dst,
      src.isDescendant x.1 y.1 = dst.isDescendant x.2 y.2 := by
    intro x hx y hy
    rw [isDescendant, isDescendant, (hnodes x hx).2.2, (hnodes y hy).2.2, h.size_eq (hplace x hx)]
  refine ⟨fun x hx => ⟨(hnodes x hx).1, (hnodes x hx).2.1⟩, fun x hx y hy => ?_,
    fun x hx y hy => ?_, fun x hx y hy => ?_, fun x hx => ?_⟩
  · rw [← preIndex_inj (hnodes x hx).1 (hnodes y hy).1, (hnodes x hx).2.2, (hnodes y hy).2.2,
      preIndex_inj (hnodes x hx).2.1 (hnodes y hy).2.1]
  · rw [hbelow x hx y hy]
  · rw [isLeftOf, isLeftOf, (hnodes x hx).2.2, (hnodes y hy).2.2, hbelow x hx y hy]
  · exact congrArg Prod.fst (h.content_eq (hplace x hx))

/-- Pairing alike trees by position costs nothing. -/
lemma editCost_placePairs : editCost src dst r (placePairs src dst) = 0 := by
  have hcard : (placePairs src dst).card = src.count := by
    have hmapping := h.isEditMapping_placePairs
    rw [← Finset.card_image_of_injOn hmapping.injOn_fst, ← src.card_toFinset_preOrder]
    refine congrArg Finset.card (hmapping.image_fst_subset.antisymm fun s hs => ?_)
    obtain ⟨d, hplace⟩ := h.exists_samePlace (List.mem_toFinset.1 hs)
    exact Finset.mem_image.2 ⟨(s, d), mem_placePairs.2 hplace, rfl⟩
  have hlabels : relabelled src dst (placePairs src dst) = ∅ := by
    refine Finset.filter_eq_empty_iff.2 fun x hx hne => hne ?_
    exact congrArg Prod.snd (h.content_eq (mem_placePairs.1 hx))
  rw [editCost_eq, hlabels, hcard, ← h.count_eq]
  simp

end Tree.Alike

/-! ### Only alike trees have distance zero -/

namespace Tree

variable {t : Tree} {a b id : NodeId}

/-- What comes later in pre-order lies below a node or to the right of it. -/
lemma preIndex_lt_iff :
    t.preIndex a < t.preIndex b ↔ t.isDescendant a b = true ∨ t.isLeftOf a b = true := by
  simp only [isLeftOf, isDescendant, Bool.and_eq_true, Bool.not_eq_true', decide_eq_true_eq,
    Bool.and_eq_false_iff, decide_eq_false_iff_not]
  omega

/-- As many nodes come before a node in pre-order as its index counts.

**Proof sketch.** The indices of these nodes are all numbers below that of the node, each of them
once. -/
lemma card_filter_preIndex_lt (h : id ∈ t.preOrder) :
    (t.preOrder.toFinset.filter fun n => t.preIndex n < t.preIndex id).card = t.preIndex id := by
  have hinj : Set.InjOn t.preIndex
      ((t.preOrder.toFinset.filter fun n => t.preIndex n < t.preIndex id : Finset _) : Set _) := by
    intro m hm n hn heq
    have hm' := List.mem_toFinset.1 (Finset.mem_filter.1 hm).1
    have hn' := List.mem_toFinset.1 (Finset.mem_filter.1 hn).1
    exact (preIndex_inj hm' hn').1 heq
  have himage : (t.preOrder.toFinset.filter fun n => t.preIndex n < t.preIndex id).image
      t.preIndex = Finset.range (t.preIndex id) := by
    ext k
    simp only [Finset.mem_image, Finset.mem_filter, List.mem_toFinset, Finset.mem_range]
    constructor
    · rintro ⟨n, ⟨-, hlt⟩, rfl⟩
      exact hlt
    · intro hk
      have hlength : k < t.preOrder.length := by
        have hle := (List.getElem?_eq_some_iff.1 (getElem?_preOrder_preIndex h)).1
        omega
      obtain ⟨hn, hpre⟩ := getElem?_preOrder_eq_some_iff.1 (List.getElem?_eq_getElem hlength)
      exact ⟨_, ⟨hn, hpre.trans_lt hk⟩, hpre⟩
  rw [← Finset.card_image_of_injOn hinj, himage, Finset.card_range]

/-- The size of a subtree counts the descendants of its root, and the root. -/
lemma card_filter_isDescendant (h : id ∈ t.preOrder) :
    (t.preOrder.toFinset.filter fun n => t.isDescendant id n = true).card = t.size id - 1 := by
  have hfilter : (t.preOrder.toFinset.filter fun n => t.isDescendant id n = true) =
      (t.descendants id).toFinset := by
    ext n
    rw [Finset.mem_filter, List.mem_toFinset, List.mem_toFinset, mem_descendants_iff h]
  rw [hfilter, List.toFinset_card_of_nodup (List.nodup_cons.1 (nodup_subtree h)).2,
    descendants_eq h, List.length_map, Forest.length_preOrder, size_eq_of_mem h,
    Nat.add_sub_cancel]
  rfl

end Tree

section OneSide

variable {t : Tree} {side : NodeId × NodeId → NodeId}
  (hinj : Set.InjOn side (M : Set (NodeId × NodeId)))
  (hsub : M.image side ⊆ t.preOrder.toFinset) (hcard : M.card = t.count)

include hinj hsub hcard

/-- Pairs with different nodes on one side, as many as a tree has nodes, reach all its nodes. -/
lemma image_eq_of_card_eq : M.image side = t.preOrder.toFinset := by
  refine Finset.eq_of_subset_of_card_le hsub ?_
  rw [Finset.card_image_of_injOn hinj, hcard, t.card_toFinset_preOrder]

/-- So what there is in the tree can be counted among the pairs. -/
lemma card_filter_of_card_eq (P : NodeId → Prop) [DecidablePred P] :
    (M.filter fun x => P (side x)).card = (t.preOrder.toFinset.filter P).card := by
  rw [← image_eq_of_card_eq hinj hsub hcard, Finset.filter_image, Finset.card_image_of_injOn]
  exact hinj.mono (Finset.coe_subset.2 (Finset.filter_subset _ _))

end OneSide

namespace IsEditMapping

variable (h : IsEditMapping src dst M) (hsrc : M.card = src.count) (hdst : M.card = dst.count)

include h hsrc hdst

/-- **A mapping of all nodes pairs nodes at the same place**, and their subtrees have the same size.

**Proof sketch.** The place of a node is the number of nodes that come before it, and the size of
its subtree is determined by the number of nodes below it.  Both are numbers of pairs, and they are
the same on both sides. -/
lemma samePlace_of_card_eq {x : NodeId × NodeId} (hx : x ∈ M) :
    SamePlace src dst x.1 x.2 ∧ src.size x.1 - 1 = dst.size x.2 - 1 := by
  obtain ⟨hs, hd⟩ := h.nodes x hx
  have hcountSrc := card_filter_of_card_eq h.injOn_fst h.image_fst_subset hsrc
  have hcountDst := card_filter_of_card_eq h.injOn_snd h.image_snd_subset hdst
  refine ⟨Tree.samePlace_iff.2 ⟨hs, hd, ?_⟩, ?_⟩
  · rw [← Tree.card_filter_preIndex_lt hs, ← Tree.card_filter_preIndex_lt hd, ← hcountSrc,
      ← hcountDst]
    refine congrArg Finset.card (Finset.filter_congr fun y hy => ?_)
    rw [Tree.preIndex_lt_iff, Tree.preIndex_lt_iff, h.ancestors y hy x hx, h.order y hy x hx]
  · rw [← Tree.card_filter_isDescendant hs, ← Tree.card_filter_isDescendant hd, ← hcountSrc,
      ← hcountDst]
    exact congrArg Finset.card (Finset.filter_congr fun y hy => h.ancestors x hx y hy)

/-- **A mapping of all nodes that relabels none pairs alike trees.**

**Proof sketch.** All nodes are in a pair, and the nodes of a pair stand at the same place and have
subtrees of the same size, by `samePlace_of_card_eq`.  Their contents are equal since no label is
changed.  So the trees have the same profile. -/
theorem alike_of_card_eq (hlabels : relabelled src dst M = ∅) : src.Alike dst := by
  have hall := image_eq_of_card_eq h.injOn_fst h.image_fst_subset hsrc
  rw [Tree.alike_iff_profile_eq]
  refine List.ext_getElem? fun k => ?_
  by_cases hk : k < src.preOrder.length
  · obtain ⟨hs, hpre⟩ := Tree.getElem?_preOrder_eq_some_iff.1 (List.getElem?_eq_getElem hk)
    obtain ⟨x, hx, heq⟩ := Finset.mem_image.1 (hall.symm ▸ List.mem_toFinset.2 hs)
    rw [← heq] at hs hpre
    obtain ⟨hplace, hsize⟩ := h.samePlace_of_card_eq hsrc hdst hx
    obtain ⟨-, hd, hpre'⟩ := Tree.samePlace_iff.1 hplace
    have hcontent : (src.entry x.1).node.content = (dst.entry x.2).node.content := by
      refine Prod.ext (h.kinds x hx) ?_
      have hnot := Finset.filter_eq_empty_iff.1 hlabels hx
      exact not_not.1 hnot
    rw [← hpre, Tree.getElem?_profile hs, hpre', Tree.getElem?_profile hd, hcontent, hsize]
  · rw [Tree.length_preOrder] at hk
    rw [List.getElem?_eq_none (by rw [Tree.length_profile]; omega),
      List.getElem?_eq_none (by rw [Tree.length_profile]; omega)]

omit hsrc hdst in
/-- **A mapping that costs nothing pairs alike trees**, unless relabelling is free.

**Proof sketch.** The cost is a sum of three parts that are not negative: the nodes left out on
either side, and the relabelled ones.  So all of them are zero, and the mapping covers both
trees. -/
theorem alike_of_editCost_eq_zero (hr : 0 < r) (hcost : editCost src dst r M = 0) :
    src.Alike dst := by
  have hsrc : (M.card : ℚ) ≤ src.count := by exact_mod_cast h.card_le_src
  have hdst : (M.card : ℚ) ≤ dst.count := by exact_mod_cast h.card_le_dst
  have hlabels : 0 ≤ r * ((relabelled src dst M).card : ℚ) := by positivity
  rw [editCost_eq] at hcost
  have hnone : r * ((relabelled src dst M).card : ℚ) = 0 := by linarith
  have hcard : (relabelled src dst M).card = 0 := by
    exact_mod_cast (mul_eq_zero.1 hnone).resolve_left hr.ne'
  refine h.alike_of_card_eq ?_ ?_ (Finset.card_eq_zero.1 hcard)
  · have heq : (M.card : ℚ) = src.count := by linarith
    exact_mod_cast heq
  · have heq : (M.card : ℚ) = dst.count := by linarith
    exact_mod_cast heq

end IsEditMapping

/-! ### The laws of the distance -/

/-- The distance of two trees that are not too large is the least cost of an edit mapping. -/
lemma EditDistance.exists_ofTrees_eq_ok (r : ℚ) {limit : ℕ}
    (hlimit : src.count * dst.count ≤ limit) :
    ∃ d : ℚ, EditDistance.ofTrees src dst (r : WithTop ℚ) limit = .ok (d : WithTop ℚ) ∧
      IsLeast (editCosts src dst r) d := by
  rcases EditDistance.prepare_cases src dst limit with ⟨h, -⟩ | ⟨-, a, b, m, p, p', hp, ha, hb⟩
  · omega
  · obtain ⟨d, hd, hleast⟩ := Numbering.isLeast_editCosts_distance ha hb r
    refine ⟨d, ?_, hleast⟩
    rw [EditDistance.ofTrees, hp, ← hd]
    rfl

/-- **The edit distance is a metric on trees up to likeness.**  Let relabelling not cost less than
nothing, and let the trees not be too large.  Then their distance does not depend on which of them
is the source and which the destination, it is not negative, it is zero for alike trees and, unless
relabelling is free, for no others; and the way through a third tree is not shorter.

**Proof sketch.** By `exists_ofTrees_eq_ok` the distance is the least cost of an edit mapping.
Inverting mappings gives symmetry and composing them the triangle inequality.  Costs are not
negative; the mapping by position costs nothing; and a mapping that costs nothing relabels no node
and leaves none out. -/
theorem distance_is_metric_up_to_likeness (r : ℚ) (hr : 0 ≤ r) (limit : ℕ) :
    (∀ src dst : Tree, src.count * dst.count ≤ limit →
      ∃ d : ℚ, EditDistance.ofTrees src dst (r : WithTop ℚ) limit = .ok (d : WithTop ℚ) ∧
        EditDistance.ofTrees dst src (r : WithTop ℚ) limit = .ok (d : WithTop ℚ) ∧
        0 ≤ d ∧ (src.Alike dst → d = 0) ∧ (0 < r → d = 0 → src.Alike dst)) ∧
    ∀ src mid dst : Tree, src.count * mid.count ≤ limit → mid.count * dst.count ≤ limit →
      src.count * dst.count ≤ limit →
      ∃ x y z : ℚ, EditDistance.ofTrees src mid (r : WithTop ℚ) limit = .ok (x : WithTop ℚ) ∧
        EditDistance.ofTrees mid dst (r : WithTop ℚ) limit = .ok (y : WithTop ℚ) ∧
        EditDistance.ofTrees src dst (r : WithTop ℚ) limit = .ok (z : WithTop ℚ) ∧ z ≤ x + y := by
  refine ⟨fun src dst hlimit => ?_, fun src mid dst hsm hmd hsd => ?_⟩
  · obtain ⟨d, hd, hleast⟩ := EditDistance.exists_ofTrees_eq_ok r hlimit
    obtain ⟨d', hd', hleast'⟩ :=
      EditDistance.exists_ofTrees_eq_ok r (mul_comm src.count _ ▸ hlimit)
    rw [← editCosts_comm] at hleast'
    obtain rfl := hleast.unique hleast'
    obtain ⟨M, hM, hcost⟩ := hleast.1
    have hnonneg : 0 ≤ d := hcost ▸ hM.editCost_nonneg hr
    refine ⟨d, hd, hd', hnonneg, fun halike => ?_, fun hpos hzero => ?_⟩
    · -- pairing by position costs nothing
      have hle := hleast.2 ⟨_, halike.isEditMapping_placePairs, halike.editCost_placePairs⟩
      exact hle.antisymm hnonneg
    · exact hM.alike_of_editCost_eq_zero hpos (hcost.trans hzero)
  · obtain ⟨x, hx, ⟨M, hM, rfl⟩, -⟩ := EditDistance.exists_ofTrees_eq_ok r hsm
    obtain ⟨y, hy, ⟨N, hN, rfl⟩, -⟩ := EditDistance.exists_ofTrees_eq_ok r hmd
    obtain ⟨z, hz, -, hleast⟩ := EditDistance.exists_ofTrees_eq_ok r hsd
    refine ⟨_, _, z, hx, hy, hz, ?_⟩
    exact (hleast ⟨_, hM.compose hN, rfl⟩).trans (editCost_compose_le hM hN hr)

/-- Three trees: between the first two a node is moved, and between the last two a leaf gets another
label, which costs a half. -/
theorem distances_of_moved_node_and_relabelled_leaf :
    let src : Tree := .ofContents ⟨(⟨0⟩, "f"), .node (⟨0⟩, "d")
      (.node (⟨0⟩, "a") .nil (.node (⟨0⟩, "c") (.leaf (⟨0⟩, "b")) .nil)) (.leaf (⟨0⟩, "e"))⟩
    let mid : Tree := .ofContents ⟨(⟨0⟩, "f"), .node (⟨0⟩, "c")
      (.node (⟨0⟩, "d") (.node (⟨0⟩, "a") .nil (.leaf (⟨0⟩, "b"))) .nil) (.leaf (⟨0⟩, "e"))⟩
    let dst : Tree := .ofContents ⟨(⟨0⟩, "f"), .node (⟨0⟩, "c")
      (.node (⟨0⟩, "d") (.node (⟨0⟩, "a") .nil (.leaf (⟨0⟩, "x"))) .nil) (.leaf (⟨0⟩, "e"))⟩
    let distance (s t : Tree) := EditDistance.ofTrees s t ((1 / 2 : ℚ) : WithTop ℚ) 36
    (0 : ℚ) ≤ 1 / 2 ∧ src.count * mid.count ≤ 36 ∧ mid.count * dst.count ≤ 36 ∧
      src.count * dst.count ≤ 36 ∧
      (∃ d : ℚ, distance mid dst = .ok (d : WithTop ℚ) ∧ distance dst mid = .ok (d : WithTop ℚ) ∧
        0 ≤ d ∧ (mid.Alike dst → d = 0) ∧ ((0 : ℚ) < 1 / 2 → d = 0 → mid.Alike dst)) ∧
      ∃ x y z : ℚ, distance src mid = .ok (x : WithTop ℚ) ∧
        distance mid dst = .ok (y : WithTop ℚ) ∧ distance src dst = .ok (z : WithTop ℚ) ∧
        z ≤ x + y := by
  intro src mid dst distance
  have hr : (0 : ℚ) ≤ 1 / 2 := by norm_num
  have hsm : src.count * mid.count ≤ 36 := by decide
  have hmd : mid.count * dst.count ≤ 36 := by decide
  have hsd : src.count * dst.count ≤ 36 := by decide
  obtain ⟨hpair, htriple⟩ := distance_is_metric_up_to_likeness (1 / 2) hr 36
  exact ⟨hr, hsm, hmd, hsd, hpair mid dst hmd, htriple src mid dst hsm hmd hsd⟩

end TreeMatching
