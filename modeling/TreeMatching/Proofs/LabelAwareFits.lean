import TreeMatching.Proofs.SharedSubtrees
import TreeMatching.Proofs.SimilarLeaves

set_option autoImplicit false

/-!
# What matching by labels leaves

Inner nodes are judged by the partners of the leaves below them.  The leaves are dealt with first,
and from the first level on only inner nodes are linked, unless a tree has none.  So the judgement
on two inner nodes is the same on every level and at the end.  A level leaves no two free nodes that
were candidates, because a greedy choice passes over a candidate only if one of its nodes has a
partner.

## Main definitions

* `LabelAware.SameLeafPartners` — two pairings agree on all leaves.
* `LabelAware.leafSimilarity` — how leaves are judged.
* `LabelAware.LeavesTried` — no two free leaves of one kind are similar enough.
* `LabelAware.LevelsTried` — no two free inner nodes of one kind fit, as far as the source node is
  of certain heights.

## Main results

* `Tree.isLeaf_eq_false_iff` — inner nodes are those with a positive height.
* `LabelAware.innerFits_congr` — what fits depends on the partners of leaves only.
* `LabelAware.returns_linkLeaves`, `LabelAware.returns_linkInner`, `LabelAware.returns_linkRoots` —
  the steps of the stage.
* `label_aware_stage_leaves_nothing_that_fits` — the stage.
-/

namespace TreeMatching

open Matching

/-! ### Inner nodes -/

namespace Tree

variable {t : Tree} {a : NodeId}

/-- Inner nodes are those with a positive height. -/
lemma isLeaf_eq_false_iff (ha : a ∈ t.preOrder) : t.isLeaf a = false ↔ 1 ≤ t.height a := by
  have hsize := size_eq_of_mem ha
  have hheight : t.height a = (t.entry a).below.levels := by
    rw [height, Forest.eq_rootEntry_of_mem (entry_mem_of_mem_preOrder ha).1]
    rfl
  rw [isLeaf, beq_eq_false_iff_ne, hsize, hheight]
  cases (t.entry a).below with
  | nil => simp [Forest.size, Forest.levels]
  | node n below next =>
    simp only [Forest.size, Forest.levels]
    omega

/-- If there is an inner node, the root is one. -/
lemma isLeaf_root_eq_false (ha : a ∈ t.preOrder) (hinner : t.isLeaf a = false) :
    t.isLeaf t.root = false := by
  rw [isLeaf_eq_false_iff ha] at hinner
  rw [isLeaf_eq_false_iff root_mem_preOrder]
  exact hinner.trans (height_le_height_root ha)

end Tree

namespace LabelAware

variable {task : Task} {p q : Pairing} {a b : NodeId}

/-! ### The partners of leaves -/

/-- The two pairings give all leaves of the two trees the same partners. -/
structure SameLeafPartners (task : Task) (p q : Pairing) : Prop where
  src : ∀ a, task.src.isLeaf a = true → p.dst? a = q.dst? a
  dst : ∀ b, task.dst.isLeaf b = true → p.src? b = q.src? b

namespace SameLeafPartners

/-- A pairing gives all leaves the partners that it gives them. -/
lemma refl : SameLeafPartners task p p := ⟨fun _ _ => rfl, fun _ _ => rfl⟩

/-- Linking inner nodes leaves the leaves alone. -/
lemma insert (h : SameLeafPartners task p q) (ha : task.src.isLeaf a = false)
    (hb : task.dst.isLeaf b = false) : SameLeafPartners task p (q.insert a b) where
  src x hx := by
    rw [h.src x hx, Pairing.dst?_insert, if_neg]
    rintro rfl
    rw [ha] at hx
    cases hx
  dst y hy := by
    rw [h.dst y hy, Pairing.src?_insert, if_neg]
    rintro rfl
    rw [hb] at hy
    cases hy

end SameLeafPartners

/-- The share of leaves with a property depends on nothing but the leaves. -/
lemma shareUnder_congr {t : Tree} {f g : NodeId → Bool} (h : ∀ x, t.isLeaf x = true → f x = g x) :
    shareUnder t a f = shareUnder t a g := by
  have hcount : (leavesUnder t a).countP f = (leavesUnder t a).countP g := by
    refine List.countP_congr fun x hx => ?_
    rw [h x (List.mem_filter.1 hx).2]
  rw [shareUnder, shareUnder, hcount]

/-- The similarity of children depends on the partners of leaves only. -/
lemma childrenSimilarity_congr (h : SameLeafPartners task p q) :
    childrenSimilarity task p a b = childrenSimilarity task q a b := by
  have hsrc : ∀ c, shareUnder task.src c (leadsBelowDst task p b) =
      shareUnder task.src c (leadsBelowDst task q b) := fun c =>
    shareUnder_congr fun x hx => by rw [leadsBelowDst, leadsBelowDst, h.src x hx]
  have hdst : ∀ c, shareUnder task.dst c (leadsBelowSrc task p a) =
      shareUnder task.dst c (leadsBelowSrc task q a) := fun c =>
    shareUnder_congr fun x hx => by rw [leadsBelowSrc, leadsBelowSrc, h.dst x hx]
  simp only [childrenSimilarity, childShares, hsrc, hdst]

/-- **Whether two inner nodes fit depends on the partners of leaves only.** -/
theorem innerFits_congr (h : SameLeafPartners task p q) :
    innerFits task p a b = innerFits task q a b := by
  rw [innerFits, innerFits, childrenSimilarity_congr h]

/-! ### Leaves -/

/-- The similarity of the labels of two leaves. -/
def leafSimilarity (task : Task) (a b : NodeId) : Float :=
  (comparer task).compare .leaf (task.src.kind a) (task.src.label a) (task.dst.kind b)
    (task.dst.label b)

/-- No two free leaves of one kind are similar enough. -/
def LeavesTried (task : Task) (p : Pairing) : Prop :=
  ∀ a b, task.src.isLeaf a = true → task.dst.isLeaf b = true →
    task.src.sameKind task.dst a b = true → p.dst? a = none → p.src? b = none →
      leafSimilarity task a b < task.settings.labelAware.leafThreshold

/-- Further links do not bring up free leaves. -/
lemma LeavesTried.mono (h : LeavesTried task p) (hgrows : Grows task p q) : LeavesTried task q :=
  fun a b ha hb hk hs hd => h a b ha hb hk (hgrows.srcFree_before hs) (hgrows.dstFree_before hd)

/-- If labels can be read, the leaves are found as by the plain double loop. -/
lemma leavesFound_eq (hread : ∀ a, task.readLabel a = .ok (task.src.label a)) :
    leavesFound task p = .ok (plain (comparer task) task p) :=
  sharded_scan_eq_plain p hread

/-- The candidates among the leaves. -/
lemma findsLeaves_plain (task : Task) (p : Pairing) :
    FindsLeaves task (fun a b => ¬leafSimilarity task a b < task.settings.labelAware.leafThreshold)
      p (plain (comparer task) task p) := by
  intro a b
  refine (exists_mem_pairs_iff
    (f := fun a b => task.src.sameKind task.dst a b &&
      !(leafSimilarity task a b < task.settings.labelAware.leafThreshold))
    (g := fun a b => .ofFloat (leafScore task.settings.labelAware (leafSimilarity task a b)
      (relativePosition task.src a) (relativePosition task.dst b)))).trans ?_
  rw [List.mem_filter, List.mem_filter, Pairing.not_hasSrc_iff, Pairing.not_hasDst_iff,
    Bool.and_eq_true, Bool.not_eq_true', decide_eq_false_iff_not]

/-- **Linking leaves uses up the pairs that are similar enough.** -/
lemma returns_linkLeaves (hread : ∀ a, task.readLabel a = .ok (task.src.label a))
    (hp : p.OneToOne) :
    Returns (linkLeaves task) p fun _ q => Grows task p q ∧ LeavesTried task q := by
  have hfound := leavesFound_eq (p := p) hread
  rw [leavesFound] at hfound
  refine returns_pairing_bind ?_
  rw [hfound]
  refine (returns_chooseGreedily_leaves hp (findsLeaves_plain task p)).mono fun _ q hq => ?_
  exact ⟨hq.grows, fun a b ha hb hk hs hd => not_not.1 (hq.usedUp a b ha hb hk hs hd)⟩

/-! ### Inner nodes -/

/-- No two free inner nodes of one kind fit, as far as the source node has one of the given
heights. -/
def LevelsTried (task : Task) (p : Pairing) (heights : List ℕ) : Prop :=
  ∀ a b, task.src.height a ∈ heights → task.dst.isLeaf b = false →
    task.src.sameKind task.dst a b = true → p.dst? a = none → p.src? b = none →
      innerFits task p a b = false

/-- Further links between inner nodes bring up nothing that fits. -/
lemma LevelsTried.mono {heights : List ℕ} (h : LevelsTried task p heights)
    (hgrows : Grows task p q) (hleaves : SameLeafPartners task p q) :
    LevelsTried task q heights := by
  intro a b ha hb hk hs hd
  rw [← innerFits_congr hleaves]
  exact h a b ha hb hk (hgrows.srcFree_before hs) (hgrows.dstFree_before hd)

/-- The candidates among the inner nodes. -/
lemma exists_mem_innerCandidates_iff {height : ℕ} :
    (∃ c ∈ innerCandidates task p height, c.src = a ∧ c.dst = b) ↔
      (a ∈ task.src.preOrder ∧ task.src.height a = height ∧ p.dst? a = none) ∧
      (b ∈ task.dst.preOrder ∧ task.dst.isLeaf b = false ∧ p.src? b = none) ∧
      task.src.sameKind task.dst a b = true ∧ innerFits task p a b = true := by
  refine (exists_mem_pairs_iff
    (f := fun a b => task.src.sameKind task.dst a b && innerFits task p a b)
    (g := fun a b => .ofFloat
      ((innerSimilarity task a b + childrenSimilarity task p a b) / 2.0))).trans ?_
  rw [List.mem_filter, List.mem_filter, Tree.mem_postOrder_iff, Tree.mem_postOrder_iff,
    Bool.and_eq_true, Bool.and_eq_true, Bool.and_eq_true, Pairing.not_hasSrc_iff,
    Pairing.not_hasDst_iff, beq_iff_eq, Bool.not_eq_true']

/-- Links between inner nodes leave the leaves alone. -/
lemma returns_chooseGreedily_sameLeafPartners {cs : List Candidate}
    (h : ∀ c ∈ cs, task.src.isLeaf c.src = false ∧ task.dst.isLeaf c.dst = false) :
    Returns (chooseGreedily cs) p fun _ => SameLeafPartners task p := by
  refine returns_forM .refl fun c hc q hq => ?_
  obtain ⟨hs, hd⟩ := h c (List.mem_mergeSort.1 hc)
  exact returns_linkIfFree (fun _ _ => hq.insert hs hd) hq

/-- **Linking the nodes of one height uses up the pairs that fit**, and spoils nothing on the levels
below.

**Proof sketch.** The nodes that are linked are inner ones, so all leaves keep their partners, and
the similarities remain what they were.  A pair of free nodes of this height that fits would have
been a candidate, and the greedy choice leaves no candidate with two free nodes. -/
lemma returns_linkInner {heights : List ℕ} {height : ℕ} (hpos : 1 ≤ height) (hp : p.OneToOne)
    (htried : LevelsTried task p heights) :
    Returns (linkInner task height) p fun _ q =>
      Grows task p q ∧ LevelsTried task q (heights ++ [height]) := by
  refine returns_pairing_bind ?_
  have hgrows : Returns (chooseGreedily (innerCandidates task p height)) p fun _ => Grows task p :=
    onlyAdds_chooseGreedily (fun c hc => nodes_of_mem_innerCandidates hc) p hp
  have hleaves : Returns (chooseGreedily (innerCandidates task p height)) p fun _ =>
      SameLeafPartners task p := by
    refine returns_chooseGreedily_sameLeafPartners fun c hc => ?_
    obtain ⟨⟨ha, hheight, -⟩, ⟨-, hb, -⟩, -⟩ :=
      exists_mem_innerCandidates_iff.1 ⟨c, hc, rfl, rfl⟩
    exact ⟨(Tree.isLeaf_eq_false_iff ha).2 (hheight ▸ hpos), hb⟩
  have hchoice := returns_chooseGreedily_not_bothFree (innerCandidates task p height) hp
  refine ((hgrows.and hleaves).and hchoice).mono fun _ q ⟨⟨hq, hsame⟩, hnot⟩ => ⟨hq, ?_⟩
  intro a b ha hb hk hs hd
  rcases List.mem_append.1 ha with ha | ha
  · exact htried.mono hq hsame a b ha hb hk hs hd
  · by_contra hfits
    rw [Bool.not_eq_false, ← innerFits_congr hsame] at hfits
    obtain ⟨hsrc, hdst, -⟩ := Tree.sameKind_iff.1 hk
    obtain ⟨c, hc, rfl, rfl⟩ := exists_mem_innerCandidates_iff.2
      ⟨⟨hsrc, List.mem_singleton.1 ha, hq.srcFree_before hs⟩,
        ⟨hdst, hb, hq.dstFree_before hd⟩, hk, hfits⟩
    exact hnot c hc ⟨hs, hd⟩

/-- All levels are dealt with, from the lowest up. -/
lemma returns_levels (hp : p.OneToOne) (n : ℕ) :
    Returns ((List.range' 1 n).forM (linkInner task)) p fun _ q =>
      Grows task p q ∧ LevelsTried task q (List.range' 1 n) := by
  refine returns_forM_prefix (I := fun done q => Grows task p q ∧ LevelsTried task q done)
    ⟨.refl, by simp [LevelsTried]⟩ ?_
  intro done height rest q hsplit hq
  have hmem : height ∈ List.range' 1 n := by
    rw [hsplit]
    simp
  have hpos : 1 ≤ height := (List.mem_range'_1.1 hmem).1
  refine (returns_linkInner hpos (hq.1.oneToOne hp) hq.2).mono fun _ r hr => ?_
  exact ⟨hq.1.trans hr.1, hr.2⟩

/-- Linking the roots spoils nothing: if there are inner nodes on both sides, the roots are among
them.

**Proof sketch.** If both roots are inner nodes, linking them changes no partner of a leaf, and the
levels stay tried.  If one of them is a leaf, its tree has no inner nodes, and there is nothing to
say. -/
lemma returns_linkRoots {heights : List ℕ} (hp : p.OneToOne) (hpos : ∀ h ∈ heights, 1 ≤ h)
    (htried : LevelsTried task p heights) :
    Returns (linkRoots task) p fun _ q => Grows task p q ∧ LevelsTried task q heights := by
  by_cases hroots : task.src.isLeaf task.src.root = false ∧ task.dst.isLeaf task.dst.root = false
  · have hleaves : Returns (linkRoots task) p fun _ => SameLeafPartners task p := by
      unfold linkRoots
      split
      · dsimp only
        split
        · exact returns_linkIfFree (fun _ _ => .insert .refl hroots.1 hroots.2) .refl
        · exact returns_pure .refl
      · exact returns_pure .refl
    refine ((onlyAdds_linkRoots p hp).and hleaves).mono fun _ q ⟨hq, hsame⟩ => ?_
    exact ⟨hq, htried.mono hq hsame⟩
  · refine (onlyAdds_linkRoots p hp).mono fun _ q hq => ⟨hq, fun a b ha hb hk _ _ => ?_⟩
    obtain ⟨hsrc, hdst, -⟩ := Tree.sameKind_iff.1 hk
    have hinner := (Tree.isLeaf_eq_false_iff hsrc).2 (hpos _ ha)
    exact absurd ⟨Tree.isLeaf_root_eq_false hsrc hinner, Tree.isLeaf_root_eq_false hdst hb⟩ hroots

/-- **The stage uses up what fits.**

**Proof sketch.** Leaves come first, then levels from below, and what is tried stays tried when the
pairing grows, because partners of leaves do not change any more. -/
theorem returns_run (hread : ∀ a, task.readLabel a = .ok (task.src.label a)) (hp : p.OneToOne) :
    Returns (run task) p fun _ q => LeavesTried task q ∧
      LevelsTried task q (List.range' 1 (task.src.height task.src.root)) := by
  refine (returns_linkLeaves hread hp).bind fun _ q hq => ?_
  have hq' := hq.1.oneToOne hp
  refine (onlyAdds_linkSingleClass q hq').bind fun _ r hr => ?_
  have hr' := hr.oneToOne hq'
  refine (returns_levels hr' (task.src.height task.src.root)).bind fun _ s hs => ?_
  have hs' := hs.1.oneToOne hr'
  have hpos : ∀ h ∈ List.range' 1 (task.src.height task.src.root), 1 ≤ h :=
    fun h hh => (List.mem_range'_1.1 hh).1
  refine (returns_linkRoots hs' hpos hs.2).mono fun _ t ht => ⟨?_, ht.2⟩
  exact ((hq.2.mono hr).mono hs.1).mono ht.1

end LabelAware

/-- **Matching by labels leaves nothing that fits.**  Run on any one-to-one pairing, the stage does
not fail.  On the pairing it leaves, no free inner nodes of one kind are accepted, by the similarity
of their children, that of their labels and the larger number of leaves below them; and the
similarity of any free leaves of one kind is below the threshold.

**Proof sketch.** `LabelAware.returns_run` says that all levels have been tried and no leaves are
left that fit.  The height of an inner node is positive and at most that of the root, so it is one
of the levels. -/
theorem label_aware_stage_leaves_nothing_that_fits (src dst : Tree) (settings : Settings)
    (rules : LabelRules) (threads : Nat) (p : Pairing) (hone : p.isOneToOne = true) :
    let task : Task := { src, dst, settings, rules, threads }
    let o := Stage.labelAware.perform task p
    let q := o.pairing
    let comparer : LabelComparer := { rules }
    o.fault = none ∧
      (∀ a ∈ src.preOrder, ∀ b ∈ dst.preOrder, src.isLeaf a = false → dst.isLeaf b = false →
        src.kind a = dst.kind b → q.bothFree a b = true →
        LabelAware.accepts settings.labelAware (LabelAware.childrenSimilarity task q a b)
          (comparer.compare .inner (src.kind a) (src.label a) (dst.kind b) (dst.label b))
          (max (src.leafCount a) (dst.leafCount b)) = false) ∧
      ∀ a ∈ src.leaves, ∀ b ∈ dst.leaves, src.kind a = dst.kind b → q.bothFree a b = true →
        comparer.compare .leaf (src.kind a) (src.label a) (dst.kind b) (dst.label b) <
          settings.labelAware.leafThreshold := by
  intro task o q comparer
  have hp : p.OneToOne := Pairing.isOneToOne_iff.1 hone
  have hread : ∀ a, task.readLabel a = .ok (task.src.label a) := fun _ => rfl
  obtain ⟨hfault, hleaves, hlevels⟩ := (LabelAware.returns_run hread hp).perform
  refine ⟨hfault, fun a ha b hb hinner hinner' hkind hfree => ?_,
    fun a ha b hb hkind hfree => ?_⟩
  · obtain ⟨hs, hd⟩ := Pairing.bothFree_iff.1 hfree
    have hheight : src.height a ∈ List.range' 1 (src.height src.root) := by
      have hpos := (Tree.isLeaf_eq_false_iff ha).1 hinner
      have hle := Tree.height_le_height_root ha
      rw [List.mem_range'_1]
      omega
    exact hlevels a b hheight hinner' (Tree.sameKind_iff.2 ⟨ha, hb, hkind⟩) hs hd
  · obtain ⟨hs, hd⟩ := Pairing.bothFree_iff.1 hfree
    have ha' := Tree.mem_preOrder_of_mem_leaves ha
    have hb' := Tree.mem_preOrder_of_mem_leaves hb
    exact hleaves a b (List.mem_filter.1 ha).2 (List.mem_filter.1 hb).2
      (Tree.sameKind_iff.2 ⟨ha', hb', hkind⟩) hs hd

/-- Two blocks against two.  The first ones have a linked leaf in common and are linked.  The others
have leaves of one kind, truth values that differ: these are not similar enough and stay free, hence
the blocks have no linked leaves, are turned down and stay free as well. -/
theorem truth_values_are_not_similar_and_their_blocks_turned_down :
    let src : Tree := .ofContents ⟨(⟨0⟩, "r"),
      .node (⟨1⟩, "s") (.node (⟨2⟩, "x") .nil (.leaf (⟨2⟩, "y")))
        (.node (⟨1⟩, "t") (.leaf (⟨3⟩, "true")) .nil)⟩
    let dst : Tree := .ofContents ⟨(⟨0⟩, "r"), .node (⟨1⟩, "d") (.leaf (⟨2⟩, "x"))
      (.node (⟨1⟩, "e") (.leaf (⟨3⟩, "false")) .nil)⟩
    let rules : LabelRules := LabelRules.classify {} .boolean [⟨3⟩]
    let task : Task := { src, dst, rules, threads := 4 }
    let comparer : LabelComparer := { rules }
    let p := Pairing.empty.insert 3 3
    let o := Stage.labelAware.perform task p
    p.isOneToOne = true ∧ o.fault = none ∧ o.pairing.pairs = [⟨2, 2⟩, ⟨3, 3⟩] ∧
      (o.pairing.bothFree 5 4 = true ∧
        LabelAware.accepts task.settings.labelAware
          (LabelAware.childrenSimilarity task o.pairing 5 4)
          (comparer.compare .inner ⟨1⟩ "t" ⟨1⟩ "e") 1 = false) ∧
      o.pairing.bothFree 6 5 = true ∧
        comparer.compare .leaf ⟨3⟩ "true" ⟨3⟩ "false" <
          task.settings.labelAware.leafThreshold := by
  intro src dst rules task comparer p o
  have hone : p.isOneToOne = true := by decide +kernel
  obtain ⟨hfault, hinner, hleaf⟩ :=
    label_aware_stage_leaves_nothing_that_fits src dst {} rules 4 p hone
  -- A table of hashes cannot be evaluated, so the look-ups in it are replaced by what they give.
  have hrules : ∀ k, task.rules.comparison k = if k = ⟨3⟩ then .boolean else .ignore := by
    intro k
    simp only [task, rules, LabelRules.comparison, LabelRules.classify, List.foldl_cons,
      List.foldl_nil, Std.HashMap.getElem?_insert, beq_iff_eq, eq_comm (b := k)]
    split <;> simp
  have hlevels : LabelAware.linkInner task = fun height => (do
      chooseGreedily (LabelAware.innerCandidates task (← Matching.pairing) height)) := rfl
  have hrun : o = (LabelAware.run task).perform p := rfl
  rw [LabelAware.run_eq fun _ => rfl, hlevels] at hrun
  simp only [LabelAware.plain, LabelAware.innerCandidates, LabelAware.innerFits,
    LabelAware.innerSimilarity, LabelComparer.compare, LabelAware.comparer, hrules] at hrun
  have hresult : o.pairing.pairs = [⟨2, 2⟩, ⟨3, 3⟩] ∧ o.pairing.bothFree 5 4 = true ∧
      o.pairing.bothFree 6 5 = true := by
    rw [hrun]
    decide +kernel
  obtain ⟨hpairs, hblocks, hvalues⟩ := hresult
  have hturned := hinner 5 (by decide +kernel) 4 (by decide +kernel) (by decide +kernel)
    (by decide +kernel) (by decide +kernel) hblocks
  have hbelow := hleaf 6 (by decide +kernel) 5 (by decide +kernel) (by decide +kernel) hvalues
  exact ⟨hone, hfault, hpairs, ⟨hblocks, hturned⟩, hvalues, hbelow⟩

end TreeMatching
