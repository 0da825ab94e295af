import TreeMatching.Proofs.Growth

set_option autoImplicit false

/-!
# Nodes that are linked below the partners of their parents

When the stage that looks for the best fit links a node, the partner lies below the partner of the
parent, if the parent has one at that moment.  It remains to see that the parent cannot get one
later.  Inner nodes are settled in pre-order, so the parent of a node has had its turn before; and
when the leaves are settled, only nodes without children are linked.

## Main definitions

* `BestFit.RespectsParents` — new pairs lie below the partners of the parents.
* `BestFit.ChildrenKept` — the children of a node have no partners but old ones.

## Main results

* `BestFit.RespectsParents.settled` — settling a node whose children are to come.
* `BestFit.returns_inner`, `BestFit.returns_leaves` — the two passes of the stage.
* `best_fit_respects_partners_of_parents` — the stage.
-/

namespace TreeMatching

open Matching

namespace BestFit

variable {task : Task} {p q r : Pairing} {a : NodeId} {leaf : Bool}

/-- Every pair of `q` is a pair of `p`, or its destination lies below the partner that `q` gives to
the parent of its source, if there is one. -/
def RespectsParents (task : Task) (p q : Pairing) : Prop :=
  ∀ x y, q.dst? x = some y → p.dst? x = some y ∨
    ∀ u v, task.src.parent? x = some u → q.dst? u = some v → task.dst.isDescendant v y = true

/-- Children of the node `a` that have a partner in `q` have it in `p`. -/
def ChildrenKept (task : Task) (p : Pairing) (a : NodeId) (q : Pairing) : Prop :=
  ∀ c, task.src.parent? c = some a → ∀ d, q.dst? c = some d → p.dst? c = some d

/-- Doing nothing respects the partners of parents. -/
lemma respectsParents_refl : RespectsParents task p p := fun _ _ hxy => .inl hxy

/-- **Settling a node respects the partners of parents**, if the children of the node are still to
come.

**Proof sketch.** The new pair respects the partner of its parent because it fits.  The link
concerns other pairs only through children of the node, and these have kept the partners they had at
the beginning. -/
theorem RespectsParents.settled (h : RespectsParents task p q) (hkept : ChildrenKept task p a q)
    (step : Settled task leaf a q r) : RespectsParents task p r := by
  cases step with
  | pass => exact h
  | @link b _ hfree hfits =>
    intro x y hxy
    rw [Pairing.dst?_insert] at hxy
    split at hxy
    · -- the new pair: the partner of the parent is the one it had before
      next hax =>
      subst hax
      obtain rfl := Option.some_inj.1 hxy
      refine .inr fun u v hu hv => hfits.below v ?_
      have hne : a ≠ u := by
        rintro rfl
        exact absurd (Tree.place_of_parent? hu).2.1 (lt_irrefl _)
      rw [Pairing.dst?_insert, if_neg hne] at hv
      rw [parentPartner?, hu]
      exact hv
    · by_cases hparent : task.src.parent? x = some a
      · exact .inl (hkept x hparent y hxy)
      · refine (h x y hxy).imp_right fun hbelow u v hu hv => hbelow u v hu ?_
        have hne : a ≠ u := by
          rintro rfl
          exact hparent hu
        rwa [Pairing.dst?_insert, if_neg hne] at hv

/-- What is linked by settling a node is that node. -/
lemma Settled.dst?_eq {x : NodeId} (step : Settled task leaf a q r) (hx : a ≠ x) :
    r.dst? x = q.dst? x := by
  cases step with
  | pass => rfl
  | link _ _ _ => rw [Pairing.dst?_insert, if_neg hx]

/-- The inner nodes in `done` have been settled: the pairing has grown, only by pairs of these
nodes, and it respects the partners of parents. -/
structure InnerDone (task : Task) (p : Pairing) (done : List NodeId) (q : Pairing) : Prop where
  grows : Grows task p q
  respects : RespectsParents task p q
  kept : ∀ x, x ∉ done → q.dst? x = p.dst? x

/-- **Settling the inner nodes respects the partners of parents.**

**Proof sketch.** Induction along the pre-order.  The children of a node come behind it, so none of
them is among the nodes that have been settled. -/
lemma returns_inner (task : Task) (p : Pairing) :
    Returns (task.src.preOrder.forM (settleInner task)) p fun _ =>
      InnerDone task p task.src.preOrder := by
  refine returns_forM_prefix ⟨.refl, respectsParents_refl, fun _ _ => rfl⟩ ?_
  intro done a rest q hsplit hq
  have hsorted := task.src.pairwise_preOrder
  rw [hsplit, List.pairwise_append] at hsorted
  have hkept : ChildrenKept task p a q := by
    intro c hc d hd
    rw [← hq.kept c, hd]
    intro hdone
    have hbefore := hsorted.2.2 c hdone a (List.mem_cons_self ..)
    have hbehind := (Tree.place_of_parent? hc).2.1
    omega
  have ha : a ∈ task.src.preOrder := by
    rw [hsplit]
    simp
  refine (returns_settleInner task q a).mono fun _ r hr => ?_
  refine ⟨hq.grows.trans (hr.grows ha), hq.respects.settled hkept hr, fun x hx => ?_⟩
  rw [List.mem_append, List.mem_singleton, not_or] at hx
  rw [hr.dst?_eq (Ne.symm hx.2), hq.kept x hx.1]

/-- Settling leaves does so, too, because they have no children. -/
lemma returns_leaves (hrespects : RespectsParents task p q) :
    Returns (task.src.preOrder.forM (settleLeaf task)) q fun _ r =>
      Grows task q r ∧ RespectsParents task p r := by
  refine returns_forM (I := fun r => Grows task q r ∧ RespectsParents task p r)
    ⟨.refl, hrespects⟩ fun a ha r hr => ?_
  refine (returns_settleLeaf task r a).mono fun _ s hs => ⟨hr.1.trans (hs.grows ha), ?_⟩
  cases hs with
  | pass => exact hr.2
  | link hleaf hfree hfits =>
    refine hr.2.settled (fun c hc => ?_) (.link hleaf hfree hfits)
    have hchild := Tree.mem_children_iff.2 hc
    rw [Tree.children_eq_nil_of_isLeaf hleaf] at hchild
    cases hchild

/-- **The stage respects the partners of parents.** -/
theorem returns_run (task : Task) (p : Pairing) :
    Returns (run task) p fun _ q => Grows task p q ∧ RespectsParents task p q := by
  refine (returns_inner task p).bind fun _ q hq => ?_
  exact (returns_leaves hq.respects).mono fun _ r hr => ⟨hq.grows.trans hr.1, hr.2⟩

end BestFit

/-- **The best fit respects the partners of parents.**  Run on any pairing, with any rules for
labels and any thresholds, the stage does not fail and keeps all pairs.  If the source of a new pair
has a parent, and this has a partner in the end, whether it had one from the beginning or not, then
the destination of the pair lies properly below that partner.

**Proof sketch.** `BestFit.returns_run` carries `RespectsParents` along pre-order, in which a node
comes before its children. -/
theorem best_fit_respects_partners_of_parents (src dst : Tree) (settings : Settings)
    (rules : LabelRules) (threads : Nat) (p : Pairing) :
    let task : Task := { src, dst, settings, rules, threads }
    let o := Stage.bestFit.perform task p
    let q := o.pairing
    o.fault = none ∧
      (∀ z ∈ p.pairs, z ∈ q.pairs) ∧
      ∀ z ∈ q.pairs, z ∉ p.pairs → ∀ u v, src.parent? z.src = some u → q.dst? u = some v →
        z.dst ∈ dst.descendants v := by
  intro task o q
  obtain ⟨hfault, hgrows, hrespects⟩ := (BestFit.returns_run task p).perform
  refine ⟨hfault, fun z hz => ?_, fun z hz hnew u v hu hv => ?_⟩
  · rw [Pairing.mem_pairs_iff] at hz ⊢
    exact hgrows.dst? hz
  · rw [Pairing.mem_pairs_iff] at hz hnew
    have hbelow := (hrespects z.src z.dst hz).resolve_left hnew
    exact Tree.mem_descendants_of_isDescendant (hbelow u v hu hv)

/-- The same leaf occurs in two blocks, and the block of the source tree is linked to the second
one.  The stage links the leaf, not to the first of the two but to the one below the partner of its
parent. -/
theorem repeated_leaf_follows_its_block :
    let src : Tree := .ofContents ⟨(⟨0⟩, "r"), .node (⟨1⟩, "s") (.leaf (⟨2⟩, "x")) .nil⟩
    let dst : Tree := .ofContents ⟨(⟨0⟩, "r"), .node (⟨1⟩, "d") (.leaf (⟨2⟩, "x"))
      (.node (⟨1⟩, "e") (.leaf (⟨2⟩, "x")) .nil)⟩
    let p := (Pairing.empty.insert 1 1).insert 2 4
    let q := (Stage.bestFit.perform { src, dst } p).pairing
    (⟨3, 5⟩ : Pair) ∈ q.pairs ∧ (⟨3, 5⟩ : Pair) ∉ p.pairs ∧ src.parent? 3 = some 2 ∧
      q.dst? 2 = some 4 ∧ 5 ∈ dst.descendants 4 := by
  intro src dst p q
  have hnew : (⟨3, 5⟩ : Pair) ∈ q.pairs ∧ (⟨3, 5⟩ : Pair) ∉ p.pairs := by decide +kernel
  have hparent : src.parent? 3 = some 2 ∧ q.dst? 2 = some 4 := by decide +kernel
  obtain ⟨-, -, hbelow⟩ := best_fit_respects_partners_of_parents src dst {} {} 1 p
  exact ⟨hnew.1, hnew.2, hparent.1, hparent.2,
    hbelow ⟨3, 5⟩ hnew.1 hnew.2 2 4 hparent.1 hparent.2⟩

end TreeMatching
