import TreeMatching.Proofs.ParentPartners

set_option autoImplicit false

/-!
# Equal leaves below linked parents

When the stage that looks for the best fit comes to a free leaf whose parent has a partner, it takes
any free leaf of the same content below that partner before it thinks of other labels.  So the leaf
is linked unless there is no such leaf left.  Nothing changes that later: links are not undone, and
settling leaves gives no parent a partner.

## Main definitions

* `BestFit.Served` — a leaf has a partner, or there is no equal one left below the partner of its
  parent.

## Main results

* `BestFit.exists_siblingLeaf?` — a leaf finds a partner where there is an equal one.
* `BestFit.returns_settleLeaf_served` — a leaf has been served after its turn.
* `BestFit.Served.settled` — it stays so when other leaves have theirs.
* `best_fit_leaves_no_equal_leaves_apart` — the stage.
-/

namespace TreeMatching

open Matching

/-- A leaf is nobody's parent. -/
lemma Tree.ne_of_parent?_of_isLeaf {t : Tree} {a c u : NodeId} (ha : t.isLeaf a = true)
    (hc : t.parent? c = some u) : a ≠ u := by
  rintro rfl
  have hchild := mem_children_iff.2 hc
  rw [children_eq_nil_of_isLeaf ha] at hchild
  cases hchild

namespace BestFit

variable {task : Task} {p q r : Pairing} {a b v : NodeId}

/-! ### One leaf -/

/-- **A leaf finds a partner below the partner of its parent** if there is a free leaf of the same
content.

**Proof sketch.** The leaf is among the siblings that are searched, and the second of the three
searches accepts it: leaves with the same content have the same subtree. -/
lemma exists_siblingLeaf? (hchild : b ∈ task.dst.children v) (hfree : p.src? b = none)
    (ha : task.src.isLeaf a = true) (hb : task.dst.isLeaf b = true)
    (hsame : task.src.sameContent task.dst a b = true) : ∃ c, siblingLeaf? task p a v = some c := by
  have hmem : b ∈ (task.dst.children v).filter fun b =>
      !p.hasDst b && task.dst.isLeaf b && task.src.sameKind task.dst a b := by
    rw [List.mem_filter, Bool.and_eq_true, Bool.and_eq_true, Pairing.not_hasDst_iff]
    exact ⟨hchild, ⟨hfree, hb⟩, (Bool.and_eq_true_iff.1 hsame).1⟩
  rw [← Option.ne_none_iff_exists']
  intro hnone
  simp only [siblingLeaf?, Option.orElse_eq_orElse, Option.orElse_eq_or,
    Option.or_eq_none_iff] at hnone
  -- the second search looks for the same subtree at any position
  exact List.find?_eq_none.1 hnone.2.1 b hmem (Tree.sameSubtree_of_isLeaf ha hb hsame)

/-- The leaf `a` has a partner, or there is no free leaf of its content below the partner of its
parent. -/
def Served (task : Task) (q : Pairing) (a : NodeId) : Prop :=
  q.dst? a = none → ∀ v, parentPartner? task q a = some v → ∀ b ∈ task.dst.children v,
    task.dst.isLeaf b = true → task.src.sameContent task.dst a b = true → q.src? b ≠ none

/-- **After its turn a leaf has been served.**

**Proof sketch.** If the leaf is linked by its turn, it has been served.  If no partner is found for
it, although its parent has a partner, then no free leaf with its kind and label is among the
children there. -/
lemma returns_settleLeaf_served (task : Task) (p : Pairing) (a : NodeId) :
    Returns (settleLeaf task a) p fun _ q => task.src.isLeaf a = true → Served task q a := by
  refine returns_pairing_bind ?_
  split
  · next hcond =>
    rw [Bool.and_eq_true, Pairing.not_hasSrc_iff] at hcond
    have hlink : ∀ b, Fits task p a b →
        Returns (link a b) p fun _ q => task.src.isLeaf a = true → Served task q a := by
      intro b hfits
      refine returns_link hcond.1 hfits.suits.2.1 fun _ hnone => ?_
      rw [Pairing.dst?_insert, if_pos rfl] at hnone
      cases hnone
    dsimp only
    cases hparent : parentPartner? task p a with
    | none =>
      dsimp only
      split
      · next b hb => exact hlink b (fits_of_anyLeaf? hb)
      · refine returns_pure fun _ _ v hv => ?_
        rw [hparent] at hv
        cases hv
    | some w =>
      dsimp only
      split
      · next b hb => exact hlink b (fits_of_siblingLeaf? hparent hb)
      · next hnone =>
        refine returns_pure fun ha _ v hv b hchild hb hsame hfree => ?_
        obtain rfl : w = v := Option.some_inj.1 (hparent.symm.trans hv)
        obtain ⟨c, hc⟩ := exists_siblingLeaf? hchild hfree ha hb hsame
        exact hnone c hc
  · next hcond =>
    refine returns_pure fun ha hnone => absurd ?_ hcond
    rw [Bool.and_eq_true, Pairing.not_hasSrc_iff]
    exact ⟨hnone, ha⟩

/-! ### All leaves -/

/-- Settling a leaf gives no parent a partner. -/
lemma Settled.parentPartner?_eq (step : Settled task true a q r) (c : NodeId) :
    parentPartner? task r c = parentPartner? task q c := by
  cases step with
  | pass => rfl
  | link hleaf _ _ =>
    unfold parentPartner?
    cases hc : task.src.parent? c with
    | none => rfl
    | some u =>
      change Pairing.dst? _ u = q.dst? u
      rw [Pairing.dst?_insert, if_neg (Tree.ne_of_parent?_of_isLeaf hleaf hc)]

/-- **A leaf that has been served remains so** when another leaf is settled. -/
lemma Served.settled {c : NodeId} (h : Served task q c) (step : Settled task true a q r)
    (ha : a ∈ task.src.preOrder) : Served task r c := by
  have hgrows := step.grows ha
  intro hfree v hv b hchild hb hsame hnone
  rw [step.parentPartner?_eq] at hv
  exact h (hgrows.srcFree_before hfree) v hv b hchild hb hsame (hgrows.dstFree_before hnone)

/-- **All leaves have been served when the stage ends.**

**Proof sketch.** Induction along the second pass: the leaf whose turn it is gets served, and the
leaves before it remain so. -/
theorem returns_run_served (task : Task) (p : Pairing) :
    Returns (run task) p fun _ q => Grows task p q ∧
      ∀ a ∈ task.src.preOrder, task.src.isLeaf a = true → Served task q a := by
  refine (returns_inner task p).bind fun _ q hq => ?_
  refine returns_forM_prefix (I := fun done r => Grows task p r ∧
    ∀ a ∈ done, task.src.isLeaf a = true → Served task r a) ⟨hq.grows, by simp⟩ ?_
  intro done a rest r hsplit ⟨hgrows, hserved⟩
  have ha : a ∈ task.src.preOrder := by
    rw [hsplit]
    simp
  refine ((returns_settleLeaf task r a).and (returns_settleLeaf_served task r a)).mono ?_
  intro _ s ⟨hs, hnow⟩
  refine ⟨hgrows.trans (hs.grows ha), fun c hc hleaf => ?_⟩
  rcases List.mem_append.1 hc with hc | hc
  · exact (hserved c hc hleaf).settled hs ha
  · obtain rfl := List.mem_singleton.1 hc
    exact hnow hleaf

end BestFit

/-- **The best fit leaves no equal leaves apart.**  Run on any pairing, with any rules for labels
and any thresholds, the stage does not fail and keeps all pairs.  Afterwards no two linked nodes
have a free leaf each among their children such that the two leaves have the same kind and label.

**Proof sketch.** By `BestFit.returns_run_served` every free source leaf has been served on the
pairing that is left: among the children of the partner of its parent there is no free leaf with its
kind and label. -/
theorem best_fit_leaves_no_equal_leaves_apart (src dst : Tree) (settings : Settings)
    (rules : LabelRules) (threads : Nat) (p : Pairing) :
    let task : Task := { src, dst, settings, rules, threads }
    let o := Stage.bestFit.perform task p
    let q := o.pairing
    o.fault = none ∧
      (∀ z ∈ p.pairs, z ∈ q.pairs) ∧
      ∀ z ∈ q.pairs, ∀ a ∈ src.children z.src, ∀ b ∈ dst.children z.dst,
        src.isLeaf a = true → dst.isLeaf b = true → src.kind a = dst.kind b →
        src.label a = dst.label b → q.bothFree a b = false := by
  intro task o q
  obtain ⟨hfault, hgrows, hserved⟩ := (BestFit.returns_run_served task p).perform
  refine ⟨hfault, fun z hz => ?_, fun z hz a ha b hb hleaf hleaf' hkind hlabel => ?_⟩
  · rw [Pairing.mem_pairs_iff] at hz ⊢
    exact hgrows.dst? hz
  · have hnode := Tree.mem_preOrder_of_mem_children ha
    have hsame : src.sameContent dst a b = true := Bool.and_eq_true_iff.2
      ⟨Tree.sameKind_iff.2 ⟨hnode, Tree.mem_preOrder_of_mem_children hb, hkind⟩,
        beq_iff_eq.2 hlabel⟩
    have hpartner : BestFit.parentPartner? task q a = some z.dst := by
      rw [BestFit.parentPartner?, Tree.mem_children_iff.1 ha]
      exact Pairing.mem_pairs_iff.1 hz
    rw [Bool.eq_false_iff, Ne, Pairing.bothFree_iff]
    rintro ⟨hfree, hfree'⟩
    exact hserved a hnode hleaf hfree z.dst hpartner b hb hleaf' hsame hfree'

/-- Of three leaves the first and the last are called `x`, but the other tree has only one such
leaf.  The last one stays free; the only leaf that is equal to it has been linked to the first. -/
theorem last_leaf_stays_free_without_equal_one :
    let src : Tree := .ofContents ⟨(⟨0⟩, "r"),
      .node (⟨1⟩, "x") .nil (.node (⟨1⟩, "y") .nil (.leaf (⟨1⟩, "x")))⟩
    let dst : Tree := .ofContents ⟨(⟨0⟩, "r"),
      .node (⟨1⟩, "y") .nil (.node (⟨1⟩, "x") .nil (.leaf (⟨2⟩, "z")))⟩
    let q := (Stage.bestFit.perform { src, dst } (Pairing.empty.insert 1 1)).pairing
    q.pairs = [⟨1, 1⟩, ⟨2, 3⟩, ⟨3, 2⟩] ∧ 4 ∈ src.children 1 ∧ 3 ∈ dst.children 1 ∧
      src.isLeaf 4 = true ∧ dst.isLeaf 3 = true ∧ src.kind 4 = dst.kind 3 ∧
      src.label 4 = dst.label 3 ∧ q.bothFree 4 3 = false := by
  intro src dst q
  have hpairs : q.pairs = [⟨1, 1⟩, ⟨2, 3⟩, ⟨3, 2⟩] := by decide +kernel
  have hnodes : 4 ∈ src.children 1 ∧ 3 ∈ dst.children 1 ∧ src.isLeaf 4 = true ∧
      dst.isLeaf 3 = true ∧ src.kind 4 = dst.kind 3 ∧ src.label 4 = dst.label 3 := by
    decide +kernel
  obtain ⟨ha, hb, hleaf, hleaf', hkind, hlabel⟩ := hnodes
  obtain ⟨-, -, hnone⟩ := best_fit_leaves_no_equal_leaves_apart src dst {} {} 1
    (Pairing.empty.insert 1 1)
  have hlinked : (⟨1, 1⟩ : Pair) ∈ q.pairs := hpairs ▸ List.mem_cons_self ..
  exact ⟨hpairs, ha, hb, hleaf, hleaf', hkind, hlabel,
    hnone ⟨1, 1⟩ hlinked 4 ha 3 hb hleaf hleaf' hkind hlabel⟩

end TreeMatching
