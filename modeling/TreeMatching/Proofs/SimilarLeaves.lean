import TreeMatching.Proofs.GramAgreement
import TreeMatching.Proofs.GreedyChoice
import TreeMatching.Proofs.Growth

set_option autoImplicit false

/-!
# Similar leaves do not stay free

A scan of leaves finds all free leaves of one kind that are accepted, and a greedy choice among them
leaves no two of them free.  Since links are never undone, there is nothing to do for a second scan
by the same rule, whichever way it is carried out.

## Main definitions

* `FindsLeaves` — the candidates are the free leaves of one kind that are accepted.
* `LeavesChosen` — accepted leaves of one kind have been linked until none were left.
* `Leaves.Similar` — the labels of two leaves are similar enough.

## Main results

* `returns_chooseGreedily_leaves` — a greedy choice among accepted leaves.
* `LeavesChosen.eq_of_again` — a second choice changes nothing.
* `Leaves.run_of_mem` — the two ways to carry out the stage for leaves.
* `leaf_stage_leaves_no_similar_leaves` — the stage.
-/

namespace TreeMatching

open Matching

variable {task : Task} {accept : NodeId → NodeId → Prop} {p q r : Pairing}

/-! ### Choosing among free leaves -/

/-- The candidates are the pairs of free leaves of one kind that are accepted. -/
def FindsLeaves (task : Task) (accept : NodeId → NodeId → Prop) (p : Pairing)
    (found : List Candidate) : Prop :=
  ∀ a b, (∃ c ∈ found, c.src = a ∧ c.dst = b) ↔
    (a ∈ task.src.leaves ∧ p.dst? a = none) ∧ (b ∈ task.dst.leaves ∧ p.src? b = none) ∧
      task.src.sameKind task.dst a b = true ∧ accept a b

/-- Beginning with the pairing `p`, accepted leaves of one kind have been linked until no two of
them were free. -/
structure LeavesChosen (task : Task) (accept : NodeId → NodeId → Prop) (p q : Pairing) : Prop where
  grows : Grows task p q
  new : ∀ a b, q.dst? a = some b → p.dst? a = some b ∨
    (a ∈ task.src.leaves ∧ b ∈ task.dst.leaves ∧ task.src.sameKind task.dst a b = true ∧
      accept a b)
  usedUp : ∀ a b, task.src.isLeaf a = true → task.dst.isLeaf b = true →
    task.src.sameKind task.dst a b = true → q.dst? a = none → q.src? b = none → ¬accept a b

/-- **A greedy choice among free leaves uses up the pairs that are accepted**, and links nothing
else.

**Proof sketch.** Candidates are free leaves of one kind that are accepted, so all new links are of
this sort.  Free leaves that are accepted in the end were free before, hence a candidate, and the
greedy choice leaves no candidate with two free nodes. -/
theorem returns_chooseGreedily_leaves {found : List Candidate} (hp : p.OneToOne)
    (hfound : FindsLeaves task accept p found) :
    Returns (chooseGreedily found) p fun _ => LeavesChosen task accept p := by
  have hnodes : ∀ c ∈ found, c.src ∈ task.src.preOrder ∧ c.dst ∈ task.dst.preOrder ∧
      task.src.sameKind task.dst c.src c.dst = true := by
    intro c hc
    obtain ⟨⟨hs, -⟩, ⟨hd, -⟩, hk, -⟩ := (hfound c.src c.dst).1 ⟨c, hc, rfl, rfl⟩
    exact ⟨Tree.mem_preOrder_of_mem_leaves hs, Tree.mem_preOrder_of_mem_leaves hd, hk⟩
  have hgrows := onlyAdds_chooseGreedily hnodes p hp
  have hchoice := returns_chooseGreedily hp (Candidate.pairwise_sort found)
  refine (hgrows.and hchoice).mono fun _ q ⟨hq, hdone⟩ => ⟨hq, fun a b hab => ?_, ?_⟩
  · refine (hdone.new a b hab).imp_right ?_
    rintro ⟨c, hc, rfl, rfl, -⟩
    obtain ⟨⟨hs, -⟩, ⟨hd, -⟩, hk, haccept⟩ :=
      (hfound c.src c.dst).1 ⟨c, List.mem_mergeSort.1 hc, rfl, rfl⟩
    exact ⟨hs, hd, hk, haccept⟩
  · intro a b ha hb hk hs hd haccept
    obtain ⟨hsrc, hdst, -⟩ := Tree.sameKind_iff.1 hk
    obtain ⟨c, hc, rfl, rfl⟩ := (hfound a b).2
      ⟨⟨List.mem_filter.2 ⟨Tree.mem_postOrder_iff.2 hsrc, ha⟩, hq.srcFree_before hs⟩,
        ⟨List.mem_filter.2 ⟨Tree.mem_postOrder_iff.2 hdst, hb⟩, hq.dstFree_before hd⟩, hk, haccept⟩
    exact hdone.not_bothFree hp (List.mem_mergeSort.2 hc) ⟨hs, hd⟩

/-- **A second choice by the same rule changes nothing.** -/
lemma LeavesChosen.eq_of_again (first : LeavesChosen task accept p q)
    (second : LeavesChosen task accept q r) : r = q := by
  refine second.grows.eq_of_forall_old fun a b hab => ?_
  by_contra hnew
  obtain ⟨ha, hb, hk, haccept⟩ := (second.new a b hab).resolve_left hnew
  obtain ⟨hfree, -⟩ := (second.grows.old_or_new hab).resolve_left hnew
  obtain ⟨hs, hd⟩ := Pairing.bothFree_iff.1 hfree
  exact first.usedUp a b (List.mem_filter.1 ha).2 (List.mem_filter.1 hb).2 hk hs hd haccept

/-! ### The stage for leaves -/

namespace Leaves

/-- The labels of the two leaves are similar enough. -/
def Similar (task : Task) (a b : NodeId) : Prop :=
  task.settings.leafThreshold < measure (task.src.label a) (task.dst.label b)

/-- The candidates are the free leaves of one kind with similar labels. -/
lemma findsLeaves_plain (task : Task) (p : Pairing) :
    FindsLeaves task (Similar task) p (plain measure task p) := by
  intro a b
  refine (exists_mem_pairs_iff
    (f := fun a b => task.src.sameKind task.dst a b &&
      decide (task.settings.leafThreshold < measure (task.src.label a) (task.dst.label b)))
    (g := fun a b => .ofFloat (measure (task.src.label a) (task.dst.label b)))).trans ?_
  rw [List.mem_filter, List.mem_filter, Pairing.not_hasSrc_iff, Pairing.not_hasDst_iff,
    Bool.and_eq_true, decide_eq_true_eq]
  rfl

/-- In one go or in parts, the stage is a greedy choice among what the plain double loop finds. -/
lemma run_of_mem {stage : Stage} (hstage : stage ∈ [Stage.leaves, Stage.leavesSharded])
    (hread : ∀ a, task.readLabel a = .ok (task.src.label a)) :
    stage.run task = (do chooseGreedily (plain measure task (← pairing))) := by
  simp only [List.mem_cons, List.not_mem_nil, or_false] at hstage
  rcases hstage with rfl | rfl
  · exact run_eq task
  · exact (runSharded_eq_run hread).trans (run_eq task)

/-- **The stage uses up the similar leaves**, whichever way it is carried out. -/
theorem returns_of_mem {stage : Stage} (hstage : stage ∈ [Stage.leaves, Stage.leavesSharded])
    (hread : ∀ a, task.readLabel a = .ok (task.src.label a)) (hp : p.OneToOne) :
    Returns (stage.run task) p fun _ => LeavesChosen task (Similar task) p := by
  rw [run_of_mem hstage hread]
  exact returns_pairing_bind (returns_chooseGreedily_leaves hp (findsLeaves_plain task p))

end Leaves

/-- **The stage for leaves leaves no similar ones.**  Run on any one-to-one pairing, in one go or in
parts, it does not fail and keeps all pairs.  Whatever it adds joins two leaves of one kind, with
labels whose similarity by trigrams is above the threshold; and afterwards there are no two free
leaves like that.  So another run, in one go or in parts, changes nothing.

**Proof sketch.** In one go or in parts, the stage is a greedy choice among the free leaves with
similar labels, by `Leaves.returns_of_mem`.  It uses up all of them, so that another run has nothing
to choose from. -/
theorem leaf_stage_leaves_no_similar_leaves (src dst : Tree) (settings : Settings)
    (rules : LabelRules) (threads : Nat) (p : Pairing) (hone : p.isOneToOne = true) :
    let task : Task := { src, dst, settings, rules, threads }
    let similarity := fun a b => GramMeasure.trigrams.similarity (src.label a) (dst.label b)
    ∀ stage ∈ [Stage.leaves, Stage.leavesSharded],
      let o := stage.perform task p
      let q := o.pairing
      o.fault = none ∧
      (∀ z ∈ p.pairs, z ∈ q.pairs) ∧
      (∀ z ∈ q.pairs, z ∉ p.pairs → z.src ∈ src.leaves ∧ z.dst ∈ dst.leaves ∧
        src.kind z.src = dst.kind z.dst ∧ settings.leafThreshold < similarity z.src z.dst) ∧
      (∀ a ∈ src.leaves, ∀ b ∈ dst.leaves, src.kind a = dst.kind b → q.bothFree a b = true →
        ¬settings.leafThreshold < similarity a b) ∧
      ∀ again ∈ [Stage.leaves, Stage.leavesSharded],
        (again.perform task q).fault = none ∧ (again.perform task q).pairing = q := by
  intro task similarity stage hstage o q
  have hp : p.OneToOne := Pairing.isOneToOne_iff.1 hone
  have hread : ∀ a, task.readLabel a = .ok (task.src.label a) := fun _ => rfl
  obtain ⟨hfault, hq⟩ := (Leaves.returns_of_mem hstage hread hp).perform
  refine ⟨hfault, fun z hz => ?_, fun z hz hnew => ?_, fun a ha b hb hkind hfree => ?_,
    fun again hagain => ?_⟩
  · rw [Pairing.mem_pairs_iff] at hz ⊢
    exact hq.grows.dst? hz
  · rw [Pairing.mem_pairs_iff] at hz hnew
    obtain ⟨hs, hd, hk, hsimilar⟩ := (hq.new z.src z.dst hz).resolve_left hnew
    exact ⟨hs, hd, (Tree.sameKind_iff.1 hk).2.2, hsimilar⟩
  · obtain ⟨hs, hd⟩ := Pairing.bothFree_iff.1 hfree
    have hk := Tree.sameKind_iff.2
      ⟨Tree.mem_preOrder_of_mem_leaves ha, Tree.mem_preOrder_of_mem_leaves hb, hkind⟩
    exact hq.usedUp a b (List.mem_filter.1 ha).2 (List.mem_filter.1 hb).2 hk hs hd
  · obtain ⟨hfault', hq'⟩ := (Leaves.returns_of_mem hagain hread (hq.grows.oneToOne hp)).perform
    exact ⟨hfault', hq.eq_of_again hq'⟩

/-- Three leaves against four of which one is linked, in three parts.  The linked leaf keeps its
partner.  The leaves that are called `beta` are equal, so one of them is linked in the end.  Those
that are called `gamma` and `delta` are the only ones of their kind, but they are not similar: both
stay free.  No further run, in parts or not, changes that. -/
theorem beta_is_linked_and_gamma_stays_free :
    let src : Tree := .ofContents ⟨(⟨0⟩, ""), .node (⟨1⟩, "alpha") .nil
      (.node (⟨1⟩, "beta") .nil (.leaf (⟨2⟩, "gamma")))⟩
    let dst : Tree := .ofContents ⟨(⟨0⟩, ""), .node (⟨1⟩, "betas") .nil
      (.node (⟨2⟩, "delta") .nil (.node (⟨1⟩, "beta") .nil (.leaf (⟨1⟩, "alphas"))))⟩
    let task : Task := { src, dst, threads := 3 }
    let p := Pairing.empty.insert 2 5
    let o := Stage.leavesSharded.perform task p
    p.isOneToOne = true ∧ o.fault = none ∧ (⟨2, 5⟩ : Pair) ∈ o.pairing.pairs ∧
      o.pairing.bothFree 3 4 = false ∧
      (o.pairing.dst? 4 = none ∧ ∀ z ∈ o.pairing.pairs, z.dst ≠ 3) ∧
      (Stage.leavesSharded.perform task o.pairing).pairing = o.pairing ∧
      (Stage.leaves.perform task o.pairing).pairing = o.pairing := by
  intro src dst task p o
  have hone : p.isOneToOne = true := by decide +kernel
  obtain ⟨hfault, hkept, hnew, hfree, hagain⟩ := leaf_stage_leaves_no_similar_leaves src dst
    {} {} 3 p hone .leavesSharded (by simp)
  have hequal : task.settings.leafThreshold < GramMeasure.trigrams.similarity "beta" "beta" := by
    decide +kernel
  have hfar : ¬task.settings.leafThreshold < GramMeasure.trigrams.similarity "gamma" "delta" := by
    rw [GramMeasure.similarity, if_neg (by decide), GramMeasure.agreement_eq]
    decide +kernel
  have hlone : ∀ a ∈ src.leaves, ∀ b ∈ dst.leaves, src.kind a = dst.kind b →
      (a = 4 ↔ b = 3) := by decide +kernel
  have hbefore : ∀ z ∈ p.pairs, z.src ≠ 4 ∧ z.dst ≠ 3 := by decide +kernel
  -- A new pair with one of the two leaves would join the two, and they are not similar.
  have hapart : ∀ z ∈ o.pairing.pairs, z.src ≠ 4 ∧ z.dst ≠ 3 := by
    intro z hz
    by_cases hold : z ∈ p.pairs
    · exact hbefore z hold
    · obtain ⟨hs, hd, hkind, hsimilar⟩ := hnew z hz hold
      have hboth := hlone z.src hs z.dst hd hkind
      have hjoined : z.src = 4 → z.dst = 3 → False := by
        intro hsrc hdst
        rw [hsrc, hdst] at hsimilar
        exact hfar hsimilar
      exact ⟨fun hsrc => hjoined hsrc (hboth.1 hsrc), fun hdst => hjoined (hboth.2 hdst) hdst⟩
  have hbeta : o.pairing.bothFree 3 4 = false := by
    by_contra hboth
    exact hfree 3 (by decide +kernel) 4 (by decide +kernel) (by decide +kernel)
      (Bool.eq_true_of_not_eq_false hboth) hequal
  have hgamma : o.pairing.dst? 4 = none :=
    Option.eq_none_iff_forall_ne_some.2 fun d hd =>
      (hapart ⟨4, d⟩ (Pairing.mem_pairs_iff.2 hd)).1 rfl
  exact ⟨hone, hfault, hkept ⟨2, 5⟩ (by decide +kernel), hbeta,
    ⟨hgamma, fun z hz => (hapart z hz).2⟩, (hagain .leavesSharded (by simp)).2,
    (hagain .leaves (by simp)).2⟩

end TreeMatching
