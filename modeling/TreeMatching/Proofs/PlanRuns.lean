import TreeMatching.Plan
import TreeMatching.Proofs.Repairs

set_option autoImplicit false

/-!
# Running plans

Whatever stages a plan consists of, and in whatever order, it keeps a pairing of two trees
one-to-one, and none of the links and unlinks it asks for is refused by the pairing.

## Main definitions

* `Stage.Refusal` — the faults with which a stage may refuse to work.
* `Stage.adding` — the stages that are no repairs.
* `Outcome.Sound` — what is true of a pairing and a fault after a run.

## Main results

* `Stage.run_spec` — a stage refuses to work and changes nothing, or it returns and the pairing
  evolves.
* `stage_without_repair_only_adds` — a stage that is no repair keeps all pairs and adds pairs of
  free nodes of the same kind.
* `Plan.sound_steps`, `Plan.sound_perform` — every step of a plan is sound, and so is the plan as a
  whole.
* `plan_keeps_pairing_one_to_one` — the same in terms of the pairing.
* `plan_keeps_pairs_of_same_kind` — plans never pair nodes of different kinds.
-/

namespace TreeMatching

open Matching

/-- The faults with which a stage may refuse to work: the trees are too large for an edit script,
or a part of a scan of leaves breaks down. -/
inductive Stage.Refusal (task : Task) : Stage → Fault → Prop
  | tooLarge (h : task.settings.cellLimit < task.src.count * task.dst.count) :
      Refusal task .leastEdit
        (.setting (.tooLarge task.src.count task.dst.count task.settings.cellLimit))
  | leaves (k : Nat) (note : Option String) : Refusal task .leavesSharded (.worker k note)
  | labels (k : Nat) (note : Option String) : Refusal task .labelAware (.worker k note)

variable {task : Task} {p q : Pairing}

/-- The stages that are no repairs. -/
def Stage.adding : List Stage :=
  [identical, topDown, bestFit, leaves, leavesSharded, firstFit, labelAware, leastEdit, realign]

/-- **A stage that is no repair refuses to work and changes nothing, or it returns and the pairing
grows.**

**Proof sketch.** Case distinction on the stage.  Only the divided search for leaves and the
numbering of large trees can refuse; these are the cases of `Stage.Refusal`. -/
theorem Stage.run_adding {stage : Stage} (hstage : stage ∈ adding) (hp : p.OneToOne) :
    (∃ fault, stage.Refusal task fault ∧ Refuses (stage.run task) p fault) ∨
      Returns (stage.run task) p fun _ => Grows task p := by
  cases stage with
  | identical => exact .inr (Identical.onlyAdds_run p hp)
  | topDown => exact .inr (TopDown.onlyAdds_run p hp)
  | bestFit => exact .inr (BestFit.onlyAdds_run p hp)
  | leaves => exact .inr (Leaves.onlyAdds_run p hp)
  | leavesSharded =>
    rcases Leaves.runSharded_spec task hp with ⟨fault, hfault, h⟩ | ⟨-, h⟩
    · obtain ⟨k, note, rfl, -⟩ := LeafScan.sharded_eq_error_iff.1 hfault
      exact .inl ⟨_, .leaves k note, h⟩
    · exact .inr h
  | firstFit => exact .inr (FirstFit.onlyAdds_run p hp)
  | labelAware =>
    rcases LabelAware.run_spec task hp with ⟨fault, hfault, h⟩ | ⟨-, h⟩
    · obtain ⟨k, note, rfl, -⟩ := LeafScan.sharded_eq_error_iff.1 hfault
      exact .inl ⟨_, .labels k note, h⟩
    · exact .inr h
  | leastEdit =>
    rcases LeastEdit.run_spec task hp with ⟨hlimit, h⟩ | ⟨-, h⟩
    · exact .inl ⟨_, .tooLarge hlimit, h⟩
    · exact .inr h
  | realign => exact .inr (Realign.onlyAdds_run p hp)
  | repair | orphanLeaves | parentVote | leafMoves => exact absurd hstage (by decide)

/-- **A stage refuses to work and changes nothing, or it returns and the pairing evolves.**

**Proof sketch.** A stage that is no repair is dealt with by `Stage.run_adding`; the repairs always
return. -/
theorem Stage.run_spec (stage : Stage) (hp : p.Joins task.src task.dst) :
    (∃ fault, stage.Refusal task fault ∧ Refuses (stage.run task) p fault) ∨
      Returns (stage.run task) p fun _ => Evolves task p := by
  by_cases hstage : stage ∈ adding
  · exact (run_adding hstage hp.oneToOne).imp_right fun h => h.mono fun _ _ hq => hq.evolves
  · cases stage with
    | repair =>
      refine .inr ((OrphanLeaves.returns_run hp).bind fun _ q hq => ?_)
      refine (ParentVote.returns_run (hq.joins hp)).bind fun _ r hr => ?_
      exact (LeafMoves.returns_run (hr.joins (hq.joins hp))).mono fun _ _ h => (hq.trans hr).trans h
    | orphanLeaves => exact .inr (OrphanLeaves.returns_run hp)
    | parentVote => exact .inr (ParentVote.returns_run hp)
    | leafMoves => exact .inr (LeafMoves.returns_run hp)
    | _ => exact absurd (by decide) hstage

/-! ### Stages that are no repairs -/

/-- A stage that is no repair makes a one-to-one pairing grow, if it changes it at all. -/
lemma Stage.grows_perform {stage : Stage} (hstage : stage ∈ adding) (hp : p.OneToOne) :
    Grows task p (stage.perform task p).pairing := by
  rcases run_adding hstage hp with ⟨fault, -, h⟩ | h
  · rw [Stage.perform, h.perform.2]
    exact .refl
  · exact h.perform.2

/-- **Stages that are no repairs only add.**  Run on any one-to-one pairing, such a stage keeps
every pair, leaves a one-to-one pairing, and every pair it adds joins a node of the source tree with
a node of the destination tree, both of them free before and of the same kind.

**Proof sketch.** By `Stage.grows_perform` the pairing grows by links between free nodes of one
kind; what is not old is such a link. -/
theorem stage_without_repair_only_adds (task : Task) (stage : Stage)
    (hstage : stage ∈ Stage.adding) (p : Pairing) (hone : p.isOneToOne = true) :
    let q := (stage.perform task p).pairing
    q.isOneToOne = true ∧ (∀ z ∈ p.pairs, z ∈ q.pairs) ∧
      ∀ z ∈ q.pairs, z ∉ p.pairs →
        p.bothFree z.src z.dst = true ∧ z.src ∈ task.src.preOrder ∧ z.dst ∈ task.dst.preOrder ∧
          task.src.kind z.src = task.dst.kind z.dst := by
  intro q
  have hp : p.OneToOne := Pairing.isOneToOne_iff.1 hone
  have hgrows : Grows task p q := Stage.grows_perform hstage hp
  refine ⟨Pairing.isOneToOne_iff.2 (hgrows.oneToOne hp), fun z hz => ?_, fun z hz hnew => ?_⟩
  · exact Pairing.mem_pairs_iff.2 (hgrows.dst? (Pairing.mem_pairs_iff.1 hz))
  · rcases hgrows.old_or_new (Pairing.mem_pairs_iff.1 hz) with hold | ⟨hfree, hs, hd, hkind⟩
    · exact absurd (Pairing.mem_pairs_iff.2 hold) hnew
    · exact ⟨hfree, hs, hd, (Tree.sameKind_iff.1 hkind).2.2⟩

/-- The source root has a partner that is no node of the destination tree.  The leaf that occurs in
both trees is linked all the same, and no stage but a repair takes the root its partner. -/
theorem stages_without_repair_keep_stray_partner :
    let src : Tree := .ofContents ⟨(⟨0⟩, "f"), .node (⟨1⟩, "x") .nil (.leaf (⟨1⟩, "y"))⟩
    let dst : Tree := .ofContents ⟨(⟨0⟩, "g"), .node (⟨1⟩, "z") .nil (.leaf (⟨1⟩, "x"))⟩
    let task : Task := { src, dst }
    let p := Pairing.empty.insert 1 9
    p.isOneToOne = true ∧
      (Stage.identical.perform task p).pairing.pairs = [⟨1, 9⟩, ⟨2, 3⟩] ∧
      task.src.kind 2 = task.dst.kind 3 ∧
      ∀ stage ∈ Stage.adding, ⟨1, 9⟩ ∈ (stage.perform task p).pairing.pairs := by
  intro src dst task p
  have hone : p.isOneToOne = true := by decide +kernel
  have hold : ⟨1, 9⟩ ∈ p.pairs := by decide +kernel
  have hpairs : (Stage.identical.perform task p).pairing.pairs = [⟨1, 9⟩, ⟨2, 3⟩] := by
    decide +kernel
  have hnew := (stage_without_repair_only_adds task .identical (by decide) p hone).2.2 ⟨2, 3⟩
    (by rw [hpairs]; decide) (by decide +kernel)
  refine ⟨hone, hpairs, hnew.2.2.2, fun stage hstage => ?_⟩
  exact (stage_without_repair_only_adds task stage hstage p hone).2.1 ⟨1, 9⟩ hold

/-! ### Outcomes -/

/-- The pairing has evolved from `p`, and the fault, if there is one, is a refusal to work. -/
structure Outcome.Sound (task : Task) (p : Pairing) (o : Outcome) : Prop where
  evolves : Evolves task p o.pairing
  refusal : ∀ fault, o.fault = some fault → ∃ stage, Stage.Refusal task stage fault

/-- **The outcome of a stage is sound**, whether it returns or refuses to work.

**Proof sketch.** If the stage refuses to work, the pairing is the old one, and the fault is its
refusal.  If it returns there is no fault. -/
lemma Stage.sound_perform (stage : Stage) (hp : p.Joins task.src task.dst) :
    (stage.perform task p).Sound task p := by
  rcases stage.run_spec hp with ⟨fault, hrefusal, h⟩ | h
  · obtain ⟨hfault, hpairing⟩ := h.perform
    refine ⟨?_, fun fault' h' => ⟨stage, ?_⟩⟩
    · rw [Stage.perform, hpairing]
      exact .refl
    · rw [Stage.perform, hfault, Option.some.injEq] at h'
      exact h' ▸ hrefusal
  · obtain ⟨hfault, hevolves⟩ := h.perform
    refine ⟨hevolves, fun fault' h' => ?_⟩
    rw [Stage.perform, hfault] at h'
    cases h'

namespace Plan

/-- **Every step of a plan is sound.**

**Proof sketch.** Induction on the plan.  The first step is sound, and what it leaves joins the two
trees again, so that the others are sound as well. -/
theorem sound_steps (plan : Plan) (hp : p.Joins task.src task.dst) {x : Stage × Outcome}
    (hx : x ∈ plan.steps task p) : x.2.Sound task p := by
  induction plan generalizing p with
  | nil => cases hx
  | cons stage plan ih =>
    have hfirst := stage.sound_perform hp
    rw [steps, List.mem_cons] at hx
    rcases hx with rfl | hx
    · exact hfirst
    · split at hx
      · cases hx
      · have hrest := ih (hfirst.evolves.joins hp) hx
        exact ⟨hfirst.evolves.trans hrest.evolves, hrest.refusal⟩

/-- **A plan as a whole is sound.**

**Proof sketch.** Induction on the plan, for any number of evaluations made before: a stage that
refuses to work ends the run with the pairing as it is, and after a stage that returns the rest of
the plan is run on what it leaves. -/
theorem sound_perform (plan : Plan) (hp : p.Joins task.src task.dst) :
    (plan.perform task p).Sound task p := by
  have hrun : ∀ (plan : Plan) (p : Pairing) (n : Nat), p.Joins task.src task.dst →
      (∃ q m, (plan.run task).run ⟨p, n⟩ = .ok () ⟨q, m⟩ ∧ Evolves task p q) ∨
      ∃ fault q m, (plan.run task).run ⟨p, n⟩ = .error fault ⟨q, m⟩ ∧ Evolves task p q ∧
        ∃ stage, Stage.Refusal task stage fault := by
    intro plan
    induction plan with
    | nil => exact fun p n _ => .inl ⟨p, n, rfl, .refl⟩
    | cons stage plan ih =>
      intro p n hp
      have hcons : Plan.run (stage :: plan) task =
          (stage.run task >>= fun _ => Plan.run plan task) := rfl
      rw [hcons, EStateM.run_bind]
      rcases stage.run_spec hp with ⟨fault, hrefusal, h⟩ | h
      · rw [h n]
        exact .inr ⟨fault, p, n, rfl, .refl, stage, hrefusal⟩
      · obtain ⟨_, q, m, heq, hq⟩ := h n
        rw [heq]
        rcases ih q m (hq.joins hp) with ⟨r, k, heq', hr⟩ | ⟨fault, r, k, heq', hr, hrefusal⟩
        · exact .inl ⟨r, k, heq', hq.trans hr⟩
        · exact .inr ⟨fault, r, k, heq', hq.trans hr, hrefusal⟩
  rw [perform, Matching.perform]
  rcases hrun plan p 0 hp with ⟨q, m, heq, hq⟩ | ⟨fault, q, m, heq, hq, hrefusal⟩
  · rw [heq]
    exact ⟨hq, fun fault h => by cases h⟩
  · rw [heq]
    exact ⟨hq, fun fault' h => by cases h; exact hrefusal⟩

end Plan

/-- **Plans keep pairings one-to-one.**  Run on a one-to-one pairing of nodes of two trees, a plan
never asks for a link of which a node has a partner nor for the undoing of a link that is not there.
After each of its stages, and at its end, the pairing is one-to-one in both directions, its size is
the number of its pairs, and every pair joins a node of the source tree with a node of the
destination tree.

**Proof sketch.** By `Plan.sound_steps` and `Plan.sound_perform` every outcome evolves from the
given pairing by links between free nodes of the two trees and by undoing links, and its fault is
the refusal of a stage.  No refusal is a conflict. -/
theorem plan_keeps_pairing_one_to_one (task : Task) (plan : Plan) (p : Pairing)
    (hone : p.isOneToOne = true)
    (hnodes : ∀ z ∈ p.pairs, z.src ∈ task.src.preOrder ∧ z.dst ∈ task.dst.preOrder)
    (o : Outcome) (ho : o ∈ (plan.steps task p).map Prod.snd ∨ o = plan.perform task p) :
    (∀ s d, o.fault ≠ some (.conflict s d) ∧ o.fault ≠ some (.notLinked s d)) ∧
      o.pairing.isOneToOne = true ∧
      (∀ s d, o.pairing.dst? s = some d ↔ o.pairing.src? d = some s) ∧
      o.pairing.size = o.pairing.pairs.length ∧
      ∀ z ∈ o.pairing.pairs, z.src ∈ task.src.preOrder ∧ z.dst ∈ task.dst.preOrder := by
  have hp : p.Joins task.src task.dst :=
    ⟨Pairing.isOneToOne_iff.1 hone, fun s d h => hnodes ⟨s, d⟩ (Pairing.mem_pairs_iff.2 h)⟩
  have hsound : o.Sound task p := by
    rcases ho with ho | rfl
    · obtain ⟨x, hx, rfl⟩ := List.mem_map.1 ho
      exact Plan.sound_steps plan hp hx
    · exact Plan.sound_perform plan hp
  have hjoins := hsound.evolves.joins hp
  -- no stage refuses to work because of a conflict
  have hfault : ∀ fault, (∃ stage, Stage.Refusal task stage fault) →
      ∀ s d, fault ≠ .conflict s d ∧ fault ≠ .notLinked s d := by
    rintro fault ⟨stage, h⟩ s d
    cases h <;> exact ⟨nofun, nofun⟩
  refine ⟨fun s d => ⟨fun h => ?_, fun h => ?_⟩, Pairing.isOneToOne_iff.2 hjoins.oneToOne,
    hjoins.oneToOne, Pairing.length_pairs.symm, fun z hz => ?_⟩
  · exact (hfault _ (hsound.refusal _ h) s d).1 rfl
  · exact (hfault _ (hsound.refusal _ h) s d).2 rfl
  · exact hjoins.nodes _ _ (Pairing.mem_pairs_iff.1 hz)

/-- All thirteen stages, one after the other, on two small trees whose roots are linked crosswise to
leaves. -/
theorem all_stages_keep_crosswise_pairing_one_to_one :
    let src : Tree := .ofContents ⟨(⟨0⟩, "f"), .node (⟨0⟩, "x") .nil (.leaf (⟨1⟩, "y"))⟩
    let dst : Tree := .ofContents ⟨(⟨0⟩, "g"), .node (⟨1⟩, "y") .nil (.leaf (⟨0⟩, "x"))⟩
    let task : Task := { src, dst }
    let p := (Pairing.empty.insert 1 3).insert 2 1
    p.isOneToOne = true ∧
      (∀ z ∈ p.pairs, z.src ∈ task.src.preOrder ∧ z.dst ∈ task.dst.preOrder) ∧
      (Plan.perform Stage.all task p).pairing.isOneToOne = true ∧
      ∀ s d, (Plan.perform Stage.all task p).fault ≠ some (.conflict s d) := by
  intro src dst task p
  have hone : p.isOneToOne = true := by
    refine Pairing.isOneToOne_iff.2 ((Pairing.oneToOne_empty.insert rfl rfl).insert ?_ ?_)
    · rw [Pairing.dst?_insert]
      rfl
    · rw [Pairing.src?_insert]
      rfl
  have hnodes : ∀ z ∈ p.pairs, z.src ∈ task.src.preOrder ∧ z.dst ∈ task.dst.preOrder := by
    intro z hz
    rw [Pairing.mem_pairs_iff] at hz
    simp only [p, Pairing.dst?_insert] at hz
    rw [Tree.mem_preOrder_iff, Tree.mem_preOrder_iff]
    change (1 ≤ z.src ∧ z.src ≤ 3) ∧ 1 ≤ z.dst ∧ z.dst ≤ 3
    split at hz
    · next hs =>
      rw [← hs, ← Option.some.inj hz]
      decide
    · split at hz
      · next hs =>
        rw [← hs, ← Option.some.inj hz]
        decide
      · cases hz
  have h := plan_keeps_pairing_one_to_one task Stage.all p hone hnodes _ (.inr rfl)
  exact ⟨hone, hnodes, h.2.1, fun s d => (h.1 s d).1⟩

/-! ### Pairs of the same kind -/

/-- The single passes of a stage: the repair consists of three, all other stages are one. -/
def Stage.passes : Stage → Plan
  | repair => [orphanLeaves, parentVote, leafMoves]
  | stage => [stage]

/-- A stage carries out its passes one after the other. -/
lemma Stage.run_eq_forM_passes (stage : Stage) :
    stage.run task = stage.passes.forM fun pass => pass.run task := by
  have hone : ∀ x : Matching Unit, x = x >>= fun _ => pure () := fun x => (bind_pure x).symm
  cases stage with
  | repair =>
    change (OrphanLeaves.run task >>= fun _ => ParentVote.run task >>= fun _ => _) =
      OrphanLeaves.run task >>= fun _ => ParentVote.run task >>= fun _ => _
    rw [hone (LeafMoves.run task)]
    rfl
  | _ => exact hone _

/-- Running a plan pass by pass makes no difference. -/
lemma Plan.run_passes (plan : Plan) : Plan.run (plan.flatMap Stage.passes) task = plan.run task :=
  (forM_eq_forM_flatMap fun stage _ => stage.run_eq_forM_passes).symm

/-- **Plans pair nodes of the same kind.**  If all pairs of a one-to-one pairing of two trees join
nodes of the same kind, then so do all pairs after each stage of a plan, after each single pass of
its repairs, and at its end; a plan that is run pass by pass has the same outcome.

**Proof sketch.** Every outcome evolves from the given pairing, and what evolves keeps kinds equal.
A repair is the sequence of its passes, so that running the passes one by one is running the
plan. -/
theorem plan_keeps_pairs_of_same_kind (task : Task) (plan : Plan) (p : Pairing)
    (hone : p.isOneToOne = true)
    (hnodes : ∀ z ∈ p.pairs, z.src ∈ task.src.preOrder ∧ z.dst ∈ task.dst.preOrder)
    (hkinds : ∀ z ∈ p.pairs, task.src.kind z.src = task.dst.kind z.dst) :
    (∀ o : Outcome, o ∈ (plan.steps task p).map Prod.snd ∨
        o ∈ (Plan.steps task (plan.flatMap Stage.passes) p).map Prod.snd ∨
        o = plan.perform task p →
      ∀ z ∈ o.pairing.pairs, task.src.kind z.src = task.dst.kind z.dst) ∧
    Plan.perform (plan.flatMap Stage.passes) task p = plan.perform task p := by
  have hp : p.Joins task.src task.dst :=
    ⟨Pairing.isOneToOne_iff.1 hone, fun s d h => hnodes ⟨s, d⟩ (Pairing.mem_pairs_iff.2 h)⟩
  have hsame : p.SameKinds task := fun s d h => by
    obtain ⟨hs, hd⟩ := hp.nodes s d h
    exact Tree.sameKind_iff.2 ⟨hs, hd, hkinds ⟨s, d⟩ (Pairing.mem_pairs_iff.2 h)⟩
  have hsteps : ∀ (plan : Plan) (o : Outcome), o ∈ (plan.steps task p).map Prod.snd →
      o.Sound task p := by
    intro plan o ho
    obtain ⟨x, hx, rfl⟩ := List.mem_map.1 ho
    exact Plan.sound_steps plan hp hx
  refine ⟨fun o ho z hz => ?_, by rw [Plan.perform, Plan.run_passes]; rfl⟩
  have hsound : o.Sound task p := by
    rcases ho with ho | ho | rfl
    · exact hsteps plan o ho
    · exact hsteps _ o ho
    · exact Plan.sound_perform plan hp
  have hz' := hsound.evolves.sameKinds hsame z.src z.dst (Pairing.mem_pairs_iff.1 hz)
  exact (Tree.sameKind_iff.1 hz').2.2

/-- Two roots are linked, and below them two pairs of leaves with different labels: the second
source leaf looks like the first destination leaf.  Whatever the repairs make of that, the pairs
remain of the same kind. -/
theorem repairs_keep_relabelled_pairs_of_same_kind :
    let src : Tree := .ofContents ⟨(⟨0⟩, "f"), .node (⟨1⟩, "x") .nil (.leaf (⟨1⟩, "y"))⟩
    let dst : Tree := .ofContents ⟨(⟨0⟩, "g"), .node (⟨1⟩, "y") .nil (.leaf (⟨1⟩, "z"))⟩
    let task : Task := { src, dst }
    let p := ((Pairing.empty.insert 1 1).insert 2 2).insert 3 3
    p.isOneToOne = true ∧
      (∀ z ∈ p.pairs, z.src ∈ task.src.preOrder ∧ z.dst ∈ task.dst.preOrder) ∧
      (∀ z ∈ p.pairs, task.src.kind z.src = task.dst.kind z.dst) ∧
      ∀ z ∈ (Plan.perform [.repair, .realign, .leafMoves] task p).pairing.pairs,
        task.src.kind z.src = task.dst.kind z.dst := by
  intro src dst task p
  have hpairs : p.pairs = [⟨1, 1⟩, ⟨2, 2⟩, ⟨3, 3⟩] := by decide +kernel
  have hone : p.isOneToOne = true := by decide +kernel
  have hnodes : ∀ z ∈ p.pairs, z.src ∈ task.src.preOrder ∧ z.dst ∈ task.dst.preOrder := by
    rw [hpairs]
    decide +kernel
  have hkinds : ∀ z ∈ p.pairs, task.src.kind z.src = task.dst.kind z.dst := by
    rw [hpairs]
    decide +kernel
  exact ⟨hone, hnodes, hkinds,
    (plan_keeps_pairs_of_same_kind task _ p hone hnodes hkinds).1 _ (.inr (.inr rfl))⟩

end TreeMatching
