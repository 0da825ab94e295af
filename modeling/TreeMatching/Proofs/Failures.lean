import TreeMatching.Proofs.PlanRuns

set_option autoImplicit false

/-!
# When plans fail

A stage may refuse to work: the trees are too large for an edit script, or a part of a scan of
leaves breaks down.  It then does so before it changes anything, and nothing else can go wrong.  So
a plan that fails leaves exactly what the stages before the failing one have made of the pairing.

## Main results

* `Stage.fault_leastEdit_iff`, `Stage.fault_leavesSharded_iff`, `Stage.fault_labelAware_iff`,
  `Stage.fault_eq_none` — exactly when the single stages fail.
* `Plan.run_cases` — a plan succeeds, or one of its stages refuses to work.
* `failing_plan_keeps_what_earlier_stages_made` — the two together.
-/

namespace TreeMatching

open Matching

variable {task : Task} {p : Pairing}

/-! ### Single stages -/

/-- A computation that refuses to work fails with that fault and with no other. -/
lemma Matching.Refuses.fault_eq_some_iff {x : Matching Unit} {fault fault' : Fault}
    (h : Refuses x p fault) : (x.perform p).fault = some fault' ↔ fault' = fault := by
  rw [h.perform.1, Option.some.injEq, eq_comm]

/-- A computation that returns does not fail. -/
lemma Matching.Returns.fault_ne_some {x : Matching Unit} {Q : Unit → Pairing → Prop}
    (h : Returns x p Q) (fault : Fault) : (x.perform p).fault ≠ some fault := by
  rw [h.perform.1]
  exact nofun

/-- A computation that refuses to work where a search fails, and returns where the search succeeds,
fails exactly where the search does. -/
lemma fault_eq_some_iff_of_search {γ : Type} {x : Matching Unit} {found? : Except Fault γ}
    {Q : Unit → Pairing → Prop} {fault : Fault}
    (h : (∃ fault, found? = .error fault ∧ Refuses x p fault) ∨
      ((∃ found, found? = .ok found) ∧ Returns x p Q)) :
    (x.perform p).fault = some fault ↔ found? = .error fault := by
  rcases h with ⟨fault', rfl, h⟩ | ⟨⟨found, rfl⟩, h⟩
  · rw [h.fault_eq_some_iff, Except.error.injEq, eq_comm]
  · simp [h.fault_ne_some]

namespace Stage

/-- Linking by an edit script fails exactly if the trees are too large. -/
lemma fault_leastEdit_iff (hp : p.Joins task.src task.dst) {fault : Fault} :
    (leastEdit.perform task p).fault = some fault ↔
      task.settings.cellLimit < task.src.count * task.dst.count ∧
        fault = .setting (.tooLarge task.src.count task.dst.count task.settings.cellLimit) := by
  rcases LeastEdit.run_spec task hp.oneToOne with ⟨hlimit, h⟩ | ⟨hlimit, h⟩
  · simp only [hlimit, true_and]
    exact h.fault_eq_some_iff
  · simp only [hlimit.not_gt, false_and, iff_false]
    exact h.fault_ne_some fault

/-- Linking leaves in parts fails exactly if a part breaks down. -/
lemma fault_leavesSharded_iff (hp : p.Joins task.src task.dst) {fault : Fault} :
    (leavesSharded.perform task p).fault = some fault ↔
      ∃ k note, fault = .worker k note ∧ (Leaves.scan Leaves.measure task p).BreaksDownAt
        task.readLabel task.shardCount k note := by
  rw [← LeafScan.sharded_eq_error_iff]
  exact fault_eq_some_iff_of_search (Leaves.runSharded_spec task hp.oneToOne)

/-- Linking nodes by the meaning of their labels fails exactly if a part of the scan of leaves
breaks down. -/
lemma fault_labelAware_iff (hp : p.Joins task.src task.dst) {fault : Fault} :
    (labelAware.perform task p).fault = some fault ↔
      ∃ k note, fault = .worker k note ∧
        (LabelAware.scan (LabelAware.comparer task) task p).BreaksDownAt task.readLabel
          task.shardCount k note := by
  rw [← LeafScan.sharded_eq_error_iff]
  exact fault_eq_some_iff_of_search (LabelAware.run_spec task hp.oneToOne)

/-- All other stages always succeed. -/
lemma fault_eq_none (hp : p.Joins task.src task.dst) {stage : Stage} (hedit : stage ≠ leastEdit)
    (hleaves : stage ≠ leavesSharded) (hlabels : stage ≠ labelAware) :
    (stage.perform task p).fault = none := by
  rcases stage.run_spec hp with ⟨fault, hrefusal, -⟩ | h
  · cases hrefusal with
    | tooLarge => exact absurd rfl hedit
    | leaves => exact absurd rfl hleaves
    | labels => exact absurd rfl hlabels
  · exact h.perform.1

end Stage

/-! ### Plans -/

namespace Plan

/-- **A plan succeeds, or one of its stages refuses to work.**  In the second case the run ends with
the progress that the stages before have made.

**Proof sketch.** Induction on the plan.  If the first stage refuses to work, no stage came before
it.  If it returns, the rest of the plan runs on what it leaves, and the stages before the failing
one are the first stage and those found for the rest. -/
theorem run_cases (plan : Plan) (n : Nat) (hp : p.Joins task.src task.dst) :
    (∃ s, (plan.run task).run ⟨p, n⟩ = .ok () s) ∨
      ∃ k stage s fault, plan[k]? = some stage ∧
        (Plan.run (plan.take k) task).run ⟨p, n⟩ = .ok () s ∧
        Refuses (stage.run task) s.pairing fault ∧
        (plan.run task).run ⟨p, n⟩ = .error fault s := by
  induction plan generalizing p n with
  | nil => exact .inl ⟨⟨p, n⟩, rfl⟩
  | cons stage plan ih =>
    have hcons : ∀ plan : Plan, Plan.run (stage :: plan) task =
        (stage.run task >>= fun _ => Plan.run plan task) := fun _ => rfl
    rcases stage.run_spec hp with ⟨fault, -, h⟩ | h
    · refine .inr ⟨0, stage, ⟨p, n⟩, fault, rfl, rfl, h, ?_⟩
      rw [hcons, EStateM.run_bind, h n]
    · obtain ⟨_, q, m, hrun, hq⟩ := h n
      simp only [hcons, EStateM.run_bind, hrun]
      rcases ih m (hq.joins hp) with hok | ⟨k, stage', s, fault, hk, hbefore, hrefuses, herror⟩
      · exact .inl hok
      · refine .inr ⟨k + 1, stage', s, fault, hk, ?_, hrefuses, herror⟩
        rw [List.take_succ_cons, hcons, EStateM.run_bind, hrun]
        exact hbefore

end Plan

/-- **A plan that fails keeps what the earlier stages have made.**  Run on a one-to-one pairing of
nodes of two trees, a plan that fails does so at one of its stages: the stages before it succeed,
the stage fails on what they leave, and exactly that is left.  An edit script fails exactly if the
trees are too large for it; the two stages that scan leaves in parts fail exactly if a part breaks
down, and report the first one that does; all other stages always succeed.  A stage that fails has
not changed anything.

**Proof sketch.** A plan either succeeds or is stopped by the first stage that refuses to work, by
`Plan.run_cases`.  A stage that refuses leaves the pairing as it was, and for each stage the
refusals are known. -/
theorem failing_plan_keeps_what_earlier_stages_made (task : Task) (p : Pairing)
    (hone : p.isOneToOne = true)
    (hnodes : ∀ z ∈ p.pairs, z.src ∈ task.src.preOrder ∧ z.dst ∈ task.dst.preOrder) :
    (∀ (plan : Plan) (fault : Fault), (plan.perform task p).fault = some fault →
      ∃ k stage, plan[k]? = some stage ∧
        (Plan.perform (plan.take k) task p).fault = none ∧
        (stage.perform task (Plan.perform (plan.take k) task p).pairing).fault = some fault ∧
        (plan.perform task p).pairing = (Plan.perform (plan.take k) task p).pairing) ∧
    (∀ (stage : Stage) (fault : Fault), (stage.perform task p).fault = some fault →
      (stage.perform task p).pairing = p) ∧
    (∀ fault, (Stage.leastEdit.perform task p).fault = some fault ↔
      task.settings.cellLimit < task.src.count * task.dst.count ∧
        fault = .setting (.tooLarge task.src.count task.dst.count task.settings.cellLimit)) ∧
    (∀ fault, (Stage.leavesSharded.perform task p).fault = some fault ↔
      ∃ k note, fault = .worker k note ∧ (Leaves.scan Leaves.measure task p).BreaksDownAt
        task.readLabel task.shardCount k note) ∧
    (∀ fault, (Stage.labelAware.perform task p).fault = some fault ↔
      ∃ k note, fault = .worker k note ∧
        (LabelAware.scan (LabelAware.comparer task) task p).BreaksDownAt task.readLabel
          task.shardCount k note) ∧
    ∀ stage : Stage, stage ≠ .leastEdit → stage ≠ .leavesSharded → stage ≠ .labelAware →
      (stage.perform task p).fault = none := by
  have hp : p.Joins task.src task.dst :=
    ⟨Pairing.isOneToOne_iff.1 hone, fun s d h => hnodes ⟨s, d⟩ (Pairing.mem_pairs_iff.2 h)⟩
  refine ⟨fun plan fault hfault => ?_, fun stage fault hfault => ?_,
    fun fault => Stage.fault_leastEdit_iff hp, fun fault => Stage.fault_leavesSharded_iff hp,
    fun fault => Stage.fault_labelAware_iff hp, fun stage => Stage.fault_eq_none hp⟩
  · rcases plan.run_cases 0 hp with ⟨s, hok⟩ | ⟨k, stage, s, fault', hk, hbefore, hrefuses, herror⟩
    · rw [Plan.perform, Matching.perform, hok] at hfault
      cases hfault
    · have hplan : plan.perform task p = ⟨s.pairing, s.evaluations, some fault'⟩ := by
        rw [Plan.perform, Matching.perform, herror]
      have htake : Plan.perform (plan.take k) task p = ⟨s.pairing, s.evaluations, none⟩ := by
        rw [Plan.perform, Matching.perform, hbefore]
      refine ⟨k, stage, hk, ?_⟩
      rw [hplan] at hfault ⊢
      rw [htake]
      exact ⟨rfl, hrefuses.perform.1.trans hfault, rfl⟩
  · rcases stage.run_spec hp with ⟨fault', -, h⟩ | h
    · exact h.perform.2
    · exact absurd hfault (h.fault_ne_some fault)

/-- Two trees of three nodes are too large for an edit script if the limit is eight cells: the plan
stops there, with the leaf that occurs in both trees linked, and the stage after it is not run. -/
theorem edit_script_too_large_after_identical_leaf :
    let src : Tree := .ofContents ⟨(⟨0⟩, "f"), .node (⟨1⟩, "x") .nil (.leaf (⟨1⟩, "y"))⟩
    let dst : Tree := .ofContents ⟨(⟨0⟩, "g"), .node (⟨1⟩, "z") .nil (.leaf (⟨1⟩, "x"))⟩
    let task : Task := { src, dst, settings := { cellLimit := 8 } }
    let plan : Plan := [.identical, .leastEdit, .leaves]
    let o := plan.perform task .empty
    Pairing.empty.isOneToOne = true ∧
      (∀ z ∈ Pairing.empty.pairs, z.src ∈ task.src.preOrder ∧ z.dst ∈ task.dst.preOrder) ∧
      o.pairing.pairs = [⟨2, 3⟩] ∧
      ∃ fault k stage, o.fault = some fault ∧ plan[k]? = some stage ∧
        (Plan.perform (plan.take k) task .empty).fault = none ∧
        (stage.perform task (Plan.perform (plan.take k) task .empty).pairing).fault = some fault ∧
        o.pairing = (Plan.perform (plan.take k) task .empty).pairing := by
  intro src dst task plan o
  have hone : Pairing.empty.isOneToOne = true := by decide +kernel
  have hnodes : ∀ z ∈ Pairing.empty.pairs,
      z.src ∈ task.src.preOrder ∧ z.dst ∈ task.dst.preOrder := nofun
  obtain ⟨fault, hfault⟩ : ∃ fault, o.fault = some fault :=
    Option.isSome_iff_exists.1 (by decide +kernel)
  obtain ⟨k, stage, h⟩ :=
    (failing_plan_keeps_what_earlier_stages_made task .empty hone hnodes).1 plan fault hfault
  exact ⟨hone, hnodes, by decide +kernel, fault, k, stage, hfault, h⟩

end TreeMatching
