import Mathlib.Order.Bounds.Defs
import Mathlib.Order.WellFounded
import TreeMatching.Proofs.Failures

set_option autoImplicit false

/-!
# Labels that cannot be read

The stages that scan leaves in parts read the label of a source leaf only if they have to: if some
destination leaf has the same kind.  If that fails, the part breaks down, and the first part that
does so is reported.  This module says which part that is, in terms of the leaves alone.

## Main definitions

* `failure?` — the failure of a computation, if it fails.
* `LeafScan.obstacle` — the failure to which a source leaf leads.
* `UnreadableLeaf` — a free source leaf whose label has to be read and cannot be read.
* `ReportsUnreadable` — what comes out if workers look at the free leaves.

## Main results

* `failure?_foldlM` — a loop fails at the first item that leads to a failure.
* `LeafScan.failure?_sweep` — a sweep fails at the first leaf that is an obstacle.
* `LeafScan.exists_breaksDownAt_iff` — the part that breaks down first is the least one with an
  obstacle in it.
* `unreadable_leaves_stop_first_part` — the two stages that scan leaves in parts.
-/

namespace TreeMatching

open Matching

/-! ### Loops that may fail -/

/-- The failure of a computation, if it fails. -/
def failure? {ε α : Type} : Except ε α → Option ε
  | .ok _ => none
  | .error e => some e

section Loops

variable {ε α β σ : Type}

/-- The failure of a result that is one. -/
lemma failure?_eq_some_iff {x : Except ε α} {e : ε} : failure? x = some e ↔ x = .error e := by
  cases x <;> simp [failure?]

/-- A result without a failure is a value. -/
lemma failure?_eq_none_iff {x : Except ε α} : failure? x = none ↔ ∃ a, x = .ok a := by
  cases x <;> simp [failure?]

/-- If the second of two steps cannot fail, only the first one matters. -/
lemma failure?_bind_of_ok {x : Except ε α} {f : α → Except ε β} (hf : ∀ a, failure? (f a) = none) :
    failure? (x >>= f) = failure? x := by
  cases x with
  | ok a => exact hf a
  | error e => rfl

/-- **A loop fails at the first item that leads to a failure**, if it depends on the item alone
whether it does. -/
lemma failure?_foldlM {f : σ → α → Except ε σ} {trouble : α → Option ε}
    (hf : ∀ s x, failure? (f s x) = trouble x) (items : List α) (s : σ) :
    failure? (items.foldlM f s) = items.findSome? trouble := by
  induction items generalizing s with
  | nil => rfl
  | cons x items ih =>
    rw [List.foldlM_cons, List.findSome?_cons, ← hf s x]
    cases f s x with
    | ok s' => exact ih s'
    | error e => rfl

end Loops

/-! ### Scans -/

namespace LeafScan

variable (scan : LeafScan) (read : NodeId → Except (Option String) String)

/-- The failure to which a source leaf leads: its label is read if a destination leaf has the same
kind, and only then. -/
def obstacle (a : NodeId) : Option (Option String) :=
  if scan.dstLeaves.any fun b => scan.src.sameKind scan.dst a b then failure? (read a) else none

variable {scan read}

/-- A leaf is an obstacle exactly if its label cannot be read and there is a leaf of its kind to
compare it with. -/
lemma obstacle_eq_some_iff {a : NodeId} {note : Option String} :
    scan.obstacle read a = some note ↔
      read a = .error note ∧ ∃ b ∈ scan.dstLeaves, scan.src.sameKind scan.dst a b = true := by
  rw [obstacle, Option.ite_none_right_eq_some, List.any_eq_true, failure?_eq_some_iff, and_comm]

/-- Looking at two leaves fails if they have the same kind and the label cannot be read. -/
lemma failure?_look (x y : NodeId × Nat) (seen : Sightings) :
    failure? (scan.look read x y seen) =
      if scan.src.sameKind scan.dst x.1 y.1 then failure? (read x.1) else none := by
  unfold look
  split
  · refine failure?_bind_of_ok fun label => ?_
    rcases scan.judge x.1 y.1 label seen.1 with ⟨_ | score, memo⟩ <;> rfl
  · rfl

/-- Looking at a source leaf and all destination leaves fails if the leaf is an obstacle.

**Proof sketch.** Looking at a pair fails if the kinds agree and the label of the source leaf cannot
be read.  So the row fails at the first destination leaf of its kind, if there is one, and the text
that is left is that of the source leaf, whichever it is. -/
lemma failure?_row (x : NodeId × Nat) (seen : Sightings) :
    failure? (scan.dstLeaves.zipIdx.foldlM (fun seen y => scan.look read x y seen) seen) =
      scan.obstacle read x.1 := by
  rw [failure?_foldlM (fun seen y => failure?_look x y seen), obstacle]
  split
  · next hany =>
    obtain ⟨b, hb, hkind⟩ := List.any_eq_true.1 hany
    obtain ⟨j, hj⟩ := List.mem_iff_getElem?.1 hb
    have hmem : (b, j) ∈ scan.dstLeaves.zipIdx := List.mk_mem_zipIdx_iff_getElem?.2 hj
    cases hread : failure? (read x.1) with
    | none => exact List.findSome?_eq_none_iff.2 fun y _ => ite_self none
    | some note =>
      have hsome : (scan.dstLeaves.zipIdx.findSome? fun y =>
          if scan.src.sameKind scan.dst x.1 y.1 then some note else none).isSome := by
        rw [List.findSome?_isSome_iff]
        exact ⟨(b, j), hmem, by simp [hkind]⟩
      obtain ⟨note', hnote⟩ := Option.isSome_iff_exists.1 hsome
      obtain ⟨y, -, hy⟩ := List.exists_of_findSome?_eq_some hnote
      rw [hnote, ← (Option.ite_none_right_eq_some.1 hy).2]
  · next hany =>
    refine List.findSome?_eq_none_iff.2 fun y hy => if_neg fun hkind => hany ?_
    exact List.any_eq_true.2 ⟨y.1, List.fst_mem_of_mem_zipIdx hy, hkind⟩

/-- **A sweep fails at the first leaf that is an obstacle.** -/
lemma failure?_sweep (xs : List (NodeId × Nat)) :
    failure? (scan.sweep read xs) = xs.findSome? fun x => scan.obstacle read x.1 := by
  unfold sweep
  rw [failure?_bind_of_ok fun _ => rfl]
  exact failure?_foldlM (fun seen x => failure?_row x seen) xs _

/-- A part takes the leaves whose places leave its number as remainder. -/
lemma mem_part_iff {w k : Nat} {x : NodeId × Nat} :
    x ∈ scan.part w k ↔ scan.srcLeaves[x.2]? = some x.1 ∧ x.2 % w = k := by
  rw [part, List.mem_filter, List.mem_zipIdx_iff_getElem?, beq_iff_eq]

/-- A part that breaks down leaves the text of the first obstacle in it.

**Proof sketch.** The part is gone through in order of places, so the first failure is that of the
obstacle with the least place. -/
lemma exists_first_of_sweep_part {w k : Nat} {note : Option String}
    (h : scan.sweep read (scan.part w k) = .error note) :
    ∃ i a, scan.srcLeaves[i]? = some a ∧ i % w = k ∧ scan.obstacle read a = some note ∧
      ∀ j b, scan.srcLeaves[j]? = some b → j % w = k → (scan.obstacle read b).isSome → i ≤ j := by
  rw [← failure?_eq_some_iff, failure?_sweep] at h
  obtain ⟨front, x, rest, hpart, hx, hfront⟩ := List.findSome?_eq_some_iff.1 h
  obtain ⟨hplace, hk⟩ := mem_part_iff.1 (show x ∈ scan.part w k by simp [hpart])
  refine ⟨x.2, x.1, hplace, hk, hx, fun j b hj hjk hb => ?_⟩
  have hsorted : (scan.part w k).Pairwise fun y z => y.2 < z.2 :=
    (pairwise_snd_zipIdx scan.srcLeaves).filter _
  have hmem : (b, j) ∈ scan.part w k := mem_part_iff.2 ⟨hj, hjk⟩
  rw [hpart, List.mem_append, List.mem_cons] at hmem
  rcases hmem with hmem | heq | hmem
  · rw [hfront _ hmem] at hb
    cases hb
  · rw [← heq]
  · rw [hpart, List.pairwise_append, List.pairwise_cons] at hsorted
    exact (hsorted.2.1.1 _ hmem).le

/-- A part breaks down exactly if there is an obstacle in it. -/
lemma exists_sweep_part_eq_error_iff {w k : Nat} :
    (∃ note, scan.sweep read (scan.part w k) = .error note) ↔
      ∃ i a, scan.srcLeaves[i]? = some a ∧ i % w = k ∧ (scan.obstacle read a).isSome := by
  constructor
  · rintro ⟨note, h⟩
    obtain ⟨i, a, hi, hk, ha, -⟩ := exists_first_of_sweep_part h
    exact ⟨i, a, hi, hk, Option.isSome_iff_exists.2 ⟨note, ha⟩⟩
  · rintro ⟨i, a, hi, hk, ha⟩
    simp only [← failure?_eq_some_iff, failure?_sweep, ← Option.isSome_iff_exists,
      List.findSome?_isSome_iff]
    exact ⟨(a, i), mem_part_iff.2 ⟨hi, hk⟩, ha⟩

/-- **The part that breaks down first is the least one with an obstacle in it.**

**Proof sketch.** A part breaks down exactly if it has an obstacle in it.  That all parts before
succeed then says that none of them has one, and this is what being the least means. -/
theorem exists_breaksDownAt_iff {w k : Nat} (hw : 1 ≤ w) :
    (∃ note, scan.BreaksDownAt read w k note) ↔
      IsLeast {k | ∃ i a, scan.srcLeaves[i]? = some a ∧ i % w = k ∧
        (scan.obstacle read a).isSome} k := by
  constructor
  · rintro ⟨note, -, hbreaks, hfirst⟩
    refine ⟨exists_sweep_part_eq_error_iff.1 ⟨note, hbreaks⟩, fun j hj => ?_⟩
    -- a smaller part with an obstacle would have broken down before
    by_contra hlt
    obtain ⟨found, hfound⟩ := hfirst j (Nat.lt_of_not_le hlt)
    obtain ⟨note', hnote⟩ := exists_sweep_part_eq_error_iff.2 hj
    rw [hfound] at hnote
    cases hnote
  · rintro ⟨hmem, hleast⟩
    obtain ⟨note, hbreaks⟩ := exists_sweep_part_eq_error_iff.2 hmem
    obtain ⟨i, a, -, rfl, -⟩ := hmem
    refine ⟨note, Nat.mod_lt i hw, hbreaks, fun j hj => ?_⟩
    rw [← failure?_eq_none_iff, Option.eq_none_iff_forall_ne_some]
    intro note' hnote
    have hle := hleast (exists_sweep_part_eq_error_iff.1 ⟨note', failure?_eq_some_iff.1 hnote⟩)
    omega

/-- A scan in parts fails exactly if there is an obstacle.

**Proof sketch.** If there is an obstacle, some part has one, and the least such part breaks down
first. -/
lemma exists_sharded_eq_error_iff {w : Nat} (hw : 1 ≤ w) :
    (∃ fault, scan.sharded read w = .error fault) ↔
      ∃ (i : Nat) (a : NodeId), scan.srcLeaves[i]? = some a ∧ (scan.obstacle read a).isSome := by
  simp only [sharded_eq_error_iff]
  constructor
  · rintro ⟨fault, k, note, -, hbreaks⟩
    obtain ⟨⟨i, a, hi, -, ha⟩, -⟩ := (exists_breaksDownAt_iff hw).1 ⟨note, hbreaks⟩
    exact ⟨i, a, hi, ha⟩
  · rintro ⟨i, a, hi, ha⟩
    obtain ⟨k, hk, hleast⟩ := wellFounded_lt.has_min
      {k | ∃ i a, scan.srcLeaves[i]? = some a ∧ i % w = k ∧ (scan.obstacle read a).isSome}
      ⟨i % w, i, a, hi, rfl, ha⟩
    obtain ⟨note, hbreaks⟩ :=
      (exists_breaksDownAt_iff hw).2 ⟨hk, fun j hj => Nat.le_of_not_lt (hleast j hj)⟩
    exact ⟨_, k, note, rfl, hbreaks⟩

end LeafScan

/-! ### The two stages -/

/-- Number `i` of the free source leaves, counted in post-order, is `a`; its label cannot be read,
but it has to be, because a free destination leaf has the same kind. -/
structure UnreadableLeaf (task : Task) (p : Pairing) (i : Nat) (a : NodeId) : Prop where
  place : (task.src.leaves.filter fun a => !p.hasSrc a)[i]? = some a
  unreadable : ∃ note, task.readLabel a = .error note
  needed : ∃ b ∈ task.dst.leaves, p.hasDst b = false ∧ task.src.kind a = task.dst.kind b

/-- What comes out if `w` workers look at the free leaves.  A worker fails exactly if there is an
unreadable leaf.  There is no other way to fail, and nothing has been changed then.  The part that
is reported is the least remainder of the places of the unreadable leaves, with the text that the
first of these leaves in that part has left. -/
structure ReportsUnreadable (task : Task) (p : Pairing) (w : Nat) (o : Outcome) : Prop where
  fails_iff : (∃ k note, o.fault = some (.worker k note)) ↔ ∃ i a, UnreadableLeaf task p i a
  report : ∀ fault, o.fault = some fault → o.pairing = p ∧
    ∃ k note, fault = .worker k note ∧
      IsLeast {k | ∃ i a, UnreadableLeaf task p i a ∧ i % w = k} k ∧
      ∃ i a, UnreadableLeaf task p i a ∧ i % w = k ∧ task.readLabel a = .error note ∧
        ∀ j b, UnreadableLeaf task p j b → j % w = k → i ≤ j

section Stages

variable {task : Task} {p : Pairing} {w : Nat}
  {judge : NodeId → NodeId → String → Memo → Option Score × Memo}

/-- The obstacles of a scan of the free leaves are the unreadable leaves. -/
lemma unreadableLeaf_iff {i : Nat} {a : NodeId} :
    UnreadableLeaf task p i a ↔
      (LeafScan.ofFree task.src task.dst p judge).srcLeaves[i]? = some a ∧
        ((LeafScan.ofFree task.src task.dst p judge).obstacle task.readLabel a).isSome := by
  simp only [Option.isSome_iff_exists, LeafScan.obstacle_eq_some_iff, exists_and_right]
  constructor
  · rintro ⟨hplace, hread, b, hb, hfree, hkind⟩
    refine ⟨hplace, hread, b, List.mem_filter.2 ⟨hb, by rw [hfree]; rfl⟩, ?_⟩
    have ha := Tree.mem_preOrder_of_mem_leaves (List.mem_filter.1 (List.mem_of_getElem? hplace)).1
    exact Tree.sameKind_iff.2 ⟨ha, Tree.mem_preOrder_of_mem_leaves hb, hkind⟩
  · rintro ⟨hplace, hread, b, hb, hkind⟩
    obtain ⟨hleaf, hfree⟩ := List.mem_filter.1 hb
    exact ⟨hplace, hread, b, hleaf, by simpa using hfree, (Tree.sameKind_iff.1 hkind).2.2⟩

/-- The outcome of a computation that scans the free leaves in parts, refuses to work if that fails,
and returns otherwise.

**Proof sketch.** The outcome fails exactly if the divided scan does, and the scan fails exactly if
there is an unreadable leaf.  The part that is reported is the least one with an obstacle, and its
text is that of the first obstacle in it.  A refusal leaves the pairing as it was. -/
lemma reportsUnreadable_perform {x : Matching Unit} {Q : Unit → Pairing → Prop} (hw : 1 ≤ w)
    (h : (∃ fault, (LeafScan.ofFree task.src task.dst p judge).sharded task.readLabel w =
        .error fault ∧ Refuses x p fault) ∨
      ((∃ found, (LeafScan.ofFree task.src task.dst p judge).sharded task.readLabel w =
        .ok found) ∧ Returns x p Q)) :
    ReportsUnreadable task p w (x.perform p) := by
  set scan := LeafScan.ofFree task.src task.dst p judge
  have hleaf {i : Nat} {a : NodeId} : UnreadableLeaf task p i a ↔
      scan.srcLeaves[i]? = some a ∧ (scan.obstacle task.readLabel a).isSome :=
    unreadableLeaf_iff
  have hsearch {fault : Fault} : (x.perform p).fault = some fault ↔
      scan.sharded task.readLabel w = .error fault :=
    fault_eq_some_iff_of_search h
  refine ⟨?_, fun fault hfault => ⟨?_, ?_⟩⟩
  · simp only [hsearch, hleaf]
    rw [← LeafScan.exists_sharded_eq_error_iff hw]
    constructor
    · rintro ⟨k, note, hfault⟩
      exact ⟨_, hfault⟩
    · rintro ⟨fault, hfault⟩
      obtain ⟨k, note, rfl, -⟩ := LeafScan.sharded_eq_error_iff.1 hfault
      exact ⟨k, note, hfault⟩
  · rcases h with ⟨_, _, hrefuses⟩ | ⟨-, hreturns⟩
    · exact hrefuses.perform.2
    · exact absurd hfault (hreturns.fault_ne_some fault)
  · obtain ⟨k, note, rfl, hbreaks⟩ := LeafScan.sharded_eq_error_iff.1 (hsearch.1 hfault)
    have hleast := ((LeafScan.exists_breaksDownAt_iff hw).1 ⟨note, hbreaks⟩).2
    obtain ⟨i, a, hi, hk, ha, hfirst⟩ := LeafScan.exists_first_of_sweep_part hbreaks.breaks
    have hstuck : UnreadableLeaf task p i a :=
      hleaf.2 ⟨hi, Option.isSome_iff_exists.2 ⟨note, ha⟩⟩
    refine ⟨k, note, rfl, ⟨⟨i, a, hstuck, hk⟩, ?_⟩, i, a, hstuck, hk,
      (LeafScan.obstacle_eq_some_iff.1 ha).1, fun j b hb hj => ?_⟩
    · rintro l ⟨j, b, hb, hj⟩
      exact hleast ⟨j, b, (hleaf.1 hb).1, hj, (hleaf.1 hb).2⟩
    · exact hfirst j b (hleaf.1 hb).1 hj (hleaf.1 hb).2

end Stages

/-- **Unreadable leaves stop the first part that meets one.**  Labels are read in any way that may
fail.  Carried out by `w` workers on a one-to-one pairing, both the divided stage for leaves and the
way in which the label-aware stage links its leaves report the least part with an unreadable leaf,
and they fail only then. -/
theorem unreadable_leaves_stop_first_part (task : Task) (p : Pairing)
    (hone : p.isOneToOne = true) {w : Nat} (hw : 1 ≤ w) :
    ReportsUnreadable task p w (Stage.leavesSharded.perform (task.withWorkers w) p) ∧
      ReportsUnreadable task p w ((LabelAware.linkLeaves (task.withWorkers w)).perform p) := by
  have hp := Pairing.isOneToOne_iff.1 hone
  have hshards := task.shardCount_withWorkers hw
  have hleaves := Leaves.runSharded_spec (task.withWorkers w) hp
  have hphase := LabelAware.linkLeaves_spec (task.withWorkers w) hp
  rw [Leaves.candidatesSharded, hshards] at hleaves
  rw [LabelAware.leavesFound, hshards] at hphase
  exact ⟨reportsUnreadable_perform hw hleaves, reportsUnreadable_perform hw hphase⟩

/-- Four free leaves are dealt out to three parts.  The label of the first cannot be read, but it is
of a kind of its own; neither can those of the second and of the last one, which belong to the parts
one and zero.  Part zero is reported, although the leaf of part one comes first. -/
theorem last_leaf_stops_part_zero :
    let src : Tree := .ofContents ⟨(⟨0⟩, "r"), .node (⟨1⟩, "a") .nil (.node (⟨2⟩, "b") .nil
      (.node (⟨1⟩, "c") .nil (.node (⟨1⟩, "d") .nil (.leaf (⟨1⟩, "e")))))⟩
    let dst : Tree := .ofContents ⟨(⟨0⟩, "r"), .node (⟨1⟩, "a") .nil (.leaf (⟨1⟩, "q"))⟩
    let task : Task :=
      { src, dst
        readLabel := fun id =>
          if id ∈ [3, 4, 6] then .error (some (src.label id)) else .ok (src.label id) }
    let p := Pairing.empty.insert 2 2
    p.isOneToOne = true ∧ 1 ≤ 3 ∧ UnreadableLeaf task p 1 4 ∧ UnreadableLeaf task p 3 6 ∧
      (∃ note, (Stage.leavesSharded.perform (task.withWorkers 3) p).fault =
        some (.worker 0 note)) ∧
      ∃ note, ((LabelAware.linkLeaves (task.withWorkers 3)).perform p).fault =
        some (.worker 0 note) := by
  intro src dst task p
  have hone : p.isOneToOne = true := by decide +kernel
  have hsecond : UnreadableLeaf task p 1 4 :=
    ⟨by decide +kernel, ⟨_, rfl⟩, 3, by decide +kernel, by decide +kernel, by decide +kernel⟩
  have hlast : UnreadableLeaf task p 3 6 :=
    ⟨by decide +kernel, ⟨_, rfl⟩, 3, by decide +kernel, by decide +kernel, by decide +kernel⟩
  -- the last leaf has place three, and no part comes before part zero
  have hzero {o : Outcome} (ho : ReportsUnreadable task p 3 o) :
      ∃ note, o.fault = some (.worker 0 note) := by
    obtain ⟨k, note, hfault⟩ := ho.fails_iff.2 ⟨3, 6, hlast⟩
    obtain ⟨-, k', note', heq, ⟨-, hleast⟩, -⟩ := ho.report _ hfault
    cases heq
    obtain rfl : k = 0 := Nat.le_zero.1 (hleast ⟨3, 6, hlast, rfl⟩)
    exact ⟨note, hfault⟩
  obtain ⟨hleaves, hphase⟩ :=
    unreadable_leaves_stop_first_part task p hone (show 1 ≤ 3 by decide)
  exact ⟨hone, by decide, hsecond, hlast, hzero hleaves, hzero hphase⟩

end TreeMatching
