import Mathlib.Logic.Relation
import TreeMatching.Proofs.OptimalScript

set_option autoImplicit false

/-!
# The search for an edit script, step by step

An edit script is found by two nested loops: problems are taken up one after the other, and the
table of each is walked through from its last cell to its first.  This module looks at every single
step of these loops.  Whatever the cost of relabelling, even if costs are told apart wrongly because
they differ by less than the error, the search comes to an end and never leaves the forests of the
problem it is dealing with.

## Main definitions

* `Script.Station` — where the search stands, between two problems or within one.
* `Script.Station.next?` — the step from there; there is none at the end.
* `Script.Reached` — the stations of the search.
* `Script.Station.Valid` — what is true at every station.
* `Script.BacktracksSafely` — the search ends, stays within its forests and finds an edit mapping.

## Main results

* `Script.Station.Valid.next?`, `Script.Reached.valid` — one step, and all steps.
* `Script.steps_walk`, `Script.exists_steps_resolve` — the steps of one walk, and of the whole
  search.
* `backtracking_stays_within_forests` — the search for an edit script is safe, from the left and
  from the right.
-/

namespace TreeMatching

namespace Script

/-! ### Stations -/

/-- Where the search for an edit script stands. -/
inductive Station (κ : Type) where
  /-- The next problem is about to be taken up. -/
  | between (trees : Grid κ) (found : Findings)
  /-- The table of the subtrees at `top` and `top'` is walked through, and the walk has come to the
  forests that end with the numbers `i` and `j`. -/
  | inside (trees table : Grid κ) (top top' i j : ℕ) (found : Findings)

section Steps

variable {κ : Type} [Cost κ] (a b : Numbering) (cost : κ)

/-- The next station.  Between two problems the last one put aside is taken up; within a problem one
move is made, until both forests are empty. -/
def Station.next? : Station κ → Option (Station κ)
  | .between trees found =>
    match found.pending with
    | [] => none
    | (i, j) :: pending =>
      let table := EditDistance.forestTable a b cost trees i j
      let trees := EditDistance.record a b table trees i j
      some (.inside trees table i j i j { found with pending })
  | .inside trees table top top' i j found =>
    if a.first top - 1 < i ∨ b.first top' - 1 < j then
      match move a b table top top' i j with
      | .delete => some (.inside trees table top top' (i - 1) j found)
      | .insert => some (.inside trees table top top' i (j - 1) found)
      | .align =>
        some (.inside trees table top top' (i - 1) (j - 1)
          { found with pairs := found.pairs.push ((a.node i).id, (b.node j).id) })
      | .putAside =>
        some (.inside trees table top top' (a.first i - 1) (b.first j - 1)
          { found with pending := (i, j) :: found.pending })
    else some (.between trees found)

/-- The search leads from the one station to the other. -/
def Steps : Station κ → Station κ → Prop :=
  Relation.ReflTransGen fun x y => x.next? a b cost = some y

/-- The search begins with the problem of the two trees; all distances of subtrees are known. -/
def Station.start : Station κ :=
  .between (EditDistance.solve a b cost (EditDistance.blank a b)) ⟨#[], [(a.size, b.size)]⟩

/-- The stations of the search. -/
def Reached (x : Station κ) : Prop := Steps a b cost (.start a b cost) x

variable {a b cost}

/-- **A walk through a table is made step by step**, and leads to the next problem.

**Proof sketch.** Induction along the walk: every move of the walk is one step. -/
theorem steps_walk (trees table : Grid κ) (top top' i j : ℕ) (found : Findings) :
    Steps a b cost (.inside trees table top top' i j found)
      (.between trees (walk a b table top top' i j found)) := by
  fun_induction walk a b table top top' i j found with
  | case1 i j found hne hm ih | case2 i j found hne hm ih | case3 i j found hne hm ih
  | case4 i j found hne hm ih =>
    refine .head ?_ ih
    simp only [Station.next?, if_pos hne, hm]
  | case5 i j found hne =>
    refine .single ?_
    simp only [Station.next?, if_neg hne]

/-- Taking up a problem and walking through its table. -/
lemma steps_problem (trees : Grid κ) (i j : ℕ) (pairs : Array (NodeId × NodeId))
    (pending : List (ℕ × ℕ)) :
    Steps a b cost (.between trees ⟨pairs, (i, j) :: pending⟩)
      (.between (EditDistance.record a b (EditDistance.forestTable a b cost trees i j) trees i j)
        (walk a b (EditDistance.forestTable a b cost trees i j) i j i j ⟨pairs, pending⟩)) :=
  .head rfl (steps_walk ..)

end Steps

variable {a b : Numbering} {cost : WithTop ℚ}

/-! ### What is true at every station -/

/-- What is true at every station: the tables are right, the problems are pairs of subtrees, and the
walk has not left the forests of its problem. -/
def Station.Valid (a b : Numbering) (cost : WithTop ℚ) : Station (WithTop ℚ) → Prop
  | .between trees found =>
    EditDistance.IsTreeTable a b cost trees ∧ ∀ q ∈ found.pending, a.InRange b q
  | .inside trees table top top' i j found =>
    (EditDistance.IsTreeTable a b cost trees ∧ ∀ q ∈ found.pending, a.InRange b q) ∧
      a.InRange b (top, top') ∧ EditDistance.IsForestTable a b cost top top' table ∧
      (a.first top ≤ i + 1 ∧ i ≤ top) ∧ b.first top' ≤ j + 1 ∧ j ≤ top'

/-- **One step keeps what is true.**

**Proof sketch.** A problem that is taken up gets a table that is right, because the distances of
smaller subtrees are.  A move explains the least cost of the two forests, and so it only takes away
nodes that are there. -/
theorem Station.Valid.next? (ha : a.Laminar) (hb : b.Laminar) {x y : Station (WithTop ℚ)}
    (hx : x.Valid a b cost) (hnext : x.next? a b cost = some y) : y.Valid a b cost := by
  cases x with
  | between trees found =>
    obtain ⟨pairs, pending⟩ := found
    obtain ⟨htrees, hpending⟩ := hx
    cases pending with
    | nil => cases hnext
    | cons q pending =>
      obtain ⟨hq, hpending⟩ := List.forall_mem_cons.1 hpending
      have htable := htrees.forestTable ha hb hq.1 hq.2
      have hi := a.first_le q.1
      have hj := b.first_le q.2
      cases hnext
      exact ⟨⟨htrees.record hq.1.2 hq.2.2 htable, hpending⟩, hq, htable, ⟨by omega, le_rfl⟩,
        by omega, le_rfl⟩
  | inside trees table top top' i j found =>
    obtain ⟨⟨htrees, hpending⟩, hq, htable, hi, hj⟩ := hx
    simp only [Station.next?] at hnext
    split at hnext
    · next hne =>
      have hmove := explains_move ha hb hq htable hi hj hne
      have hl := ha.first_pos top hq.1.1 hq.1.2
      have hl' := hb.first_pos top' hq.2.1 hq.2.2
      have hfi := a.first_le i
      have hfj := b.first_le j
      generalize move a b table top top' i j = m at hmove hnext
      cases hmove with
      | delete hli =>
        cases hnext
        exact ⟨⟨htrees, hpending⟩, hq, htable, by omega, hj⟩
      | insert hlj =>
        cases hnext
        exact ⟨⟨htrees, hpending⟩, hq, htable, hi, by omega⟩
      | align hli hlj =>
        cases hnext
        exact ⟨⟨htrees, hpending⟩, hq, htable, by omega, by omega⟩
      | putAside hli hlj =>
        cases hnext
        have hnew : a.InRange b (i, j) :=
          ⟨⟨by omega, hi.2.trans hq.1.2⟩, by omega, hj.2.trans hq.2.2⟩
        exact ⟨⟨htrees, List.forall_mem_cons.2 ⟨hnew, hpending⟩⟩, hq, htable, by omega, by omega⟩
    · cases hnext
      exact ⟨htrees, hpending⟩

/-- Nodes are aligned, and trees put aside, only if neither forest is empty. -/
lemma Explains.le_of_both {l l' i j : ℕ} {m : Move} (h : Explains a b cost l l' i j m)
    (hm : m = .align ∨ m = .putAside) : l ≤ i ∧ l' ≤ j := by
  have hfi := a.first_le i
  have hfj := b.first_le j
  cases h with
  | delete | insert => simp at hm
  | align hli hlj => exact ⟨hli ▸ hfi, hlj ▸ hfj⟩
  | putAside hli hlj => exact ⟨hli.trans hfi, hlj.trans hfj⟩

/-- A problem that is put aside lies within the one it comes from, and is smaller. -/
lemma Explains.burden_lt {top top' i j : ℕ}
    (h : Explains a b cost (a.first top) (b.first top') i j .putAside) (hi : i ≤ top)
    (hj : j ≤ top') : burden a b (i, j) < burden a b (top, top') ∧
      a.first top ≤ a.first i ∧ b.first top' ≤ b.first j := by
  have hfi := a.first_le i
  have hfj := b.first_le j
  cases h with
  | putAside hli hlj hpart =>
    refine ⟨?_, hli, hlj⟩
    simp only [burden]
    omega

/-- Going back starts with right distances and the problem of the two whole trees. -/
lemma Station.valid_start (ha : a.Laminar) (hb : b.Laminar) :
    (Station.start a b cost).Valid a b cost := by
  refine ⟨EditDistance.isTreeTable_solve ha hb, fun q hq => ?_⟩
  rw [List.mem_singleton.1 hq]
  exact ⟨⟨ha.pos, le_rfl⟩, hb.pos, le_rfl⟩

/-- **All stations of the search are valid.** -/
theorem Reached.valid (ha : a.Laminar) (hb : b.Laminar) {x : Station (WithTop ℚ)}
    (hx : Reached a b cost x) : x.Valid a b cost := by
  induction hx with
  | refl => exact Station.valid_start ha hb
  | tail _ hnext ih => exact ih.next? ha hb hnext

/-! ### The end of the search -/

/-- **The search comes to an end** with no problem left, and all its pairs are found by then.

**Proof sketch.** Induction on the limit, which bounds the size of all problems that are left.  A
problem is replaced by those that its walk puts aside, and these are together smaller. -/
theorem exists_steps_resolve (ha : a.Laminar) (hb : b.Laminar) {limit : ℕ}
    {trees : Grid (WithTop ℚ)} (htrees : EditDistance.IsTreeTable a b cost trees)
    (pairs : Array (NodeId × NodeId)) {pending : List (ℕ × ℕ)}
    (hpending : ∀ q ∈ pending, a.InRange b q) (hlimit : (pending.map (burden a b)).sum ≤ limit) :
    ∃ trees', Steps a b cost (.between trees ⟨pairs, pending⟩)
      (.between trees' ⟨resolve a b cost limit trees ⟨pairs, pending⟩, []⟩) := by
  induction limit generalizing trees pairs pending with
  | zero =>
    cases pending with
    | nil => exact ⟨trees, .refl⟩
    | cons q pending =>
      rw [List.map_cons, List.sum_cons, burden] at hlimit
      omega
  | succ limit ih =>
    cases pending with
    | nil => exact ⟨trees, .refl⟩
    | cons q pending =>
      obtain ⟨i, j⟩ := q
      obtain ⟨hq, hpending⟩ := List.forall_mem_cons.1 hpending
      have hfi := a.first_le i
      have hfj := b.first_le j
      have htable := htrees.forestTable ha hb hq.1 hq.2
      obtain ⟨found, parts, hsplits, hwalk⟩ := splits_walk (i := i) (j := j) ha hb hq htable
        ⟨by omega, le_rfl⟩ ⟨by omega, le_rfl⟩ ⟨pairs, pending⟩
      have hsmaller := hsplits.smaller
      rw [List.map_cons, List.sum_cons, burden] at hlimit
      dsimp only at hlimit
      have hparts : ∀ q ∈ parts ++ pending, a.InRange b q :=
        List.forall_mem_append.2 ⟨hsplits.inRange, hpending⟩
      obtain ⟨trees', hsteps⟩ := ih (htrees.record hq.1.2 hq.2.2 htable)
        (pairs ++ (found.map (a.nodesAt b)).toArray) hparts
        (by rw [List.map_append, List.sum_append]; omega)
      rw [← hwalk] at hsteps
      exact ⟨trees', (steps_problem trees i j pairs pending).trans hsteps⟩

/-! ### Safety -/

variable (a b) in
/-- The search for the edit script of two trees is safe. -/
structure BacktracksSafely (src dst : Tree) (cost : WithTop ℚ) : Prop where
  /-- The search comes to an end, with the pairs of the edit script. -/
  terminates : ∃ trees found, Reached a b cost (.between trees found) ∧
    (Station.between trees found).next? a b cost = none ∧
    found.pairs.toList = mapping a b cost
  /-- The walk through a table never leaves the forests of its problem. -/
  stays : ∀ trees table top top' i j found,
    Reached a b cost (.inside trees table top top' i j found) →
      (1 ≤ a.first top ∧ a.first top - 1 ≤ i ∧ i ≤ top) ∧
        1 ≤ b.first top' ∧ b.first top' - 1 ≤ j ∧ j ≤ top'
  /-- Nodes are aligned, and trees put aside, only if both forests have some left. -/
  nonempty : ∀ trees table top top' i j found,
    Reached a b cost (.inside trees table top top' i j found) →
      (a.first top - 1 < i ∨ b.first top' - 1 < j) →
      move a b table top top' i j = .align ∨ move a b table top top' i j = .putAside →
        a.first top - 1 < i ∧ b.first top' - 1 < j
  /-- A problem that is put aside lies within the one it comes from and is smaller, so it is not the
  same problem. -/
  smaller : ∀ trees table top top' i j found,
    Reached a b cost (.inside trees table top top' i j found) →
      (a.first top - 1 < i ∨ b.first top' - 1 < j) → move a b table top top' i j = .putAside →
        (i, j) ≠ (top, top') ∧ burden a b (i, j) < burden a b (top, top') ∧
          a.first top ≤ a.first i ∧ b.first top' ≤ b.first j
  /-- No pair is found twice. -/
  nodup : (mapping a b cost).Nodup
  /-- The pairs form an edit mapping. -/
  isEditMapping : IsEditMapping src dst (mapping a b cost).toFinset

/-- **The search for an edit script is safe**, whatever the cost of relabelling.

**Proof sketch.** Every station on the way is valid: its places lie in the range of the two
subtrees, and its table is the right one.  A move that is explained by a valid table does not leave
the range, and what it puts aside is smaller than the subtrees at hand. -/
theorem backtracksSafely {src dst : Tree} {mirrored : Bool} {place place' : Entry → Nat}
    (hA : a.Describes src mirrored place) (hB : b.Describes dst mirrored place')
    (cost : WithTop ℚ) : BacktracksSafely a b src dst cost := by
  have ha := hA.laminar
  have hb := hB.laminar
  obtain ⟨hnodup, hmapping⟩ := isEditMapping_mapping hA hB cost
  refine ⟨?_, fun trees table top top' i j found hx => ?_,
    fun trees table top top' i j found hx hne hm => ?_,
    fun trees table top top' i j found hx hne hm => ?_, hnodup, hmapping⟩
  · -- the two whole trees are within the limit, so the search comes to its end
    have hstart : (Station.start a b cost).Valid a b cost := Station.valid_start ha hb
    have hlimit : ([(a.size, b.size)].map (burden a b)).sum ≤ a.size + b.size := by
      rw [List.map_singleton, List.sum_singleton, burden, ha.root, hb.root]
      have := ha.pos
      have := hb.pos
      omega
    obtain ⟨trees, hsteps⟩ := exists_steps_resolve ha hb hstart.1 #[] hstart.2 hlimit
    exact ⟨trees, _, hsteps, rfl, rfl⟩
  · obtain ⟨-, hq, -, hi, hj⟩ := hx.valid ha hb
    have hl := ha.first_pos top hq.1.1 hq.1.2
    have hl' := hb.first_pos top' hq.2.1 hq.2.2
    omega
  · obtain ⟨-, hq, htable, hi, hj⟩ := hx.valid ha hb
    have hl := ha.first_pos top hq.1.1 hq.1.2
    have hl' := hb.first_pos top' hq.2.1 hq.2.2
    have hboth := (explains_move ha hb hq htable hi hj hne).le_of_both hm
    omega
  · obtain ⟨-, hq, htable, hi, hj⟩ := hx.valid ha hb
    obtain ⟨hlt, hfirst⟩ :=
      (hm ▸ explains_move ha hb hq htable hi hj hne).burden_lt hi.2 hj.2
    exact ⟨fun heq => hlt.ne (congrArg _ heq), hlt, hfirst⟩

end Script

/-- **Backtracking stays within the forests.**  Whatever the cost of relabelling, the search for the
edit script of two trees comes to an end.  On the way it never goes below the start of the forests
it is walking through, it aligns nodes and puts trees aside only where both forests have some left,
and it never puts aside the problem it is dealing with.  The pairs it returns form an edit mapping.
This holds for trees numbered from the left and for trees numbered from the right. -/
theorem backtracking_stays_within_forests (src dst : Tree) (r : ℚ) :
    Script.BacktracksSafely (.ofTree src.shape) (.ofTree dst.shape) src dst (r : WithTop ℚ) ∧
      Script.BacktracksSafely (.ofTree src.shape.flip) (.ofTree dst.shape.flip) src dst
        (r : WithTop ℚ) :=
  ⟨Script.backtracksSafely (Numbering.describes_ofTree src) (Numbering.describes_ofTree dst) r,
    Script.backtracksSafely (Numbering.describes_ofTree_flip src)
      (Numbering.describes_ofTree_flip dst) r⟩

end TreeMatching
