import TreeMatching.Proofs.LeafRounds
import TreeMatching.Proofs.PairingHistory

set_option autoImplicit false

/-!
# Links that are queued in a round of leaf moves

The links of a round of leaf moves are made together at its end.  Until then their nodes are kept
free, and no node is promised twice.  So the links can be made in any order, and they add up to the
same pairs.

## Main results

* `LeafMoves.Queued.perm` — whether links may be queued does not depend on their order.
* `LeafMoves.Queued.pairs_perm` — making the queued links adds them to the pairs.
* `queued_links_can_be_made_in_any_order` — at every moment of a round the queued links join free
  nodes, each of them once, and at its end they can be made in any order, with the same result.
-/

namespace TreeMatching

open Matching

namespace LeafMoves

variable {q r : Pairing} {queue order : List Pair}

/-- It does not matter in which order links are queued. -/
lemma Queued.perm (h : Queued q queue) (hperm : order.Perm queue) : Queued q order where
  free z hz := h.free z (hperm.subset hz)
  srcs := (hperm.map Pair.src).nodup_iff.2 h.srcs
  dsts := (hperm.map Pair.dst).nodup_iff.2 h.dsts

/-- **Making the queued links adds them to the pairs.** -/
lemma Queued.pairs_perm (h : Queued q queue)
    (hr : ∀ s d, r.dst? s = some d ↔ q.dst? s = some d ∨ ⟨s, d⟩ ∈ queue) :
    r.pairs.Perm (q.pairs ++ queue) := by
  rw [List.perm_ext_iff_of_nodup Pairing.nodup_pairs h.nodup_append]
  intro z
  rw [List.mem_append, Pairing.mem_pairs_iff, Pairing.mem_pairs_iff]
  exact hr z.src z.dst

/-- **The pairs do not depend on the order in which the queued links are made.**

**Proof sketch.** In any order the same links are added to those that are there.  A pairing lists
its pairs by their source nodes, so there is one list only. -/
lemma Queued.exists_pairs (h : Queued q queue) (hq : q.OneToOne) :
    ∃ made : List Pair, made.Perm (q.pairs ++ queue) ∧ ∀ order : List Pair, order.Perm queue →
      Returns (order.forM fun z => link z.src z.dst) q fun _ r => r.OneToOne ∧ r.pairs = made := by
  obtain ⟨-, r, -, -, -, hr⟩ := h.returns_forM_link hq 0
  refine ⟨r.pairs, h.pairs_perm hr, fun order hperm => ?_⟩
  refine ((h.perm hperm).returns_forM_link hq).mono fun _ r' hr' => ⟨hr'.1, ?_⟩
  refine Pairing.pairs_eq_of_mem_iff fun z => ?_
  rw [Pairing.mem_pairs_iff, Pairing.mem_pairs_iff, hr'.2, hr, hperm.mem_iff]

end LeafMoves

/-- **Queued links never conflict, in whatever order they are made.**  A round of leaf moves deals
with the pairs of a list, beginning with a one-to-one pairing.  Each time it has dealt with a pair,
the pairing is one-to-one, the nodes of all queued links are free, and no node occurs in two of
them.  At the end of the round all queued links can therefore be made, in any order, and the pairs
are the same afterwards; so the round does not fail.

**Proof sketch.** `LeafMoves.returns_queue` says that what is queued has free and distinct nodes,
however many pairs have been dealt with.  Links between free and distinct nodes can be made in any
order, and the list of pairs is sorted, so that it is the same. -/
theorem queued_links_can_be_made_in_any_order (task : Task) (anchor : LeafMoves.Anchor)
    (work : List Pair) (p : Pairing) (hone : p.isOneToOne = true) :
    (∀ k, Returns ((work.take k).foldlM (LeafMoves.reconsider task anchor) []) p fun queue q =>
      q.isOneToOne = true ∧ ((queue.map Pair.src).Nodup ∧ (queue.map Pair.dst).Nodup) ∧
        ∀ z ∈ queue, q.hasSrc z.src = false ∧ q.hasDst z.dst = false) ∧
    (Returns (work.foldlM (LeafMoves.reconsider task anchor) []) p fun queue q =>
      ∃ made : List Pair, made.Perm (q.pairs ++ queue) ∧ ∀ order : List Pair, order.Perm queue →
        Returns (order.forM fun z => link z.src z.dst) q fun _ r =>
          r.isOneToOne = true ∧ r.pairs = made) ∧
    Returns (LeafMoves.round task anchor work) p fun _ r => r.isOneToOne = true := by
  have hp := Pairing.isOneToOne_iff.1 hone
  refine ⟨fun k => ?_, ?_, ?_⟩
  · refine (LeafMoves.returns_queue hp).mono fun queue q h => ?_
    have hqueued := h.queued hp
    refine ⟨Pairing.isOneToOne_iff.2 (h.oneToOne hp), ⟨hqueued.srcs, hqueued.dsts⟩, fun z hz => ?_⟩
    obtain ⟨hs, hd⟩ := hqueued.free z hz
    rw [Pairing.hasSrc, Pairing.hasDst, hs, hd]
    exact ⟨rfl, rfl⟩
  · refine (LeafMoves.returns_queue hp).mono fun queue q h => ?_
    obtain ⟨made, hmade, horder⟩ := (h.queued hp).exists_pairs (h.oneToOne hp)
    refine ⟨made, hmade, fun order hperm => (horder order hperm).mono fun _ r hr => ?_⟩
    exact ⟨Pairing.isOneToOne_iff.2 hr.1, hr.2⟩
  · exact (LeafMoves.returns_round hp).mono fun _ r hr => Pairing.isOneToOne_iff.2 hr.oneToOne

/-- Two leaves are linked crosswise.  Dealing with the first pair undoes both links and queues two
others; these can be made in either order. -/
theorem crossed_leaves_are_queued_and_linked :
    let src : Tree := .ofContents ⟨(⟨0⟩, "r"), .node (⟨1⟩, "x") .nil (.leaf (⟨1⟩, "y"))⟩
    let dst : Tree := .ofContents ⟨(⟨0⟩, "r"), .node (⟨1⟩, "y") .nil (.leaf (⟨1⟩, "x"))⟩
    let task : Task := { src, dst }
    let p := ((Pairing.empty.insert 1 1).insert 2 2).insert 3 3
    let work : List Pair := [⟨2, 2⟩, ⟨3, 3⟩]
    p.isOneToOne = true ∧
    (((fun _ => ()) <$> work.foldlM (LeafMoves.reconsider task .ownParent) []).perform
      p).pairing.pairs = [⟨1, 1⟩] ∧
    (((fun _ => ()) <$> LeafMoves.round task .ownParent work).perform p).pairing.pairs =
      [⟨1, 1⟩, ⟨2, 3⟩, ⟨3, 2⟩] ∧
    (Returns (work.foldlM (LeafMoves.reconsider task .ownParent) []) p fun queue q =>
      ∃ made : List Pair, made.Perm (q.pairs ++ queue) ∧ ∀ order : List Pair, order.Perm queue →
        Returns (order.forM fun z => link z.src z.dst) q fun _ r =>
          r.isOneToOne = true ∧ r.pairs = made) ∧
    Returns (LeafMoves.round task .ownParent work) p fun _ r => r.isOneToOne = true := by
  intro src dst task p work
  have hone : p.isOneToOne = true := by decide +kernel
  exact ⟨hone, by decide +kernel, by decide +kernel,
    (queued_links_can_be_made_in_any_order task .ownParent work p hone).2⟩

end TreeMatching
