import TreeMatching.Proofs.LeafRounds

set_option autoImplicit false

/-!
# The progress of leaf moves

Leaf moves only undo links between nodes with different labels, and they never undo more links than
they make.  Every move makes at least one link between nodes of the same content, and such a link is
never undone again.  So the number of pairs with the same content grows in every round that changes
anything, which bounds the number of rounds.

## Main definitions

* `Pairing.alikeCount` — the number of pairs with the same content.
* `LeafMoves.Keeps` — pairs with the same label are kept, and there are no fewer pairs.
* `Task.withMaxRounds` — the same task, with another limit for the number of rounds.

## Main results

* `LeafMoves.Round.keeps`, `LeafMoves.Round.alikeCount_lt` — what one round keeps and what it gains.
* `LeafMoves.returns_reconcile_keeps` — what all rounds keep and gain.
* `LeafMoves.run_rounds_eq` — limits that are large enough make no difference.
* `leaf_moves_keep_equal_labels` — pairs with the same label are kept, and there are no fewer pairs.
* `leaf_moves_end_after_few_rounds` — a bound for the number of rounds, whatever the limit.
-/

namespace TreeMatching

open Matching

/-! ### Counting pairs -/

namespace Pairing

variable {p r : Pairing} {f : Pair → Bool} {zs : List Pair}

/-- If all pairs with a property are kept, there are no fewer of them. -/
lemma countP_pairs_le (h : ∀ z ∈ p.pairs, f z = true → z ∈ r.pairs) :
    p.pairs.countP f ≤ r.pairs.countP f := by
  rw [List.countP_eq_length_filter, List.countP_eq_length_filter]
  refine (List.subperm_of_subset (nodup_pairs.filter _) fun z hz => ?_).length_le
  obtain ⟨hz, hf⟩ := List.mem_filter.1 hz
  exact List.mem_filter.2 ⟨h z hz hf, hf⟩

/-- If all pairs with a property are kept and there is a new one, there are more of them. -/
lemma countP_pairs_lt (h : ∀ z ∈ p.pairs, f z = true → z ∈ r.pairs) {z : Pair} (hz : z ∈ r.pairs)
    (hf : f z = true) (hnew : z ∉ p.pairs) : p.pairs.countP f < r.pairs.countP f := by
  rw [List.countP_eq_length_filter, List.countP_eq_length_filter]
  have hnd : (z :: p.pairs.filter f).Nodup :=
    List.nodup_cons.2 ⟨fun hmem => hnew (List.mem_filter.1 hmem).1, nodup_pairs.filter _⟩
  refine (List.subperm_of_subset hnd fun y hy => ?_).length_le
  rcases List.mem_cons.1 hy with rfl | hy
  · exact List.mem_filter.2 ⟨hz, hf⟩
  · obtain ⟨hy, hfy⟩ := List.mem_filter.1 hy
    exact List.mem_filter.2 ⟨h y hy hfy, hfy⟩

/-- Pairs whose source nodes come from a list are no more than that list is long. -/
lemma countP_pairs_le_length {nodes : List NodeId} (h : ∀ z ∈ p.pairs, f z = true → z.src ∈ nodes) :
    p.pairs.countP f ≤ nodes.length := by
  rw [List.countP_eq_length_filter, ← List.length_map (f := Pair.src)]
  have hnd : ((p.pairs.filter f).map Pair.src).Nodup :=
    nodup_map_src_pairs.sublist ((List.filter_sublist).map _)
  refine (List.subperm_of_subset hnd fun s hs => ?_).length_le
  obtain ⟨z, hz, rfl⟩ := List.mem_map.1 hs
  exact h z (List.mem_filter.1 hz).1 (List.mem_filter.1 hz).2

/-- The same for destination nodes. -/
lemma OneToOne.countP_pairs_le_length {nodes : List NodeId} (hp : p.OneToOne)
    (h : ∀ z ∈ p.pairs, f z = true → z.dst ∈ nodes) : p.pairs.countP f ≤ nodes.length := by
  rw [List.countP_eq_length_filter, ← List.length_map (f := Pair.dst)]
  have hnd : ((p.pairs.filter f).map Pair.dst).Nodup :=
    (nodup_map_dst_pairs fun s d => (hp s d).1).sublist ((List.filter_sublist).map _)
  refine (List.subperm_of_subset hnd fun d hd => ?_).length_le
  obtain ⟨z, hz, rfl⟩ := List.mem_map.1 hd
  exact h z (List.mem_filter.1 hz).1 (List.mem_filter.1 hz).2

/-- Undoing links loses no more pairs than there are links. -/
lemma size_le_eraseAll (h : ∀ z ∈ zs, p.dst? z.src = some z.dst) :
    p.size ≤ (p.eraseAll zs).size + zs.length := by
  rw [← length_pairs, ← length_pairs, ← List.length_append]
  refine (List.subperm_of_subset nodup_pairs fun z hz => ?_).length_le
  by_cases hmem : z ∈ zs
  · exact List.mem_append_right _ hmem
  · refine List.mem_append_left _ (mem_pairs_iff.2 ?_)
    exact (dst?_eraseAll_eq_some_iff h).2 ⟨mem_pairs_iff.1 hz, hmem⟩

/-- The number of pairs whose nodes have the same kind and label. -/
def alikeCount (p : Pairing) (task : Task) : Nat :=
  p.pairs.countP fun z => task.src.sameContent task.dst z.src z.dst

/-- There are no more pairs with the same content than nodes in the smaller tree. -/
lemma OneToOne.alikeCount_le (hp : p.OneToOne) (task : Task) :
    p.alikeCount task ≤ min task.src.count task.dst.count := by
  have hnodes : ∀ z : Pair, task.src.sameContent task.dst z.src z.dst = true →
      z.src ∈ task.src.preOrder ∧ z.dst ∈ task.dst.preOrder := by
    intro z hz
    obtain ⟨hs, hd, -⟩ := Tree.sameKind_iff.1 (Bool.and_eq_true_iff.1 hz).1
    exact ⟨hs, hd⟩
  rw [← Tree.length_preOrder, ← Tree.length_preOrder]
  exact le_min (Pairing.countP_pairs_le_length fun z _ hz => (hnodes z hz).1)
    (hp.countP_pairs_le_length fun z _ hz => (hnodes z hz).2)

end Pairing

namespace LeafMoves

variable {task : Task} {anchor : Anchor} {p q r : Pairing} {seen queue work next : List Pair}

/-! ### What is kept -/

/-- Every pair with the same label is kept, and there are no fewer pairs. -/
structure Keeps (task : Task) (p r : Pairing) : Prop where
  equal : ∀ s d, p.dst? s = some d → task.src.sameLabel task.dst s d = true → r.dst? s = some d
  size : p.size ≤ r.size

/-- Doing nothing keeps everything. -/
lemma Keeps.refl (task : Task) (p : Pairing) : Keeps task p p := ⟨fun _ _ h _ => h, le_rfl⟩

/-- What is kept twice is kept. -/
lemma Keeps.trans (h : Keeps task p q) (h' : Keeps task q r) : Keeps task p r where
  equal s d hsd hlabel := h'.equal s d (h.equal s d hsd hlabel) hlabel
  size := h.size.trans h'.size

/-- What keeps pairs with the same label keeps pairs with the same content. -/
lemma Keeps.mem_pairs_of_sameContent (h : Keeps task p r) {z : Pair} (hz : z ∈ p.pairs)
    (hsame : task.src.sameContent task.dst z.src z.dst = true) : z ∈ r.pairs :=
  Pairing.mem_pairs_iff.2
    (h.equal _ _ (Pairing.mem_pairs_iff.1 hz) (Tree.sameLabel_of_sameContent hsame))

/-- There are no fewer pairs with the same content. -/
lemma Keeps.alikeCount_le (h : Keeps task p r) : p.alikeCount task ≤ r.alikeCount task :=
  Pairing.countP_pairs_le fun _ hz hsame => h.mem_pairs_of_sameContent hz hsame

/-- A pair of leaves with different labels. -/
lemma unlike_of_isUnlike {x : Pair} (h : isUnlike task x = true) :
    task.src.sameLabel task.dst x.src x.dst = false := by
  simp only [isUnlike, Bool.and_eq_true, Bool.not_eq_true'] at h
  exact h.2

/-- If a round goes over pairs with different labels, it undoes no others. -/
lemma Dealt.equal_kept (h : Dealt task anchor p seen q queue)
    (hseen : ∀ x ∈ seen, isUnlike task x = true) {s d : NodeId} (hsd : p.dst? s = some d)
    (hlabel : task.src.sameLabel task.dst s d = true) : q.dst? s = some d := by
  induction h with
  | nil => exact hsd
  | keep _ _ ih => exact ih fun x hx => hseen x (List.mem_append_left _ hx)
  | @move seen q queue x parents c _ hlinked _ hmoves _ ih =>
    have hq := ih fun x hx => hseen x (List.mem_append_left _ hx)
    have hx := unlike_of_isUnlike (hseen x (by simp))
    refine (Pairing.dst?_eraseAll_eq_some_iff (hmoves.linked hlinked)).2 ⟨hq, fun hmem => ?_⟩
    have hunlike := hmoves.unlike hx _ hmem
    rw [hlabel] at hunlike
    cases hunlike

/-- At least as many links are queued as have been undone. -/
lemma Dealt.size_le (h : Dealt task anchor p seen q queue) : p.size ≤ q.size + queue.length := by
  induction h with
  | nil => exact Nat.le_add_right _ _
  | keep _ _ ih => exact ih
  | move _ hlinked _ hmoves _ ih =>
    have herased := Pairing.size_le_eraseAll (hmoves.linked hlinked)
    have hmade := hmoves.length_undone_le
    rw [List.length_append]
    omega

/-- The round did not begin with a queued link between nodes with the same label: such a pair would
have been kept, but the nodes of queued links are free. -/
lemma Dealt.notMem_pairs_of_mem_queue (h : Dealt task anchor p seen q queue) (hp : p.OneToOne)
    (hseen : ∀ x ∈ seen, isUnlike task x = true) {z : Pair} (hz : z ∈ queue)
    (hlabel : task.src.sameLabel task.dst z.src z.dst = true) : z ∉ p.pairs := by
  intro hold
  have hkept := h.equal_kept hseen (Pairing.mem_pairs_iff.1 hold) hlabel
  rw [((h.queued hp).free z hz).1] at hkept
  cases hkept

/-- If anything is queued, then so is a link between nodes with the same content. -/
lemma Dealt.exists_alike (h : Dealt task anchor p seen q queue) (hqueue : queue ≠ []) :
    ∃ z ∈ queue, task.src.sameContent task.dst z.src z.dst = true := by
  induction h with
  | nil => exact absurd rfl hqueue
  | keep _ _ ih => exact ih hqueue
  | move _ _ _ hmoves _ _ =>
    obtain ⟨z, hz, hsame⟩ := hmoves.exists_alike
    exact ⟨z, List.mem_append_right _ hz, hsame⟩

/-- **A round keeps pairs with the same label, and there are no fewer pairs after it.**

**Proof sketch.** Pairs with the same label are not reconsidered.  What a move undoes, it replaces
by at least as many queued links, and all queued links are made in the end. -/
theorem Round.keeps (h : Round task anchor p work r next) (hp : p.OneToOne)
    (hwork : ∀ x ∈ work, isUnlike task x = true) : Keeps task p r := by
  obtain @⟨q, queue, hdealt, hone, hlinked⟩ := h
  refine ⟨fun s d hsd hlabel => (hlinked s d).2 (.inl (hdealt.equal_kept hwork hsd hlabel)), ?_⟩
  have hnd : (q.pairs ++ queue).Nodup := (hdealt.queued hp).nodup_append
  have hsub : q.pairs ++ queue ⊆ r.pairs := by
    intro z hz
    rw [List.mem_append, Pairing.mem_pairs_iff] at hz
    exact Pairing.mem_pairs_iff.2 ((hlinked z.src z.dst).2 hz)
  calc p.size ≤ q.size + queue.length := hdealt.size_le
    _ = (q.pairs ++ queue).length := by rw [List.length_append, Pairing.length_pairs]
    _ ≤ r.pairs.length := (List.subperm_of_subset hnd hsub).length_le
    _ = r.size := Pairing.length_pairs

/-- **A round that leaves anything to do for the next one makes a new pair with the same
content.** -/
theorem Round.alikeCount_lt (h : Round task anchor p work r next) (hp : p.OneToOne)
    (hwork : ∀ x ∈ work, isUnlike task x = true) (hnext : next ≠ []) :
    p.alikeCount task < r.alikeCount task := by
  have hkeeps := h.keeps hp hwork
  obtain @⟨q, queue, hdealt, hone, hlinked⟩ := h
  have hqueue : queue ≠ [] := fun hnil => hnext (by rw [hnil]; rfl)
  obtain ⟨z, hz, hsame⟩ := hdealt.exists_alike hqueue
  exact Pairing.countP_pairs_lt (fun _ hy hsame => hkeeps.mem_pairs_of_sameContent hy hsame)
    (Pairing.mem_pairs_iff.2 ((hlinked z.src z.dst).2 (.inr hz))) hsame
    (hdealt.notMem_pairs_of_mem_queue hp hwork hz (Tree.sameLabel_of_sameContent hsame))

/-! ### All rounds -/

/-- **All rounds keep pairs with the same label**; and every round but the last makes a new pair
with the same content.

**Proof sketch.** The invariant of the rounds counts them: each one that leaves work has made a pair
with the same content, so there are at most as many rounds as new pairs, and one more for the round
that leaves no work. -/
theorem returns_reconcile_keeps (task : Task) (anchor : Anchor) (hp : p.OneToOne) :
    Returns (reconcile task anchor) p fun n r =>
      r.OneToOne ∧ Keeps task p r ∧ n + p.alikeCount task ≤ r.alikeCount task + 1 := by
  -- as long as there is work left, no round can have been idle
  refine (returns_reconcile (I := fun k q work => Keeps task p q ∧
    k + p.alikeCount task ≤ q.alikeCount task + if work = [] then 1 else 0) hp ?_ ?_).mono ?_
  · exact ⟨.refl task p, by omega⟩
  · rintro k q work r next hq hwork ⟨hkeeps, hcount⟩ hne hround
    have hkeeps' := hround.keeps hq hwork
    refine ⟨hkeeps.trans hkeeps', ?_⟩
    rw [if_neg hne] at hcount
    split
    · have := hkeeps'.alikeCount_le
      omega
    · next hnext =>
      have := hround.alikeCount_lt hq hwork hnext
      omega
  · rintro n r ⟨hr, rest, ⟨hkeeps, hcount⟩, -⟩
    refine ⟨hr, hkeeps, hcount.trans ?_⟩
    split <;> omega

/-- Without pairs to be reconsidered there are no rounds. -/
lemma rounds_nil (task : Task) (anchor : Anchor) (limit : Nat) :
    rounds task anchor limit [] = pure 0 := by
  cases limit <;> rfl

/-- If there is anything to do, the rounds are one round and then those of what it returns. -/
lemma rounds_succ {limit : Nat} (hwork : work ≠ []) :
    rounds task anchor (limit + 1) work =
      round task anchor work >>= fun next => rounds task anchor limit next >>= fun n =>
        pure (n + 1) := by
  cases work with
  | nil => exact absurd rfl hwork
  | cons x work => rfl

/-- **Limits that are large enough make no difference.**

**Proof sketch.** Induction on the limit.  Both runs begin with the same round.  If it leaves
nothing to do, both end; otherwise there is one more pair with the same content, and one round less
is needed. -/
theorem run_rounds_eq {m n : Nat} (hp : p.OneToOne) (hwork : ∀ x ∈ work, isUnlike task x = true)
    (hm : min task.src.count task.dst.count + 1 ≤ p.alikeCount task + m)
    (hn : min task.src.count task.dst.count + 1 ≤ p.alikeCount task + n) (k : Nat) :
    (rounds task anchor m work).run ⟨p, k⟩ = (rounds task anchor n work).run ⟨p, k⟩ := by
  induction m generalizing n p work k with
  | zero =>
    have := hp.alikeCount_le task
    omega
  | succ m ih =>
    cases n with
    | zero =>
      have := hp.alikeCount_le task
      omega
    | succ n =>
      by_cases hnil : work = []
      · rw [hnil, rounds_nil, rounds_nil]
      · have hreturns : Returns (round task anchor work) p _ := returns_round hp
        obtain ⟨next, q, l, hrun, hround⟩ := hreturns k
        have hrest : (rounds task anchor m next).run ⟨q, l⟩ =
            (rounds task anchor n next).run ⟨q, l⟩ := by
          by_cases hnext : next = []
          · rw [hnext, rounds_nil, rounds_nil]
          · have := hround.alikeCount_lt hp hwork hnext
            exact ih hround.oneToOne hround.isUnlike_of_mem (by omega) (by omega) l
        simp only [rounds_succ hnil, EStateM.run_bind, hrun, hrest]

end LeafMoves

/-! ### The stage -/

/-- **Leaf moves keep every pair of nodes with the same label**, and there are no fewer pairs after
them than before.

**Proof sketch.** Both passes keep pairs with the same label, by `returns_reconcile_keeps`, and lose
none. -/
theorem leaf_moves_keep_equal_labels (task : Task) (p : Pairing) (hone : p.isOneToOne = true) :
    let o := Stage.leafMoves.perform task p
    o.fault = none ∧
      (∀ z ∈ p.pairs, task.src.label z.src = task.dst.label z.dst → z ∈ o.pairing.pairs) ∧
      p.size ≤ o.pairing.size := by
  have hrun : Returns (LeafMoves.run task) p fun _ r => LeafMoves.Keeps task p r := by
    have hp := Pairing.isOneToOne_iff.1 hone
    refine (LeafMoves.returns_reconcile_keeps task .mappedParent hp).bind ?_
    rintro _ q ⟨hq, hkeeps, -⟩
    refine (LeafMoves.returns_reconcile_keeps task .ownParent hq).bind ?_
    rintro _ r ⟨-, hkeeps', -⟩
    exact returns_pure (hkeeps.trans hkeeps')
  obtain ⟨hfault, hkeeps⟩ := hrun.perform
  refine ⟨hfault, fun z hz hlabel => Pairing.mem_pairs_iff.2 ?_, hkeeps.size⟩
  exact hkeeps.equal _ _ (Pairing.mem_pairs_iff.1 hz) (beq_iff_eq.2 hlabel)

/-- Two leaves are linked crosswise, a third one is linked to its like.  The first two are put right
and the third is kept; no pair is lost. -/
theorem equal_leaf_stays_beside_crossed_leaves :
    let src : Tree := .ofContents ⟨(⟨0⟩, "r"),
      .node (⟨1⟩, "x") .nil (.node (⟨1⟩, "y") .nil (.leaf (⟨1⟩, "z")))⟩
    let dst : Tree := .ofContents ⟨(⟨0⟩, "r"),
      .node (⟨1⟩, "y") .nil (.node (⟨1⟩, "x") .nil (.leaf (⟨1⟩, "z")))⟩
    let task : Task := { src, dst }
    let p := (((Pairing.empty.insert 1 1).insert 2 2).insert 3 3).insert 4 4
    p.isOneToOne = true ∧ (Stage.leafMoves.perform task p).pairing.dst? 2 = some 3 ∧
      (Stage.leafMoves.perform task p).fault = none ∧
      ⟨4, 4⟩ ∈ (Stage.leafMoves.perform task p).pairing.pairs ∧
      p.size ≤ (Stage.leafMoves.perform task p).pairing.size := by
  intro src dst task p
  have hone : p.isOneToOne = true := by decide +kernel
  obtain ⟨hfault, hkept, hsize⟩ := leaf_moves_keep_equal_labels task p hone
  exact ⟨hone, by decide +kernel, hfault, hkept ⟨4, 4⟩ (by decide +kernel) (by decide +kernel),
    hsize⟩

/-- The same task, with another limit for the number of rounds. -/
def Task.withMaxRounds (task : Task) (limit : Nat) : Task :=
  { task with settings := { task.settings with maxRounds := limit } }

namespace LeafMoves

variable {task : Task} {anchor : Anchor} {p : Pairing}

/-- Apart from their number, rounds do not depend on the limit. -/
lemma rounds_withMaxRounds {m limit : Nat} {work : List Pair} :
    rounds (task.withMaxRounds m) anchor limit work = rounds task anchor limit work := by
  induction limit generalizing work with
  | zero => rfl
  | succ limit ih =>
    by_cases hwork : work = []
    · rw [hwork, rounds_nil, rounds_nil]
    · rw [rounds_succ hwork, rounds_succ hwork]
      exact congrArg (round task anchor work >>= ·) (funext fun next => by rw [ih])

variable {m n : Nat} (hp : p.OneToOne) (hm : min task.src.count task.dst.count + 1 ≤ m)
  (hn : min task.src.count task.dst.count + 1 ≤ n)

include hp hm hn

/-- **If the limit is large enough, it does not matter**: reconsidering leaves comes to an end
before. -/
lemma run_reconcile_withMaxRounds (k : Nat) :
    (reconcile (task.withMaxRounds m) anchor).run ⟨p, k⟩ =
      (reconcile (task.withMaxRounds n) anchor).run ⟨p, k⟩ := by
  change (rounds (task.withMaxRounds m) anchor m (p.pairs.filter (isUnlike task))).run ⟨p, k⟩ =
    (rounds (task.withMaxRounds n) anchor n (p.pairs.filter (isUnlike task))).run ⟨p, k⟩
  rw [rounds_withMaxRounds, rounds_withMaxRounds]
  exact run_rounds_eq hp (fun x hx => (List.mem_filter.1 hx).2) (by omega) (by omega) k

/-- If the limit is large enough, it does not matter for the stage. -/
lemma run_withMaxRounds (k : Nat) :
    (run (task.withMaxRounds m)).run ⟨p, k⟩ = (run (task.withMaxRounds n)).run ⟨p, k⟩ := by
  obtain ⟨_, q, l, hrun, hq, -⟩ := returns_reconcile_keeps (task.withMaxRounds m) .mappedParent hp k
  have hrun' := (run_reconcile_withMaxRounds hp hm hn k).symm.trans hrun
  simp only [run, EStateM.run_bind, hrun, hrun', run_reconcile_withMaxRounds hq hm hn l]

end LeafMoves

/-- **Leaf moves end after few rounds, whatever their limit is**: in either place where siblings are
looked for, there is at most one round more than the smaller tree has nodes.  Hence all limits from
there on lead to the same outcome.

**Proof sketch.** Every round but the last one makes a pair with the same content, and there are at
most as many such pairs as nodes in the smaller tree.  A limit above that number is not reached. -/
theorem leaf_moves_end_after_few_rounds (task : Task) (p : Pairing) (hone : p.isOneToOne = true) :
    (∀ anchor, Returns (LeafMoves.reconcile task anchor) p fun rounds _ =>
      rounds ≤ min task.src.count task.dst.count + 1) ∧
    ∀ m n, min task.src.count task.dst.count + 1 ≤ m → min task.src.count task.dst.count + 1 ≤ n →
      Stage.leafMoves.perform (task.withMaxRounds m) p =
        Stage.leafMoves.perform (task.withMaxRounds n) p := by
  have hp := Pairing.isOneToOne_iff.1 hone
  refine ⟨fun anchor => (LeafMoves.returns_reconcile_keeps task anchor hp).mono ?_,
    fun m n hm hn => ?_⟩
  · rintro rounds r ⟨hr, -, hrounds⟩
    have := hr.alikeCount_le task
    omega
  · change Matching.perform (LeafMoves.run (task.withMaxRounds m)) p =
      Matching.perform (LeafMoves.run (task.withMaxRounds n)) p
    rw [Matching.perform, Matching.perform, LeafMoves.run_withMaxRounds hp hm hn]

/-- Three leaves that are linked in a circle.  Trees of four nodes need at most five rounds, so it
makes no difference whether five rounds are allowed or a hundred. -/
theorem circle_of_leaves_ends_after_five_rounds :
    let src : Tree := .ofContents ⟨(⟨0⟩, "r"),
      .node (⟨1⟩, "x") .nil (.node (⟨1⟩, "y") .nil (.leaf (⟨1⟩, "z")))⟩
    let dst : Tree := .ofContents ⟨(⟨0⟩, "r"),
      .node (⟨1⟩, "y") .nil (.node (⟨1⟩, "z") .nil (.leaf (⟨1⟩, "x")))⟩
    let task : Task := { src, dst }
    let p := (((Pairing.empty.insert 1 1).insert 2 2).insert 3 3).insert 4 4
    p.isOneToOne = true ∧
      Returns (LeafMoves.reconcile task .ownParent) p (fun rounds _ => rounds ≤ 5) ∧
      Stage.leafMoves.perform (task.withMaxRounds 5) p =
        Stage.leafMoves.perform (task.withMaxRounds 100) p := by
  intro src dst task p
  have hone : p.isOneToOne = true := by decide +kernel
  have hcount : min task.src.count task.dst.count = 4 := by decide +kernel
  obtain ⟨hrounds, hlimits⟩ := leaf_moves_end_after_few_rounds task p hone
  rw [hcount] at hrounds hlimits
  exact ⟨hone, hrounds .ownParent, hlimits 5 100 le_rfl (by decide)⟩

end TreeMatching
