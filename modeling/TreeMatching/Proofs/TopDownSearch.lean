import Mathlib.Data.List.ProdSigma
import TreeMatching.Proofs.SharedSubtrees

set_option autoImplicit false

/-!
# The search from the top down

The search visits pairs of nodes, beginning with the two roots.  A pair comes up only when its
parents have been visited and found to differ, and so no pair comes up twice, although every child
of the one node may be tried with every child of the other.  When two subtrees are found to be the
same, they are linked from the top down; but what has been linked while their parents were tried
with other nodes stays as it is, and is passed over with everything below.

## Main definitions

* `TopDown.Searched` — the pairs that have been visited so far and those that are still to come.
* `TopDown.Frontier` — what holds of these pairs.
* `TopDown.Placed` — what holds of a pair that has been linked from the top down.
* `TopDown.FoundBelow` — two nodes at the same place of two subtrees that are the same.

## Main results

* `TopDown.Descent.placed` — what linking pairs from the top down brings about.
* `TopDown.Searched.frontier`, `TopDown.Searched.placed` — the invariants of the search.
* `TopDown.Searched.exists_end` — the search ends within the number of visits it is allowed.
* `top_down_search_visits_no_pair_twice` — which pairs the stage adds, and how long it takes.
* `top_down_search_links_children_or_has_linked_them` — the children of linked nodes.

## Design

The number of visits in `TopDown.loop` is limited to make it a total function.  `TopDown.Searched`
follows the visits without a limit; that none is needed is a result here.
-/

namespace TreeMatching

open Matching

/-- Pairs are equal if their nodes are. -/
lemma Pair.ext {x y : Pair} (hs : x.src = y.src) (hd : x.dst = y.dst) : x = y := by
  cases x
  cases y
  subst hs hd
  rfl

namespace Tree

/-- The children of a node are different nodes. -/
lemma nodup_children (t : Tree) (id : NodeId) : (t.children id).Nodup := by
  have hpos : ∀ (i : ℕ) (hi : i < (t.children id).length), t.position (t.children id)[i] = i :=
    fun i hi => (child?_eq_some_iff.1 (List.getElem?_eq_getElem hi)).2
  refine List.pairwise_iff_getElem.2 fun i j hi hj hij heq => ?_
  have hi' := hpos i hi
  rw [heq, hpos j hj] at hi'
  omega

end Tree

namespace TopDown

variable {task : Task} {p q r : Pairing} {x y z w : Pair} {zs added visited stack : List Pair}

/-! ### Linking from the top down -/

/-- The pairs of children are those of children at the same position.

**Proof sketch.** The pairs are zipped from the two lists of children, so the entry `i` consists of
the children number `i`; a child is known by its parent and its position. -/
lemma mem_childPairs_iff : w ∈ childPairs task z ↔
    task.src.parent? w.src = some z.src ∧ task.dst.parent? w.dst = some z.dst ∧
      task.src.position w.src = task.dst.position w.dst := by
  have hchild : w ∈ childPairs task z ↔
      ∃ i, task.src.child? z.src i = some w.src ∧ task.dst.child? z.dst i = some w.dst := by
    rw [childPairs, List.mem_iff_getElem?]
    refine exists_congr fun i => ?_
    rw [List.getElem?_zipWith_eq_some]
    constructor
    · rintro ⟨a, b, ha, hb, rfl⟩
      exact ⟨ha, hb⟩
    · rintro ⟨ha, hb⟩
      exact ⟨w.src, w.dst, ha, hb, rfl⟩
  rw [hchild]
  simp only [Tree.child?_eq_some_iff]
  constructor
  · rintro ⟨i, ⟨hs, rfl⟩, hd, hpos⟩
    exact ⟨hs, hd, hpos.symm⟩
  · rintro ⟨hs, hd, hpos⟩
    exact ⟨_, ⟨hs, rfl⟩, hd, hpos.symm⟩

/-- Pairs of children of the same nodes have no node in common. -/
lemma eq_of_mem_childPairs {v : Pair} (hv : v ∈ childPairs task z) (hw : w ∈ childPairs task z)
    (hshare : v.src = w.src ∨ v.dst = w.dst) : v = w := by
  obtain ⟨hs, hd, hpos⟩ := mem_childPairs_iff.1 hv
  obtain ⟨hs', hd', hpos'⟩ := mem_childPairs_iff.1 hw
  have heq : task.src.position v.src = task.src.position w.src := by
    rcases hshare with hshare | hshare
    · rw [hshare]
    · rw [hpos, hpos', hshare]
  have hsrc := Tree.child?_eq_some_iff.2 ⟨hs, heq⟩
  have hdst := Tree.child?_eq_some_iff.2 ⟨hd, hpos.symm.trans (heq.trans hpos')⟩
  rw [Tree.child?_eq_some_iff.2 ⟨hs', rfl⟩, Option.some_inj] at hsrc
  rw [Tree.child?_eq_some_iff.2 ⟨hd', rfl⟩, Option.some_inj] at hdst
  exact Pair.ext hsrc.symm hdst.symm

/-- What holds of a pair that has been linked, beginning with the pairs `tops`: a property `P` that
passes on to children; the pair is one of the `tops`, or the parents are linked and it is one of
their pairs of children; and of each pair of its own children one node has a partner. -/
structure Placed (task : Task) (P : Pair → Prop) (tops : List Pair) (q : Pairing) (z : Pair) :
    Prop where
  holds : P z
  origin : z ∈ tops ∨ ∃ u : Pair, q.dst? u.src = some u.dst ∧ z ∈ childPairs task u
  whole : ∀ w ∈ childPairs task z, q.bothFree w.src w.dst = false

/-- What has been linked keeps its place when more is linked. -/
lemma Placed.mono {P P' : Pair → Prop} {tops tops' : List Pair} (h : Placed task P tops q z)
    (hP : P z → P' z) (htops : tops ⊆ tops') (hgrows : Grows task q r) :
    Placed task P' tops' r z where
  holds := hP h.holds
  origin := h.origin.imp (fun hz => htops hz) fun ⟨u, hu, hz⟩ => ⟨u, hgrows.dst? hu, hz⟩
  whole w hw := hgrows.not_bothFree (h.whole w hw)

/-- Linking pairs from the top down leaves none of them free. -/
lemma Descent.not_bothFree (h : Descent task zs p q) :
    ∀ z ∈ zs, q.bothFree z.src z.dst = false := by
  induction h with
  | done => simp
  | pass htaken hrest ih =>
    exact List.forall_mem_cons.2 ⟨hrest.grows.not_bothFree htaken, ih⟩
  | @link z zs p q r _ _ _ hbelow hrest _ ih =>
    refine List.forall_mem_cons.2 ⟨(hbelow.grows.trans hrest.grows).not_bothFree ?_, ih⟩
    rw [Bool.eq_false_iff, Ne, Pairing.bothFree_iff, Pairing.dst?_insert, if_pos rfl]
    exact fun hfree => Option.some_ne_none _ hfree.1

/-- **What linking pairs from the top down brings about.**

**Proof sketch.** Induction along the descent.  A new pair is the one that is linked first, or it
comes about below it, or later.  Whatever holds when it comes about is kept by what follows. -/
theorem Descent.placed {P : Pair → Prop} (h : Descent task zs p q)
    (hchild : ∀ u, P u → ∀ w ∈ childPairs task u, P w) (hzs : ∀ z ∈ zs, P z) :
    ∀ z : Pair, q.dst? z.src = some z.dst →
      p.dst? z.src = some z.dst ∨ Placed task P zs q z := by
  induction h with
  | done => exact fun _ => .inl
  | pass _ _ ih =>
    rw [List.forall_mem_cons] at hzs
    exact fun z hz => (ih hzs.2 z hz).imp_right fun hplaced =>
      hplaced.mono id (List.subset_cons_self ..) .refl
  | @link top zs p q r _ _ _ hbelow hrest ihbelow ihrest =>
    rw [List.forall_mem_cons] at hzs
    intro z hz
    rcases ihrest hzs.2 z hz with hz | hplaced
    · rcases ihbelow (hchild top hzs.1) z hz with hz | hplaced
      · rw [Pairing.dst?_insert] at hz
        split at hz
        · next hsrc =>
          obtain rfl : top = z := Pair.ext hsrc (Option.some_inj.1 hz)
          exact .inr ⟨hzs.1, .inl (List.mem_cons_self ..),
            fun w hw => hrest.grows.not_bothFree (hbelow.not_bothFree w hw)⟩
        · exact .inl hz
      · -- the pairs of children with which the descent goes on have linked parents
        have htop : r.dst? top.src = some top.dst :=
          (hbelow.grows.trans hrest.grows).dst? (by rw [Pairing.dst?_insert, if_pos rfl])
        obtain ⟨hP, horigin, hwhole⟩ := hplaced.mono id (List.Subset.refl _) hrest.grows
        exact .inr ⟨hP, .inr (horigin.elim (fun hz => ⟨top, htop, hz⟩) id), hwhole⟩
    · exact .inr (hplaced.mono id (List.subset_cons_self ..) .refl)

/-! ### What is found in one visit -/

/-- The subtrees at the nodes of `x` are the same, and high enough; the nodes of `z` stand at the
same place of them, and at the same distance from the roots of the two trees. -/
structure FoundBelow (task : Task) (x z : Pair) : Prop where
  within : x.Within task
  high : task.settings.minHeight ≤ task.src.height x.src
  same : task.src.contents x.src = task.dst.contents x.dst
  place : SamePlaceBelow task.src task.dst x.src x.dst z.src z.dst
  level : task.src.depth z.src = task.dst.depth z.dst

/-- What is found consists of nodes of the two trees. -/
lemma FoundBelow.nodes (h : FoundBelow task x z) : z.Within task :=
  ⟨Tree.mem_preOrder_of_mem_subtree h.within.1 h.place.mem_src,
    Tree.mem_preOrder_of_mem_subtree h.within.2 h.place.mem_dst⟩

/-- What is found has the same subtree. -/
lemma FoundBelow.contents_eq (h : FoundBelow task x z) :
    task.src.contents z.src = task.dst.contents z.dst :=
  h.place.contents_eq h.within.1 h.within.2 h.same

/-- What is found below a pair includes the pairs of children of what is found.

**Proof sketch.** Children at the same position of nodes at the same place stand at the same place,
one level further down on both sides. -/
lemma FoundBelow.child (h : FoundBelow task x z) (hw : w ∈ childPairs task z) :
    FoundBelow task x w where
  within := h.within
  high := h.high
  same := h.same
  place := by
    obtain ⟨hs, hd, hpos⟩ := mem_childPairs_iff.1 hw
    obtain ⟨c, hc, hplace⟩ := h.place.child h.within.1 h.within.2 h.same
      (Tree.child?_eq_some_iff.2 ⟨hs, hpos⟩)
    rw [Tree.child?_eq_some_iff.2 ⟨hd, rfl⟩, Option.some_inj] at hc
    exact hc ▸ hplace
  level := by
    obtain ⟨hs, hd, -⟩ := mem_childPairs_iff.1 hw
    rw [(Tree.place_of_parent? hs).1, (Tree.place_of_parent? hd).1, h.level]

namespace Step

/-- **What is new after a visit** lies below the pair that was visited. -/
lemma placed (h : Step task x p added q) (hx : x.Within task)
    (hlevel : task.src.depth x.src = task.dst.depth x.dst) :
    ∀ z : Pair, q.dst? z.src = some z.dst →
      p.dst? z.src = some z.dst ∨ Placed task (FoundBelow task x) [x] q z := by
  cases h with
  | skip _ => exact fun _ => .inl
  | expand _ _ _ => exact fun _ => .inl
  | take _ hhigh hsame hdescent =>
    refine hdescent.placed (fun u hu w hw => hu.child hw) ?_
    rw [List.forall_mem_singleton]
    exact ⟨hx, hhigh, (Tree.sameSubtree_iff_contents hx.1 hx.2).1 hsame, .top, hlevel⟩

/-- Pairs come up only below nodes with different subtrees. -/
lemma contents_ne (h : Step task x p added q) (hx : x.Within task) (hy : y ∈ added) :
    task.src.contents x.src ≠ task.dst.contents x.dst := by
  cases h with
  | skip _ => cases hy
  | take _ _ _ _ => cases hy
  | expand _ _ hdiffer =>
    rw [Ne, ← Tree.sameSubtree_iff_contents hx.1 hx.2, hdiffer]
    exact Bool.false_ne_true

/-- No pair comes up twice in one visit. -/
lemma nodup (h : Step task x p added q) : added.Nodup := by
  cases h with
  | skip _ => exact List.nodup_nil
  | take _ _ _ _ => exact List.nodup_nil
  | expand _ _ _ =>
    refine List.nodup_flatMap.2 ⟨fun a _ => ?_, ?_⟩
    · refine ((task.dst.nodup_children x.dst).filter _).map fun b b' heq => ?_
      exact congrArg Pair.dst heq
    · refine (task.src.nodup_children x.src).imp fun {a a'} hne z hz hz' => hne ?_
      obtain ⟨b, -, rfl⟩ := List.mem_map.1 hz
      obtain ⟨b', -, heq⟩ := List.mem_map.1 hz'
      exact (congrArg Pair.src heq).symm

end Step

/-! ### The work list -/

/-- What holds of the pairs that have been visited and of those that are still to come.  All of them
are pairs of nodes on the same level, and no pair is there twice; and except for the two roots,
their parents have been visited and have different subtrees. -/
structure Frontier (task : Task) (visited stack : List Pair) : Prop where
  within : ∀ x ∈ visited ++ stack, x.Within task
  level : ∀ x ∈ visited ++ stack, task.src.depth x.src = task.dst.depth x.dst
  origin : ∀ x ∈ visited ++ stack, x = ⟨task.src.root, task.dst.root⟩ ∨
    ∃ w ∈ visited, task.src.parent? x.src = some w.src ∧ task.dst.parent? x.dst = some w.dst ∧
      task.src.contents w.src ≠ task.dst.contents w.dst
  nodup : (visited ++ stack).Nodup

namespace Frontier

/-- The search starts at the two roots. -/
lemma start (task : Task) : Frontier task [] [⟨task.src.root, task.dst.root⟩] where
  within x hx := by
    rw [List.mem_singleton.1 hx]
    exact ⟨Tree.root_mem_preOrder, Tree.root_mem_preOrder⟩
  level x hx := by
    rw [List.mem_singleton.1 hx, Tree.depth, Tree.depth, Tree.entry_root, Tree.entry_root]
    rfl
  origin x hx := .inl (List.mem_singleton.1 hx)
  nodup := List.nodup_singleton _

/-- **One visit keeps the invariant of the work list.**

**Proof sketch.** The pairs that come up have the visited pair as their parents.  A pair that was
there before has other parents, or none, since the visited pair had not been visited before. -/
theorem step (h : Frontier task visited (x :: stack)) (hstep : Step task x p added q) :
    Frontier task (visited ++ [x]) (added.reverse ++ stack) := by
  have hx : x ∈ visited ++ x :: stack := by simp
  have hperm : ((visited ++ [x]) ++ (added.reverse ++ stack)).Perm
      (added.reverse ++ (visited ++ x :: stack)) := by
    refine (List.perm_append_comm_assoc _ _ _).trans (List.Perm.of_eq ?_)
    rw [List.append_assoc, List.singleton_append]
  have hmem : ∀ y ∈ (visited ++ [x]) ++ (added.reverse ++ stack),
      y ∈ added ∨ y ∈ visited ++ x :: stack := by
    intro y hy
    rwa [hperm.mem_iff, List.mem_append, List.mem_reverse] at hy
  refine ⟨fun y hy => ?_, fun y hy => ?_, fun y hy => ?_, ?_⟩
  · exact (hmem y hy).elim hstep.within (h.within y)
  · refine (hmem y hy).elim (fun hnew => ?_) (h.level y)
    obtain ⟨hs, hd⟩ := hstep.parents hnew
    rw [(Tree.place_of_parent? hs).1, (Tree.place_of_parent? hd).1, h.level x hx]
  · rcases hmem y hy with hnew | hold
    · obtain ⟨hs, hd⟩ := hstep.parents hnew
      exact .inr ⟨x, by simp, hs, hd, hstep.contents_ne (h.within x hx) hnew⟩
    · refine (h.origin y hold).imp_right ?_
      rintro ⟨w, hw, hrest⟩
      exact ⟨w, List.mem_append_left _ hw, hrest⟩
  · rw [hperm.nodup_iff, List.nodup_append']
    refine ⟨List.nodup_reverse.2 hstep.nodup, h.nodup, fun y hnew hold => ?_⟩
    obtain ⟨hs, hd⟩ := hstep.parents (List.mem_reverse.1 hnew)
    rcases h.origin y hold with rfl | ⟨w, hw, hs', hd', -⟩
    · rw [Tree.parent?_root] at hs
      cases hs
    · obtain rfl : x = w := Pair.ext (Option.some_inj.1 (hs.symm.trans hs'))
        (Option.some_inj.1 (hd.symm.trans hd'))
      exact List.disjoint_of_nodup_append h.nodup hw (List.mem_cons_self ..)

/-- There are at most as many pairs as there are pairs of nodes. -/
lemma length_le (h : Frontier task visited stack) :
    (visited ++ stack).length ≤ task.src.count * task.dst.count := by
  have hinj : Function.Injective fun z : Pair => (z.src, z.dst) := fun x y heq =>
    Pair.ext (congrArg Prod.fst heq) (congrArg Prod.snd heq)
  have hsub : (visited ++ stack).map (fun z => (z.src, z.dst)) ⊆
      task.src.preOrder ×ˢ task.dst.preOrder := by
    intro ab hab
    obtain ⟨z, hz, rfl⟩ := List.mem_map.1 hab
    exact List.mem_product.2 (h.within z hz)
  have hle := (List.subperm_of_subset (h.nodup.map hinj) hsub).length_le
  rwa [List.length_map, List.length_product, Tree.length_preOrder, Tree.length_preOrder] at hle

end Frontier

/-! ### The whole search -/

/-- The search has been started in the state `s`.  It has visited the pairs `visited`, one after the
other; those on the stack are still to come, the first one next; and it is in the state `t`.  The
two lists together are all pairs that have ever been on the stack. -/
inductive Searched (task : Task) (s : Progress) : List Pair → List Pair → Progress → Prop
  | start : Searched task s [] [⟨task.src.root, task.dst.root⟩] s
  | visit {visited stack added : List Pair} {x : Pair} {t u : Progress}
      (before : Searched task s visited (x :: stack) t)
      (now : (TopDown.visit task x).run t = .ok added u) :
      Searched task s (visited ++ [x]) (added.reverse ++ stack) u

namespace Searched

variable {s t u : Progress}

/-- What the next visit does. -/
lemma step_of_frontier (h : Frontier task visited (x :: stack))
    (hrun : (TopDown.visit task x).run t = .ok added u) : Step task x t.pairing added u.pairing :=
  (returns_visit (h.within x (by simp)) t.pairing).of_run hrun

/-- The invariant of the work list. -/
theorem frontier (h : Searched task s visited stack t) : Frontier task visited stack := by
  induction h with
  | start => exact .start task
  | visit _ hrun ih => exact ih.step (step_of_frontier ih hrun)

/-- The search makes the pairing grow. -/
lemma grows (h : Searched task s visited stack t) : Grows task s.pairing t.pairing := by
  induction h with
  | start => exact .refl
  | visit hbefore hrun ih => exact ih.trans (step_of_frontier hbefore.frontier hrun).grows

/-- **What is new lies below a pair that has been visited.**

**Proof sketch.** Induction along the search.  A visit places what it links below the visited pair.
What was placed before stays in place, as more has been visited and more is linked. -/
theorem placed (h : Searched task s visited stack t) :
    ∀ z : Pair, t.pairing.dst? z.src = some z.dst → s.pairing.dst? z.src = some z.dst ∨
      Placed task (fun z => ∃ x ∈ visited, FoundBelow task x z) visited t.pairing z := by
  induction h with
  | start => exact fun _ => .inl
  | @visit visited stack added x t u hbefore hrun ih =>
    have hfrontier := hbefore.frontier
    have hstep := step_of_frontier hfrontier hrun
    have hx : x ∈ visited ++ x :: stack := by simp
    intro z hz
    rcases hstep.placed (hfrontier.within x hx) (hfrontier.level x hx) z hz with hz | hplaced
    · refine (ih z hz).imp_right fun hplaced =>
        hplaced.mono ?_ (List.subset_append_left ..) hstep.grows
      rintro ⟨y, hy, hfound⟩
      exact ⟨y, List.mem_append_left _ hy, hfound⟩
    · refine .inr (hplaced.mono (fun hfound => ?_) (List.subset_append_right ..) .refl)
      exact ⟨x, by simp, hfound⟩

section Empty

variable {n : ℕ} (h : Searched task ⟨.empty, n⟩ visited stack t)

include h

/-- On the empty pairing, all pairs are new: each lies below a pair that has been visited. -/
lemma placed_of_empty (hz : t.pairing.dst? z.src = some z.dst) :
    Placed task (fun z => ∃ x ∈ visited, FoundBelow task x z) visited t.pairing z :=
  (h.placed z hz).resolve_left (by simp)

/-- On the empty pairing, the search leaves a one-to-one pairing. -/
lemma oneToOne_of_empty : t.pairing.OneToOne := h.grows.oneToOne Pairing.oneToOne_empty

/-- **A linked pair that has a node in common with a pair of children of linked nodes** is that
pair, or its parents have different subtrees.

**Proof sketch.** If the pair was linked because its parents were, these are the given linked nodes,
one of which they have in common with them.  Otherwise it has been visited, which only happens below
different subtrees. -/
theorem eq_or_parents_differ {v : Pair} (hz : t.pairing.dst? z.src = some z.dst)
    (hw : w ∈ childPairs task z) (hv : t.pairing.dst? v.src = some v.dst)
    (hshare : v.src = w.src ∨ v.dst = w.dst) :
    v = w ∨ ∃ u : Pair, task.src.parent? v.src = some u.src ∧
      task.dst.parent? v.dst = some u.dst ∧
      task.src.contents u.src ≠ task.dst.contents u.dst := by
  obtain ⟨hs, hd, -⟩ := mem_childPairs_iff.1 hw
  rcases (h.placed_of_empty hv).origin with hvisited | ⟨u, hu, hchild⟩
  · rcases h.frontier.origin v (List.mem_append_left _ hvisited) with rfl | ⟨u, -, hparents⟩
    · rcases hshare with hshare | hshare
      · rw [← hshare, Tree.parent?_root] at hs
        cases hs
      · rw [← hshare, Tree.parent?_root] at hd
        cases hd
    · exact .inr ⟨u, hparents⟩
  · obtain ⟨hs', hd', -⟩ := mem_childPairs_iff.1 hchild
    have hparents : u = z := by
      rcases hshare with hshare | hshare
      · have hsrc : u.src = z.src := by rw [← Option.some_inj, ← hs', ← hs, hshare]
        exact Pair.ext hsrc (by rw [← Option.some_inj, ← hu, ← hz, hsrc])
      · have hdst : u.dst = z.dst := by rw [← Option.some_inj, ← hd', ← hd, hshare]
        exact Pair.ext (h.oneToOne_of_empty.src_inj hu (hdst ▸ hz)) hdst
    exact .inl (eq_of_mem_childPairs (hparents ▸ hchild) hw hshare)

end Empty

/-- **The search comes to an end** within the visits that are left of as many as there are pairs.

**Proof sketch.** Induction on the number of visits that are left.  When there are none, all pairs
have been visited, and nothing can be left on the stack. -/
theorem exists_end {n : ℕ} (h : Searched task s visited stack t)
    (hn : task.src.count * task.dst.count ≤ visited.length + n) :
    ∃ all u, Searched task s all [] u ∧ (loop task n stack).run t = .ok [] u := by
  induction n generalizing visited stack t with
  | zero =>
    have hle := h.frontier.length_le
    rw [List.length_append] at hle
    obtain rfl : stack = [] := List.eq_nil_of_length_eq_zero (by omega)
    exact ⟨visited, t, h, rfl⟩
  | succ n ih =>
    cases stack with
    | nil => exact ⟨visited, t, h, rfl⟩
    | cons x stack =>
      obtain ⟨added, u, hrun⟩ : ∃ added u, (TopDown.visit task x).run t = .ok added u := by
        obtain ⟨added, q, m, hrun, -⟩ :=
          returns_visit (h.frontier.within x (by simp)) t.pairing t.evaluations
        exact ⟨added, ⟨q, m⟩, hrun⟩
      have hlen : task.src.count * task.dst.count ≤ (visited ++ [x]).length + n := by
        rw [List.length_append, List.length_singleton]
        omega
      obtain ⟨all, v, hend, hloop⟩ := ih (.visit h hrun) hlen
      refine ⟨all, v, hend, ?_⟩
      rw [loop, EStateM.run_bind, hrun]
      exact hloop

variable (task) in
/-- **The stage is the search**, carried on until no pair is left. -/
theorem exists_perform (p : Pairing) :
    ∃ all s, Searched task ⟨p, 0⟩ all [] s ∧
      Stage.topDown.perform task p = ⟨s.pairing, s.evaluations, none⟩ := by
  have hstart : Searched task ⟨p, 0⟩ [] [⟨task.src.root, task.dst.root⟩] ⟨p, 0⟩ := .start
  obtain ⟨all, s, hend, hloop⟩ :=
    hstart.exists_end (Nat.le_add_left (task.src.count * task.dst.count) _)
  refine ⟨all, s, hend, ?_⟩
  have hrun : (run task).run ⟨p, 0⟩ = .ok () s := by
    rw [run, EStateM.run_bind, hloop]
    rfl
  rw [Stage.perform, Stage.run, Matching.perform, hrun]

end Searched

end TopDown

/-- **The search from the top down visits no pair twice.**  Run on any pairing, the stage does not
fail and keeps all pairs.  The nodes of a new pair have the same subtree, and the same distance from
the root; and the source node lies in a subtree that has at least the height asked for.  Whatever
has been visited so far, none of the pairs that have been on the stack until then has been there
twice.  So the search ends, without a limit, after at most as many visits as there are pairs of
nodes; and that is what the stage does.

**Proof sketch.** Along the whole search the visited pairs and the stack have no repetitions and
consist of nodes of the two trees, so that they are at most as many as there are pairs of nodes.
Every new link lies below a visited pair that was found alike and high enough, by
`Searched.placed`. -/
theorem top_down_search_visits_no_pair_twice (src dst : Tree) (settings : Settings)
    (rules : LabelRules) (threads : Nat) (p : Pairing) :
    let task : Task := { src, dst, settings, rules, threads }
    let o := Stage.topDown.perform task p
    let q := o.pairing
    o.fault = none ∧
      (∀ z ∈ p.pairs, z ∈ q.pairs) ∧
      (∀ z ∈ q.pairs, z ∉ p.pairs →
        z.src ∈ src.preOrder ∧ z.dst ∈ dst.preOrder ∧
        src.contents z.src = dst.contents z.dst ∧ src.depth z.src = dst.depth z.dst ∧
        ∃ a ∈ src.preOrder, settings.minHeight ≤ src.height a ∧ z.src ∈ a :: src.descendants a) ∧
      (∀ visited stack s, TopDown.Searched task ⟨p, 0⟩ visited stack s →
        (visited ++ stack).Nodup ∧ (visited ++ stack).length ≤ src.count * dst.count) ∧
      ∃ visited s, TopDown.Searched task ⟨p, 0⟩ visited [] s ∧
        visited.length ≤ src.count * dst.count ∧ s.pairing = q := by
  intro task o q
  obtain ⟨all, t, hend, hperform⟩ := TopDown.Searched.exists_perform task p
  have hq : t.pairing = q := (congrArg Outcome.pairing hperform).symm
  refine ⟨congrArg Outcome.fault hperform, fun z hz => ?_, fun z hz hnew => ?_,
    fun visited stack s hs => ⟨hs.frontier.nodup, hs.frontier.length_le⟩, all, t, hend, ?_, hq⟩
  · rw [Pairing.mem_pairs_iff] at hz ⊢
    exact hq ▸ hend.grows.dst? hz
  · rw [Pairing.mem_pairs_iff] at hz hnew
    obtain ⟨x, -, hfound⟩ := ((hend.placed z (hq ▸ hz)).resolve_left hnew).holds
    exact ⟨hfound.nodes.1, hfound.nodes.2, hfound.contents_eq, hfound.level, x.src,
      hfound.within.1, hfound.high, hfound.place.mem_src⟩
  · have hle := hend.frontier.length_le
    rwa [List.append_nil] at hle

/-- Two blocks against three, and the first one is linked already.  The second block is tried with a
wrong one first, and then linked with its like.  Its leaf and the partner of the leaf satisfy all
that is said of new pairs, and the search ends within the bound. -/
theorem second_block_finds_its_like :
    let src : Tree := .ofContents ⟨(⟨0⟩, "r"), .node (⟨1⟩, "x") (.leaf (⟨2⟩, "a"))
      (.node (⟨1⟩, "x") (.leaf (⟨2⟩, "b")) .nil)⟩
    let dst : Tree := .ofContents ⟨(⟨0⟩, "r"), .node (⟨1⟩, "x") (.leaf (⟨2⟩, "b"))
      (.node (⟨1⟩, "x") (.leaf (⟨2⟩, "c")) (.node (⟨1⟩, "x") (.leaf (⟨2⟩, "d")) .nil))⟩
    let task : Task := { src, dst }
    let p := Pairing.empty.insert 2 6
    let o := Stage.topDown.perform task p
    o.fault = none ∧ (⟨5, 3⟩ : Pair) ∈ o.pairing.pairs ∧ (⟨5, 3⟩ : Pair) ∉ p.pairs ∧
      src.contents 5 = dst.contents 3 ∧ src.depth 5 = dst.depth 3 ∧
      (∃ a ∈ src.preOrder, task.settings.minHeight ≤ src.height a ∧ 5 ∈ a :: src.descendants a) ∧
      ∃ visited s, TopDown.Searched task ⟨p, 0⟩ visited [] s ∧ visited.Nodup ∧
        visited.length ≤ 5 * 7 ∧ s.pairing = o.pairing := by
  intro src dst task p o
  have hnew : (⟨5, 3⟩ : Pair) ∈ o.pairing.pairs ∧ (⟨5, 3⟩ : Pair) ∉ p.pairs := by decide +kernel
  obtain ⟨hfault, -, hpairs, hsearched, visited, s, hend, hle, hs⟩ :=
    top_down_search_visits_no_pair_twice src dst {} {} 1 p
  obtain ⟨-, -, hsame, hlevel, hhigh⟩ := hpairs _ hnew.1 hnew.2
  have hnodup := (hsearched visited [] s hend).1
  rw [List.append_nil] at hnodup
  exact ⟨hfault, hnew.1, hnew.2, hsame, hlevel, hhigh, visited, s, hend, hnodup, hle, hs⟩

/-- **The children of linked nodes.**  Run on the empty pairing, the stage does not fail.  The nodes
of every pair have equally many children, and the children at the same position are linked to each
other, unless one of them was linked before, while its parent was tried in vain: then its partner
has the same subtree, but the parent of the partner has not the same subtree as its own parent.

**Proof sketch.** By `Searched.placed`, the children of two linked nodes were not both free when the
nodes had been linked and all below them had been visited.  If one of them has another partner, that
link was made below another pair, and then the parents differ, by `eq_or_parents_differ`. -/
theorem top_down_search_links_children_or_has_linked_them (src dst : Tree) (settings : Settings)
    (rules : LabelRules) (threads : Nat) :
    let task : Task := { src, dst, settings, rules, threads }
    let o := Stage.topDown.perform task .empty
    let q := o.pairing
    o.fault = none ∧ ∀ z ∈ q.pairs, src.childCount z.src = dst.childCount z.dst ∧
      ∀ i s d, src.child? z.src i = some s → dst.child? z.dst i = some d →
        (⟨s, d⟩ : Pair) ∈ q.pairs ∨
        (∃ y v, (⟨s, y⟩ : Pair) ∈ q.pairs ∧ src.contents s = dst.contents y ∧
          dst.parent? y = some v ∧ src.contents z.src ≠ dst.contents v) ∨
        ∃ x u, (⟨x, d⟩ : Pair) ∈ q.pairs ∧ src.contents x = dst.contents d ∧
          src.parent? x = some u ∧ src.contents u ≠ dst.contents z.dst := by
  intro task o q
  obtain ⟨all, t, hend, hperform⟩ := TopDown.Searched.exists_perform task .empty
  have hq : t.pairing = q := (congrArg Outcome.pairing hperform).symm
  refine ⟨congrArg Outcome.fault hperform, fun z hz => ?_⟩
  simp only [Pairing.mem_pairs_iff, ← hq] at hz ⊢
  have hsame : ∀ v : Pair, t.pairing.dst? v.src = some v.dst →
      src.contents v.src = dst.contents v.dst := by
    intro v hv
    obtain ⟨x, -, hfound⟩ := (hend.placed_of_empty hv).holds
    exact hfound.contents_eq
  refine ⟨?_, fun i s d hs hd => ?_⟩
  · rw [Tree.childCount_eq, Tree.childCount_eq, hsame z hz]
  rw [Tree.child?_eq_some_iff] at hs hd
  have hw : (⟨s, d⟩ : Pair) ∈ TopDown.childPairs task z :=
    TopDown.mem_childPairs_iff.2 ⟨hs.1, hd.1, hs.2.trans hd.2.symm⟩
  have htaken := (hend.placed_of_empty hz).whole _ hw
  rw [Bool.eq_false_iff, Ne, Pairing.bothFree_iff, not_and_or] at htaken
  -- one of the children has a partner: the other child, or a node whose parent differs
  rcases htaken with htaken | htaken
  · obtain ⟨y, hy⟩ := Option.ne_none_iff_exists'.1 htaken
    rcases hend.eq_or_parents_differ (v := ⟨s, y⟩) hz hw hy (.inl rfl) with heq | ⟨u, hu, hv, hne⟩
    · obtain rfl : y = d := congrArg Pair.dst heq
      exact .inl hy
    · rw [Option.some_inj.1 (hu.symm.trans hs.1)] at hne
      exact .inr (.inl ⟨y, u.dst, hy, hsame ⟨s, y⟩ hy, hv, hne⟩)
  · obtain ⟨x, hx⟩ := Option.ne_none_iff_exists'.1 htaken
    rw [← hend.oneToOne_of_empty x d] at hx
    rcases hend.eq_or_parents_differ (v := ⟨x, d⟩) hz hw hx (.inr rfl) with heq | ⟨u, hu, hv, hne⟩
    · obtain rfl : x = s := congrArg Pair.src heq
      exact .inl hx
    · rw [Option.some_inj.1 (hv.symm.trans hd.1)] at hne
      exact .inr (.inr ⟨x, u.src, hx, hsame ⟨x, d⟩ hx, hu, hne⟩)

/-- A block with two children. -/
def oneBlock : Tree := .ofContents ⟨(⟨0⟩, "r"), .node (⟨1⟩, "x") (.node (⟨2⟩, "p")
  (.leaf (⟨3⟩, "a")) (.node (⟨4⟩, "q") (.leaf (⟨5⟩, "b")) .nil)) .nil⟩

/-- The same block, followed by one of which only the first child is the same. -/
def twoBlocks : Tree := .ofContents ⟨(⟨0⟩, "r"), .node (⟨1⟩, "x") (.node (⟨2⟩, "p")
  (.leaf (⟨3⟩, "a")) (.node (⟨4⟩, "q") (.leaf (⟨5⟩, "b")) .nil)) (.node (⟨1⟩, "x")
  (.node (⟨2⟩, "p") (.leaf (⟨3⟩, "a")) (.node (⟨4⟩, "q") (.leaf (⟨6⟩, "c")) .nil)) .nil)⟩

/-- The block is tried first with the second one, and its first child is linked there.  Then the
block itself is linked to the first one. -/
theorem first_child_is_linked_in_second_block :
    let q := (Stage.topDown.perform { src := oneBlock, dst := twoBlocks } .empty).pairing
    (⟨2, 2⟩ : Pair) ∈ q.pairs ∧ oneBlock.child? 2 0 = some 3 ∧ twoBlocks.child? 2 0 = some 3 ∧
      (⟨3, 8⟩ : Pair) ∈ q.pairs ∧ twoBlocks.parent? 8 = some 7 ∧
      ((∃ y v, (⟨3, y⟩ : Pair) ∈ q.pairs ∧ oneBlock.contents 3 = twoBlocks.contents y ∧
          twoBlocks.parent? y = some v ∧ oneBlock.contents 2 ≠ twoBlocks.contents v) ∨
        ∃ x u, (⟨x, 3⟩ : Pair) ∈ q.pairs ∧ oneBlock.contents x = twoBlocks.contents 3 ∧
          oneBlock.parent? x = some u ∧ oneBlock.contents u ≠ twoBlocks.contents 2) := by
  intro q
  have hblocks : (⟨2, 2⟩ : Pair) ∈ q.pairs ∧ (⟨3, 3⟩ : Pair) ∉ q.pairs := by decide +kernel
  have hchildren : oneBlock.child? 2 0 = some 3 ∧ twoBlocks.child? 2 0 = some 3 := by
    decide +kernel
  have hother : (⟨3, 8⟩ : Pair) ∈ q.pairs ∧ twoBlocks.parent? 8 = some 7 := by decide +kernel
  obtain ⟨-, hall⟩ :=
    top_down_search_links_children_or_has_linked_them oneBlock twoBlocks {} {} 1
  have hcases := (hall ⟨2, 2⟩ hblocks.1).2 0 3 3 hchildren.1 hchildren.2
  exact ⟨hblocks.1, hchildren.1, hchildren.2, hother.1, hother.2, hcases.resolve_left hblocks.2⟩

/-- So the children at the same positions of two linked nodes are not always linked, not even if the
search starts on the empty pairing. -/
theorem children_of_linked_nodes_need_not_be_linked :
    ¬∀ (src dst : Tree) (settings : Settings) (rules : LabelRules),
      let q := (Stage.topDown.perform { src, dst, settings, rules } .empty).pairing
      ∀ z ∈ q.pairs, ∀ i s d, src.child? z.src i = some s → dst.child? z.dst i = some d →
        (⟨s, d⟩ : Pair) ∈ q.pairs := by
  intro hall
  have hblocks : (⟨2, 2⟩ : Pair) ∈
        (Stage.topDown.perform { src := oneBlock, dst := twoBlocks } .empty).pairing.pairs ∧
      (⟨3, 3⟩ : Pair) ∉
        (Stage.topDown.perform { src := oneBlock, dst := twoBlocks } .empty).pairing.pairs := by
    decide +kernel
  have hchildren : oneBlock.child? 2 0 = some 3 ∧ twoBlocks.child? 2 0 = some 3 := by
    decide +kernel
  exact hblocks.2 (hall oneBlock twoBlocks {} {} ⟨2, 2⟩ hblocks.1 0 3 3 hchildren.1 hchildren.2)

end TreeMatching
