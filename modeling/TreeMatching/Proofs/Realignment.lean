import TreeMatching.Proofs.Ancestry
import TreeMatching.Proofs.LongestAlignments

set_option autoImplicit false

/-!
# Realignment reaches a fixed point

A pass realigns the subtrees at the nearest linked ancestors of the free nodes.  Its links change
the ancestors that count for nodes visited later, and an ancestor is visited only once in a pass, so
one pass may leave work to the next.  A pass without links, however, has seen every free node with
the same pairing.  Such a pass comes at last, because every other one uses up a free node.

## Main definitions

* `Realign.freeNodes` — the source nodes without a partner.
* `Realign.Effect` — a computation links nothing because there is nothing to do, or it links
  something.
* `Realign.Settled` — for no free node there is anything to do.
* `Realign.EndsAfter` — passes are made as long as they link anything.

## Main results

* `Realign.Effect.append` — one computation after another.
* `Realign.returns_realign_effect`, `Realign.returns_pass_effect` — the effect of realigning a pair
  of subtrees, and of a pass.
* `Realign.exists_endsAfter` — how many passes there are, and what they lead to.
* `realignment_ends_with_linked_alignments` — the stage.
-/

namespace TreeMatching

open Matching

namespace Realign

variable {task : Task} {p q r : Pairing} {x : Pair}

/-! ### Free nodes -/

/-- The source nodes without a partner. -/
def freeNodes (task : Task) (p : Pairing) : List NodeId :=
  task.src.postOrder.filter fun n => !p.hasSrc n

/-- The free nodes are the nodes of the source tree without a partner. -/
lemma mem_freeNodes_iff {n : NodeId} :
    n ∈ freeNodes task p ↔ n ∈ task.src.preOrder ∧ p.dst? n = none := by
  rw [freeNodes, List.mem_filter, Tree.mem_postOrder_iff, Pairing.not_hasSrc_iff]

/-- In a pairing that has grown, the free nodes are some of those that were free before. -/
lemma freeNodes_sublist (h : Grows task p q) : (freeNodes task q).Sublist (freeNodes task p) := by
  refine List.monotone_filter_right _ fun n hn => ?_
  rw [Pairing.not_hasSrc_iff] at hn ⊢
  exact h.srcFree_before hn

/-- If a free node has got a partner, there are fewer free nodes. -/
lemma length_freeNodes_lt (h : Grows task p q) {s : NodeId} (hs : s ∈ freeNodes task p)
    (hlinked : q.dst? s ≠ none) : (freeNodes task q).length < (freeNodes task p).length := by
  have hsub := freeNodes_sublist h
  refine hsub.length_le.lt_of_ne fun hlen => hlinked ?_
  rw [← hsub.eq_of_length hlen] at hs
  exact (mem_freeNodes_iff.1 hs).2

/-! ### Links or nothing to do -/

/-- What comes of a computation that returns the number of its links.  Either there is nothing to
do, in the sense of `quiet`, and nothing happens; or there is, the pairing grows, and there are
fewer free source nodes. -/
inductive Effect (task : Task) (p : Pairing) (quiet : Prop) : ℕ → Pairing → Prop
  | idle (nothing : quiet) : Effect task p quiet 0 p
  | links {n : ℕ} {q : Pairing} (grows : Grows task p q)
      (fewer : (freeNodes task q).length < (freeNodes task p).length) (something : ¬quiet)
      (positive : 0 < n) : Effect task p quiet n q

namespace Effect

variable {A B C : Prop} {m n : ℕ}

/-- Whether it links something or not, the pairing grows. -/
lemma grows (h : Effect task p A n q) : Grows task p q := by
  cases h with
  | idle => exact .refl
  | links hgrows => exact hgrows

/-- **One computation after another.**  What there is to do for the second one matters only if the
first has changed nothing.

**Proof sketch.** If the first one is idle, the second one sets out from the same pairing, and what
is quiet for both is quiet for the whole.  If the first one links something, there was something to
do. -/
lemma append (h : Effect task p A m q) (h' : Effect task q B n r) (hC : C → A)
    (hquiet : q = p → A → (B ↔ C)) : Effect task p C (m + n) r := by
  cases h with
  | idle hA =>
    rw [Nat.zero_add]
    cases h' with
    | idle hB => exact .idle ((hquiet rfl hA).1 hB)
    | links hgrows hfewer hB hpos =>
      exact .links hgrows hfewer (fun hC => hB ((hquiet rfl hA).2 hC)) hpos
  | links hgrows hfewer hA hpos =>
    refine .links (hgrows.trans h'.grows) ?_ (fun hc => hA (hC hc)) (by omega)
    exact (freeNodes_sublist h'.grows).length_le.trans_lt hfewer

/-- Links cannot be undone by further ones: if the pairing is what it was, nothing has happened. -/
lemma idle_of_grows (h : Effect task p A n q) (hback : Grows task q p) : q = p ∧ A := by
  cases h with
  | idle hA => exact ⟨rfl, hA⟩
  | links _ hfewer =>
    have hle := (freeNodes_sublist hback).length_le
    omega

end Effect

/-! ### One pair of subtrees -/

/-- All pairs of the list are links. -/
def AllLinked (p : Pairing) (found : List (NodeId × NodeId)) : Prop :=
  ∀ y ∈ found, p.dst? y.1 = some y.2

/-- Aligned nodes are linked or both free. -/
lemma linked_or_free_of_mem_alignment {y : NodeId × NodeId} (h : y ∈ alignment task p x) :
    p.dst? y.1 = some y.2 ∨ (p.dst? y.1 = none ∧ p.src? y.2 = none) := by
  rw [alignment] at h
  split at h
  · cases h
  · exact (aligns_iff.1 (Alignment.of_mem_trace h).2.2).2

/-- Two nodes are linked if both are free.

**Proof sketch.** If both are free they can be linked, the destination node being a node of its
tree, since otherwise it would have had a partner before.  One source node less is free then. -/
lemma returns_linkCounting_effect {s d : NodeId} (hx : Anchored task p ⟨s, d⟩)
    (hk : task.src.sameKind task.dst s d = true) (hq : Grows task p q) :
    Returns (linkCounting s d) q (Effect task q (q.bothFree s d = false)) := by
  refine returns_pairing_bind ?_
  split
  · next hfree =>
    obtain ⟨hs, hd⟩ := Pairing.bothFree_iff.1 hfree
    -- a destination node that is no node of the tree has had a partner all the time
    have hdn : d ∈ task.dst.preOrder := by
      refine hx.2.resolve_right fun ⟨a, ha⟩ => ?_
      rw [hq.src? ha] at hd
      cases hd
    have hgrows : Grows task q (q.insert s d) := .link .refl hs hd hx.1 hdn hk
    have hfewer : (freeNodes task (q.insert s d)).length < (freeNodes task q).length :=
      length_freeNodes_lt hgrows (mem_freeNodes_iff.2 ⟨hx.1, hs⟩) (by simp [Pairing.dst?_insert])
    refine (returns_link hs hd rfl).bind (Q := fun _ r => r = q.insert s d) ?_
    rintro _ _ rfl
    exact returns_pure (.links hgrows hfewer (by simp [hfree]) Nat.one_pos)
  · next hfree => exact returns_pure (.idle (Bool.eq_false_iff.2 hfree))

/-- **Realigning two subtrees links something, unless all aligned nodes are linked.**

**Proof sketch.** Along the alignment, the effect so far is that of its first pairs.  A pair whose
nodes are both free is linked.  A pair that is aligned is linked or has a free source node; so if
nothing has been linked, all pairs so far are links. -/
lemma returns_realign_effect (hx : Anchored task p x) :
    Returns (realign task x) p (Effect task p (AllLinked p (alignment task p x))) := by
  refine returns_pairing_bind ?_
  refine returns_foldlM_prefix (I := fun done n q => Effect task p (AllLinked p done) n q)
    (.idle (by simp [AllLinked])) ?_
  rintro done ⟨s, d⟩ rest n q hsplit hq
  have hmem : (s, d) ∈ alignment task p x := by
    rw [hsplit]
    simp
  obtain ⟨hy, hk⟩ := anchored_of_mem_alignment hx hmem
  refine (returns_linkCounting_effect hy hk hq.grows).bind fun k r hr => returns_pure ?_
  refine hq.append hr (fun hall y hy => hall y (List.mem_append_left _ hy)) ?_
  rintro rfl hdone
  rw [Bool.eq_false_iff, Ne, Pairing.bothFree_iff]
  constructor
  · intro hfree y hy
    rcases List.mem_append.1 hy with hy | hy
    · exact hdone y hy
    · rw [List.mem_singleton.1 hy]
      exact (linked_or_free_of_mem_alignment hmem).resolve_right hfree
  · intro hall hfree
    have hlinked := hall (s, d) (by simp)
    rw [hfree.1] at hlinked
    cases hlinked

/-! ### One pass -/

/-- The destination node of a nearest linked ancestor is determined by the ancestor. -/
lemma anchor?_dst {n : NodeId} (h : anchor? task p n = some x) :
    x.dst = (p.dst? x.src).getD task.dst.root := by
  simp only [anchor?, Option.orElse_eq_orElse, Option.orElse_eq_or, Option.or_eq_some_iff] at h
  rcases h with h | ⟨hnone, h⟩
  · obtain ⟨a, -, h⟩ := List.exists_of_findSome?_eq_some h
    obtain ⟨b, hb, rfl⟩ := Option.map_eq_some_iff.1 h
    rw [hb, Option.getD_some]
  · obtain ⟨a, ha, rfl⟩ := Option.map_eq_some_iff.1 h
    have hfree := List.findSome?_eq_none_iff.1 hnone a (List.mem_of_getLast? ha)
    rw [Option.map_eq_none_iff.1 hfree, Option.getD_none]

/-- For the node `n` there is nothing to do: it has a partner, or it has no ancestor, or its nearest
linked ancestor has been visited, or all nodes that are aligned below that ancestor are linked. -/
def Quiet (task : Task) (p : Pairing) (visited : List NodeId) (n : NodeId) : Prop :=
  p.dst? n = none → ∀ x, anchor? task p n = some x → x.src ∉ visited →
    AllLinked p (alignment task p x)

/-- For a free node whose nearest linked ancestor is new, only the alignment below that ancestor
matters. -/
lemma quiet_iff {visited : List NodeId} {n : NodeId} (hfree : p.dst? n = none)
    (hx : anchor? task p n = some x) (hnew : x.src ∉ visited) :
    Quiet task p visited n ↔ AllLinked p (alignment task p x) := by
  refine ⟨fun h => h hfree x hx hnew, fun h _ y hy _ => ?_⟩
  rw [hx, Option.some.injEq] at hy
  rwa [← hy]

/-- **Dealing with a node links something, unless there is nothing to do for it.**  If its nearest
linked ancestor has been realigned, that ancestor counts as visited.

**Proof sketch.** The definition distinguishes whether the node is linked, whether it has a nearest
linked ancestor, and whether this has been visited.  Only if it is free and its ancestor has not
been visited there is something to do, and then `returns_realign_effect` applies. -/
lemma returns_consider_effect (hq : q.OneToOne) (visited : List NodeId) (added : ℕ) (n : NodeId) :
    Returns (consider task visited added n) q fun state r => ∃ k, state.2 = added + k ∧
      Effect task q (Quiet task q visited n) k r ∧
      ∀ a ∈ state.1, a ∈ visited ∨
        ∃ x, q.dst? n = none ∧ anchor? task q n = some x ∧ x.src ∉ visited ∧ x.src = a := by
  refine returns_pairing_bind ?_
  split
  · next hlinked =>
    refine returns_pure ⟨0, rfl, .idle fun hfree => ?_, fun _ => .inl⟩
    rw [Pairing.hasSrc, hfree] at hlinked
    cases hlinked
  · next hlinked =>
    have hfree : q.dst? n = none := by simpa [Pairing.hasSrc] using hlinked
    split
    · next hnone =>
      refine returns_pure ⟨0, rfl, .idle fun _ x hx => ?_, fun _ => .inl⟩
      rw [hnone] at hx
      cases hx
    · next x hx =>
      split
      · next hvisited =>
        refine returns_pure ⟨0, rfl, .idle fun _ y hy hnew => ?_, fun _ => .inl⟩
        rw [hx, Option.some.injEq] at hy
        exact absurd (hy ▸ List.contains_iff_mem.1 hvisited) hnew
      · -- the only case in which there is something to do
        next hnew =>
        rw [List.contains_iff_mem] at hnew
        refine (returns_realign_effect (anchored_of_anchor? hq hx)).bind fun k r hr => ?_
        rw [← quiet_iff hfree hx hnew] at hr
        refine returns_pure ⟨k, rfl, hr, fun a ha => ?_⟩
        rcases List.mem_cons.1 ha with rfl | ha
        · exact .inr ⟨x, hfree, hx, hnew, rfl⟩
        · exact .inl ha

/-- The visited ancestors need no more attention as long as the pairing is the same. -/
def Visited (task : Task) (p : Pairing) (visited : List NodeId) : Prop :=
  ∀ a ∈ visited, AllLinked p (alignment task p ⟨a, (p.dst? a).getD task.dst.root⟩)

/-- For the nodes of the list there is nothing to do, whatever has been visited. -/
def Settled (task : Task) (p : Pairing) (nodes : List NodeId) : Prop :=
  ∀ n ∈ nodes, Quiet task p [] n

/-- Visited ancestors make no difference. -/
lemma quiet_iff_of_visited {visited : List NodeId} {n : NodeId} (h : Visited task p visited) :
    Quiet task p visited n ↔ Quiet task p [] n := by
  refine ⟨fun hquiet hfree x hx _ => ?_, fun hquiet hfree x hx _ => hquiet hfree x hx (by simp)⟩
  by_cases hmem : x.src ∈ visited
  · have hlinked := h x.src hmem
    rwa [← anchor?_dst hx] at hlinked
  · exact hquiet hfree x hx hmem

/-- **A pass links something, unless there is nothing to do for any free node.**

**Proof sketch.** As long as the pass has made no link, it looks at every node with the pairing with
which it began.  An ancestor that is passed over because it has been visited was realigned with that
same pairing, and all its aligned nodes were linked.  From the first link on it only matters that
there was something to do. -/
theorem returns_pass_effect (hp : p.OneToOne) :
    Returns (pass task) p (Effect task p (Settled task p (freeNodes task p))) := by
  have hfold : Returns ((freeNodes task p).foldlM (fun state n => consider task state.1 state.2 n)
      ([], 0)) p fun state q => Effect task p (Settled task p (freeNodes task p)) state.2 q ∧
        (q = p → Visited task p state.1) := by
    refine returns_foldlM_prefix (I := fun done (state : List NodeId × ℕ) q =>
      Effect task p (Settled task p done) state.2 q ∧ (q = p → Visited task p state.1))
      ⟨.idle (by simp [Settled]), fun _ => by simp [Visited]⟩ ?_
    rintro done n rest ⟨visited, added⟩ q - ⟨hq, hvisited⟩
    refine (returns_consider_effect (hq.grows.oneToOne hp) visited added n).mono ?_
    rintro ⟨visited', added'⟩ r ⟨k, rfl, hr, hnew⟩
    refine ⟨hq.append hr ?_ ?_, fun hback => ?_⟩
    · exact fun hall m hm => hall m (List.mem_append_left _ hm)
    · rintro rfl hdone
      rw [quiet_iff_of_visited (hvisited rfl)]
      refine ⟨fun hquiet m hm => ?_, fun hall => hall n (by simp)⟩
      rcases List.mem_append.1 hm with hm | hm
      · exact hdone m hm
      · rwa [List.mem_singleton.1 hm]
    · subst hback
      obtain ⟨rfl, -⟩ := hq.idle_of_grows hr.grows
      obtain ⟨-, hquiet⟩ := hr.idle_of_grows .refl
      intro a ha
      rcases hnew a ha with ha | ⟨x, hfree, hx, hxnew, rfl⟩
      · exact hvisited rfl a ha
      · rw [← anchor?_dst hx]
        exact hquiet hfree x hx hxnew
  exact returns_pairing_bind (hfold.bind fun state q hq => returns_pure hq.1)

/-! ### All passes -/

/-- Passes are made until one links nothing: started in the state `s` there are `n` of them, and
they end in the state `t`.  There is no limit to their number. -/
inductive EndsAfter (task : Task) : Progress → ℕ → Progress → Prop
  | last {s t : Progress} (idle : (pass task).run s = .ok 0 t) : EndsAfter task s 1 t
  | again {s t u : Progress} {added n : ℕ} (links : (pass task).run s = .ok added t)
      (positive : 0 < added) (rest : EndsAfter task t n u) : EndsAfter task s (n + 1) u

/-- If passes end within the limit, they are what the stage does. -/
lemma EndsAfter.run_passes {s t : Progress} {n limit : ℕ} (h : EndsAfter task s n t)
    (hlimit : n ≤ limit) : (passes task limit).run s = .ok n t := by
  induction h generalizing limit with
  | last hidle =>
    obtain ⟨limit, rfl⟩ := Nat.exists_eq_add_of_le' hlimit
    rw [passes, EStateM.run_bind, hidle]
    rfl
  | @again s t u added n hlinks hpos _ ih =>
    obtain ⟨limit, rfl⟩ := Nat.exists_eq_add_of_le' (Nat.le_of_add_left_le hlimit)
    rw [passes, EStateM.run_bind, hlinks]
    dsimp only
    rw [if_neg hpos.ne', EStateM.run_bind, ih (by omega)]
    rfl

variable (task) in
/-- **The passes come to an end**, after at most one more than there are free source nodes, and then
there is nothing left to do.

**Proof sketch.** Induction on the number of free source nodes, which every pass but the last makes
smaller. -/
theorem exists_endsAfter (hp : p.OneToOne) (k : ℕ) :
    ∃ n q m, n ≤ (freeNodes task p).length + 1 ∧ EndsAfter task ⟨p, k⟩ n ⟨q, m⟩ ∧
      q.OneToOne ∧ Settled task q (freeNodes task q) := by
  induction hfree : (freeNodes task p).length using Nat.strong_induction_on generalizing p k with
  | _ free ih =>
    have hpass : Returns (pass task) p _ := returns_pass_effect hp
    obtain ⟨added, q, m, hrun, heffect⟩ := hpass k
    cases heffect with
    | idle hsettled => exact ⟨1, p, m, by omega, .last hrun, hp, hsettled⟩
    | links hgrows hfewer _ hpos =>
      obtain ⟨n, r, l, hn, hrest, hr⟩ := ih _ (hfree ▸ hfewer) (hgrows.oneToOne hp) m rfl
      exact ⟨n + 1, r, l, by omega, .again hrun hpos hrest, hr⟩

/-- The stage makes passes until one links nothing. -/
lemma EndsAfter.perform {n m : ℕ} (h : EndsAfter task ⟨p, 0⟩ n ⟨q, m⟩)
    (hn : n ≤ (freeNodes task p).length + 1) :
    Stage.realign.perform task p = ⟨q, m, none⟩ := by
  have hrun : (run task).run ⟨p, 0⟩ = .ok () ⟨q, m⟩ := by
    change ((passes task ((freeNodes task p).length + 1)) >>= fun _ => pure ()).run ⟨p, 0⟩ = _
    rw [EStateM.run_bind, h.run_passes hn]
    rfl
  rw [Stage.perform, Stage.run, Matching.perform, hrun]

/-- Where nothing is left to do, one pass suffices, and nothing happens. -/
lemma endsAfter_of_settled (hq : q.OneToOne) (hsettled : Settled task q (freeNodes task q)) :
    ∃ m, EndsAfter task ⟨q, 0⟩ 1 ⟨q, m⟩ := by
  have hpass : Returns (pass task) q _ := returns_pass_effect hq
  obtain ⟨added, r, m, hrun, heffect⟩ := hpass 0
  cases heffect with
  | idle => exact ⟨m, .last hrun⟩
  | links _ _ hsomething => exact absurd hsettled hsomething

/-! ### Aligned subtrees -/

/-- There are subtrees to be realigned for every node with a parent. -/
lemma exists_anchor? {n : NodeId} (h : (task.src.parent? n).isSome = true) :
    ∃ x, anchor? task p n = some x := by
  have hlast : (task.src.ancestors n).getLast?.isSome = true := by
    rw [List.getLast?_isSome]
    exact Tree.ancestors_ne_nil h
  rw [← Option.isSome_iff_exists, anchor?, Option.orElse_eq_orElse, Option.orElse_eq_or,
    Option.isSome_or, Option.isSome_map, hlast, Bool.or_true]

/-- **Subtrees within the limit are aligned as far as possible.**  A number that is no node of the
destination tree is aligned with nothing, whatever the limit.

**Proof sketch.** Beyond the limit nothing is aligned.  This only happens if the destination number
is no node of the tree, and then no two nodes can be aligned.  Within the limit the alignment is
computed by the table, which gives a longest one. -/
lemma isLongest_alignment (hx : x.src ∈ task.src.preOrder)
    (hsize : task.src.size x.src * task.dst.size x.dst ≤ task.settings.cellLimit) :
    Alignment.IsLongest (aligns task p) (task.src.subtreePostOrder x.src)
      (task.dst.subtreePostOrder x.dst) (alignment task p x).reverse := by
  simp only [alignment]
  split
  · next hlimit =>
    have hd : x.dst ∉ task.dst.preOrder := by
      intro hd
      rw [Tree.length_subtreePostOrder hx, Tree.length_subtreePostOrder hd] at hlimit
      omega
    refine ⟨⟨by simp, by simp, by simp⟩, fun ys hys => ?_⟩
    cases ys with
    | nil => simp
    | cons y ys =>
      have hy := (hys.entries y (by simp)).2
      rw [Tree.subtreePostOrder_perm.mem_iff, Tree.descendants_of_notMem hd,
        List.mem_singleton] at hy
      have hkind := Tree.sameKind_iff.1 (aligns_iff.1 (hys.fits y (by simp))).1
      exact absurd (hy ▸ hkind.2.1) hd
  · exact Alignment.isLongest_longest _ Tree.nodup_subtreePostOrder Tree.nodup_subtreePostOrder

end Realign

/-- **Realignment ends with linked alignments.**  Run on any one-to-one pairing, the stage does not
fail.  It makes passes until one links nothing, and there is at most one pass more than there are
free source nodes at the beginning.  Run again it adds nothing.  On the pairing it leaves, every
free source node with a parent has a nearest linked ancestor, with the root standing in; and if the
subtrees at the ancestor and its partner are within the limit, some longest alignment of their nodes
in post-order consists of links.

**Proof sketch.** Every pass but the last one links a free source node, which bounds their number.
After a pass that links nothing, all nodes are quiet: the alignment at the nearest linked ancestor
of a free node consists of links.  Another run begins with such a pass and ends with it. -/
theorem realignment_ends_with_linked_alignments (task : Task) (p : Pairing)
    (hone : p.isOneToOne = true) :
    let o := Stage.realign.perform task p
    let q := o.pairing
    o.fault = none ∧
      (∃ n ≤ (Realign.freeNodes task p).length + 1,
        Realign.EndsAfter task ⟨p, 0⟩ n ⟨q, o.evaluations⟩) ∧
      (Stage.realign.perform task q).fault = none ∧
      (Stage.realign.perform task q).pairing = q ∧
      ∀ a ∈ task.src.preOrder, q.hasSrc a = false → (task.src.parent? a).isSome = true →
        ∃ x, Realign.anchor? task q a = some x ∧
          (task.src.size x.src * task.dst.size x.dst ≤ task.settings.cellLimit →
            ∃ xs, Alignment.IsLongest (Realign.aligns task q) (task.src.subtreePostOrder x.src)
              (task.dst.subtreePostOrder x.dst) xs ∧ ∀ z ∈ xs, q.has z.1 z.2 = true) := by
  intro o q
  have hp : p.OneToOne := Pairing.isOneToOne_iff.1 hone
  obtain ⟨n, r, m, hn, hends, hr, hsettled⟩ := Realign.exists_endsAfter task hp 0
  obtain ⟨m', hagain⟩ := Realign.endsAfter_of_settled hr hsettled
  have ho : o = ⟨r, m, none⟩ := hends.perform hn
  have hq : q = r := congrArg Outcome.pairing ho
  have ho' : Stage.realign.perform task q = ⟨q, m', none⟩ := by
    rw [hq]
    exact hagain.perform (Nat.le_add_left 1 _)
  refine ⟨by rw [ho], ⟨n, hn, by rw [hq, ho]; exact hends⟩, by rw [ho'], by rw [ho'], ?_⟩
  intro a ha hfree hparent
  obtain ⟨x, hx⟩ := Realign.exists_anchor? (p := q) hparent
  refine ⟨x, hx, fun hsize => ⟨_, Realign.isLongest_alignment ?_ hsize, fun z hz => ?_⟩⟩
  · exact (Realign.anchored_of_anchor? (hq ▸ hr) hx).1
  · have hfree' : q.dst? a = none := by simpa [Pairing.hasSrc] using hfree
    rw [← hq] at hsettled
    have hlinked := hsettled a (Realign.mem_freeNodes_iff.2 ⟨ha, hfree'⟩) hfree' x hx (by simp)
    exact Pairing.has_iff.2 (hlinked z (List.mem_reverse.1 hz))

/-- A leaf under each of two linked roots.  The roots are of different kinds, so the longest
alignment of the two trees is that of the leaves, and it consists of links: the leaf is linked. -/
theorem leaf_below_linked_roots_is_linked :
    let src : Tree := .ofContents ⟨(⟨0⟩, "r"), .leaf (⟨2⟩, "x")⟩
    let dst : Tree := .ofContents ⟨(⟨1⟩, "s"), .leaf (⟨2⟩, "y")⟩
    let task : Task := { src, dst }
    let p := Pairing.empty.insert 1 1
    p.isOneToOne = true ∧ (Stage.realign.perform task p).pairing.hasSrc 2 = true := by
  intro src dst task p
  have hone : p.isOneToOne = true := by decide +kernel
  refine ⟨hone, ?_⟩
  obtain ⟨-, -, -, -, hlinked⟩ := realignment_ends_with_linked_alignments task p hone
  have hgrows : Grows task p (Stage.realign.perform task p).pairing :=
    (Realign.onlyAdds_run p (Pairing.isOneToOne_iff.1 hone)).perform.2
  generalize (Stage.realign.perform task p).pairing = q at hlinked hgrows ⊢
  by_contra hfree
  rw [Bool.not_eq_true] at hfree
  obtain ⟨x, hx, hlongest⟩ := hlinked 2 (by decide +kernel) hfree (by decide +kernel)
  have hroot : q.dst? 1 = some 1 := hgrows.dst? (by decide +kernel)
  have habove : task.src.ancestors 2 = [1] := by decide +kernel
  obtain rfl : x = ⟨1, 1⟩ := by simpa [Realign.anchor?, habove, hroot] using hx.symm
  obtain ⟨xs, hxs, hall⟩ := hlongest (by decide +kernel)
  have hkinds : ∀ a ∈ task.src.preOrder, ∀ b ∈ task.dst.preOrder,
      task.src.kind a = task.dst.kind b → a = 2 ∧ b = 2 := by decide +kernel
  -- the leaves are free, for nothing but the one could have been linked to the other
  have hfree' : q.dst? 2 = none := by simpa [Pairing.hasSrc] using hfree
  have hdst : q.src? 2 = none := by
    refine Option.eq_none_iff_forall_ne_some.2 fun s hs => ?_
    have hs' : q.dst? s = some 2 := (hgrows.oneToOne (Pairing.isOneToOne_iff.1 hone) s 2).2 hs
    rcases hgrows.old_or_new hs' with hold | ⟨-, hsn, hdn, hk⟩
    · have hp : p.src? 2 = some s := (Pairing.isOneToOne_iff.1 hone s 2).1 hold
      have hnone : p.src? 2 = none := by decide +kernel
      rw [hnone] at hp
      cases hp
    · obtain ⟨rfl, -⟩ := hkinds s hsn 2 hdn (Tree.sameKind_iff.1 hk).2.2
      rw [hfree'] at hs'
      cases hs'
  have hleaves : Realign.aligns task q 2 2 = true :=
    Realign.aligns_iff.2 ⟨by decide +kernel, .inr ⟨hfree', hdst⟩⟩
  have hsome : 1 ≤ xs.length := by
    refine hxs.longest [(2, 2)] ⟨?_, by simpa using hleaves, by simp⟩
    simp only [List.mem_singleton, forall_eq, Tree.subtreePostOrder_perm.mem_iff]
    decide +kernel
  obtain ⟨z, hz⟩ := List.exists_mem_of_length_pos hsome
  obtain ⟨hs, hd, hk⟩ := Tree.sameKind_iff.1 (Realign.aligns_iff.1 (hxs.fits z hz)).1
  have hlink := Pairing.has_iff.1 (hall z hz)
  rw [(hkinds z.1 hs z.2 hd hk).1, hfree'] at hlink
  cases hlink

end TreeMatching
