import Mathlib.Data.Set.Defs
import TreeMatching.Proofs.LeafProgress

set_option autoImplicit false

/-!
# Crossed leaves

Two linked nodes have the same leaves as children, in another order, and the leaves are linked among
each other in any way.  Leaf moves link each of them to its like, whatever else is in the pairing.

## Main definitions

* `Shuffled` — the children of two nodes are the same leaves in another order.
* `LeafMoves.Planned` — a link that is there or queued.
* `LeafMoves.Interlinked` — the children of two nodes are linked among each other.
* `LeafMoves.Astray` — a set of children that are linked to the likes of each other.
* `LeafMoves.Watched` — every such set has a pair that is still to be dealt with.
* `LeafMoves.unsettled` — the children that are linked to unlike nodes.
* `Pairing.settledCount` — the number of children that are linked to a node with the same label.

## Main results

* `LeafMoves.Interlinked.move`, `LeafMoves.Round.interlinked` — a move and a round keep the children
  linked among each other.
* `LeafMoves.Dealt.exists_queued_of_kept` — if a pair is kept, the like of its destination node has
  been given a new partner.
* `LeafMoves.Round.watched` — a round leaves no set of children unattended.
* `LeafMoves.Round.settledCount_lt` — a round puts a child right, unless all are.
* `crossed_leaves_find_their_likes` — in the end all children are linked to their likes.

## Design

Siblings are first looked for below the partners of parents, which may have been linked to anything
by then; of these rounds we only show that the children stay among themselves.  The work is done
when siblings are looked for below the parents of the leaves.  The links of the children are a
permutation of their labels.  A pair of a round may be passed over, and then it is not looked at
again.  This happens only if the like of its destination node is about to get another partner, and
so the cycle it belongs to is not forgotten.
-/

namespace TreeMatching

open Matching

/-! ### The same leaves in another order -/

/-- The children of `u` and those of `v` are the same leaves in another order, with a different
label for each. -/
structure Shuffled (task : Task) (u v : NodeId) : Prop where
  srcLeaves : ∀ c ∈ task.src.children u, task.src.isLeaf c = true
  dstLeaves : ∀ d ∈ task.dst.children v, task.dst.isLeaf d = true
  distinct : ((task.src.children u).map task.src.label).Nodup
  contents : ((task.src.children u).map fun c => (task.src.kind c, task.src.label c)).Perm
    ((task.dst.children v).map fun d => (task.dst.kind d, task.dst.label d))

namespace Shuffled

variable {task : Task} {u v a b c d s : NodeId} (h : Shuffled task u v)

include h

/-- The children of the source node are told apart by their labels. -/
lemma src_ext (ha : a ∈ task.src.children u) (hb : b ∈ task.src.children u)
    (hlabel : task.src.label a = task.src.label b) : a = b :=
  List.inj_on_of_nodup_map h.distinct ha hb hlabel

/-- The children of the destination node are told apart by their labels, which are the same. -/
lemma dst_ext (ha : a ∈ task.dst.children v) (hb : b ∈ task.dst.children v)
    (hlabel : task.dst.label a = task.dst.label b) : a = b := by
  have hperm : ((task.src.children u).map task.src.label).Perm
      ((task.dst.children v).map task.dst.label) := by
    have := h.contents.map Prod.snd
    rwa [List.map_map, List.map_map] at this
  exact List.inj_on_of_nodup_map (hperm.nodup_iff.1 h.distinct) ha hb hlabel

/-- Every child on the one side has its like on the other. -/
lemma exists_like (hd : d ∈ task.dst.children v) :
    ∃ s ∈ task.src.children u, task.src.sameContent task.dst s d = true := by
  have hmem := h.contents.mem_iff.2
    (List.mem_map_of_mem (f := fun d => (task.dst.kind d, task.dst.label d)) hd)
  obtain ⟨s, hs, heq⟩ := List.mem_map.1 hmem
  obtain ⟨hkind, hlabel⟩ := Prod.mk.injEq .. ▸ heq
  refine ⟨s, hs, Bool.and_eq_true_iff.2 ⟨Tree.sameKind_iff.2 ?_, beq_iff_eq.2 hlabel⟩⟩
  exact ⟨Tree.mem_preOrder_of_mem_children hs, Tree.mem_preOrder_of_mem_children hd, hkind⟩

/-- Children with the same label are of the same kind. -/
lemma kind_eq (hc : c ∈ task.src.children u) (hd : d ∈ task.dst.children v)
    (hlabel : task.src.label c = task.dst.label d) : task.src.kind c = task.dst.kind d := by
  obtain ⟨s, hs, hsame⟩ := h.exists_like hd
  obtain ⟨hkind, hlabel'⟩ := Bool.and_eq_true_iff.1 hsame
  have heq : s = c := h.src_ext hs hc ((beq_iff_eq.1 hlabel').trans hlabel.symm)
  exact heq ▸ (Tree.sameKind_iff.1 hkind).2.2

/-- The like of a child is the only look-alike there is.

**Proof sketch.** A child with the kind and the label of `d` has the label of `s`, and the labels of
the children are distinct, so it is `s`.  The filter therefore leaves `s` alone. -/
lemma lookAlike?_eq (hs : s ∈ task.src.children u)
    (hsame : task.src.sameContent task.dst s d = true) (position : Nat) :
    LeafMoves.lookAlike? task.src u position task.dst d = some s := by
  have honly : ∀ c ∈ task.src.children u,
      task.src.sameContent task.dst c d = true ↔ (c == s) = true := by
    intro c hc
    rw [beq_iff_eq]
    constructor
    · intro hc'
      have hlabel := Tree.sameLabel_of_sameContent hc'
      have hlabel' := Tree.sameLabel_of_sameContent hsame
      exact h.src_ext hc hs ((beq_iff_eq.1 hlabel).trans (beq_iff_eq.1 hlabel').symm)
    · rintro rfl
      exact hsame
  -- the children are told apart by their labels, so the filter keeps one of them
  have hfilter :
      ((task.src.children u).filter fun c => task.src.sameContent task.dst c d) = [s] := by
    rw [List.filter_congr fun c hc => Bool.eq_iff_iff.2 (honly c hc), List.filter_beq,
      List.count_eq_one_of_mem (List.Nodup.of_map _ h.distinct) hs, List.replicate_one]
  unfold LeafMoves.lookAlike?
  rw [hfilter]

end Shuffled

namespace LeafMoves

variable {task : Task} {anchor : Anchor} {u v s d : NodeId} {p q r : Pairing}
  {seen queue work next : List Pair} {x parents : Pair} {c : Change}

/-- The nodes of an unlike pair have no children. -/
lemma leaves_of_isUnlike (h : isUnlike task x = true) :
    task.src.children x.src = [] ∧ task.dst.children x.dst = [] := by
  simp only [isUnlike, Bool.and_eq_true] at h
  exact ⟨Tree.children_eq_nil_of_isLeaf h.1.1, Tree.children_eq_nil_of_isLeaf h.1.2⟩

/-- The parents below which the siblings of a pair are looked for. -/
lemma anchors?_eq_some_iff :
    anchors? task q anchor x = some parents ↔ x.src ∈ task.src.children parents.src ∧
      match anchor with
      | .mappedParent => q.dst? parents.src = some parents.dst
      | .ownParent => x.dst ∈ task.dst.children parents.dst := by
  obtain ⟨a, b⟩ := parents
  cases anchor <;>
  simp only [anchors?, Option.bind_eq_bind, Option.bind_eq_some_iff, Option.pure_def,
    Option.some.injEq, Pair.mk.injEq, Tree.mem_children_iff] <;>
  constructor
  · rintro ⟨_, ha, _, hb, rfl, rfl⟩
    exact ⟨ha, hb⟩
  · exact fun h => ⟨a, h.1, b, h.2, rfl, rfl⟩
  · rintro ⟨_, ha, _, hb, rfl, rfl⟩
    exact ⟨ha, hb⟩
  · exact fun h => ⟨a, h.1, b, h.2, rfl, rfl⟩

/-! ### Children that stay among themselves -/

/-- The link is there, or it is queued. -/
def Planned (q : Pairing) (queue : List Pair) (s d : NodeId) : Prop :=
  q.dst? s = some d ∨ ⟨s, d⟩ ∈ queue

/-- If nothing is queued, the planned links are those that are there. -/
lemma planned_nil : Planned p [] s d ↔ p.dst? s = some d := by
  simp [Planned]

/-- A move plans what it makes. -/
lemma planned_of_mem_made (h : ⟨s, d⟩ ∈ c.made) :
    Planned (q.eraseAll c.undone) (queue ++ c.made) s d :=
  .inr (List.mem_append_right _ h)

section Moves

variable (hlinked : ∀ z ∈ c.undone, q.dst? z.src = some z.dst)

include hlinked

/-- Nothing else is planned after a move than before. -/
lemma planned_or_mem_made (h : Planned (q.eraseAll c.undone) (queue ++ c.made) s d) :
    Planned q queue s d ∨ ⟨s, d⟩ ∈ c.made := by
  rcases h with h | h
  · exact .inl (.inl ((Pairing.dst?_eraseAll_eq_some_iff hlinked).1 h).1)
  · exact (List.mem_append.1 h).imp_left .inr

/-- What a move does not undo remains planned. -/
lemma Planned.of_notMem_undone (h : Planned q queue s d) (hnew : ⟨s, d⟩ ∉ c.undone) :
    Planned (q.eraseAll c.undone) (queue ++ c.made) s d := by
  rcases h with h | h
  · exact .inl ((Pairing.dst?_eraseAll_eq_some_iff hlinked).2 ⟨h, hnew⟩)
  · exact .inr (List.mem_append_left _ h)

end Moves

/-- The children of `u` and `v` are linked among each other, or will be.  Nodes with children are
linked to each other only if they are `u` and `v` or none of the two. -/
structure Interlinked (task : Task) (u v : NodeId) (q : Pairing) (queue : List Pair) : Prop where
  within : ∀ s d, Planned q queue s d → (s ∈ task.src.children u ↔ d ∈ task.dst.children v)
  srcs : ∀ s ∈ task.src.children u, ∃ d, Planned q queue s d
  dsts : ∀ d ∈ task.dst.children v, ∃ s, Planned q queue s d
  parents : ∀ s d, Planned q queue s d →
    (s = u ↔ d = v) ∨ task.src.children s = [] ∨ task.dst.children d = []

/-- This is so if `u` and `v` are linked and so are their children, one-to-one.

**Proof sketch.** Nothing is queued, so what is planned are the links of `p`.  The permutation says
that the partners of the children of `u` are the children of `v`, each once; hence a link with one
end inside has both there.  The link of `u` itself joins the two parents. -/
lemma interlinked_of_linked (hp : p.OneToOne) (hlinked : p.dst? u = some v)
    (honto : ((task.src.children u).map p.dst?).Perm ((task.dst.children v).map some)) :
    Interlinked task u v p [] where
  within s d hsd := by
    rw [planned_nil] at hsd
    constructor
    · intro hs
      have hmem := honto.mem_iff.1 (List.mem_map_of_mem hs)
      rw [hsd] at hmem
      exact (List.mem_map_of_injective (Option.some_injective _)).1 hmem
    · intro hd
      obtain ⟨c, hc, hcd⟩ := List.mem_map.1 (honto.mem_iff.2 (List.mem_map_of_mem hd))
      exact hp.src_inj hcd hsd ▸ hc
  srcs s hs := by
    obtain ⟨d, -, hd⟩ := List.mem_map.1 (honto.mem_iff.1 (List.mem_map_of_mem hs))
    exact ⟨d, planned_nil.2 hd.symm⟩
  dsts d hd := by
    obtain ⟨s, -, hs⟩ := List.mem_map.1 (honto.mem_iff.2 (List.mem_map_of_mem hd))
    exact ⟨s, planned_nil.2 hs⟩
  parents s d hsd := by
    rw [planned_nil] at hsd
    refine .inl ⟨?_, ?_⟩
    · rintro rfl
      exact Option.some.inj (hsd.symm.trans hlinked)
    · rintro rfl
      exact hp.src_inj hsd hlinked

namespace Interlinked

variable (h : Interlinked task u v q queue)

include h

/-- A free child of `u` is about to be linked. -/
lemma exists_queued_of_free_src (hs : s ∈ task.src.children u) (hfree : q.dst? s = none) :
    ∃ d, ⟨s, d⟩ ∈ queue := by
  obtain ⟨d, hd | hd⟩ := h.srcs s hs
  · rw [hfree] at hd
    cases hd
  · exact ⟨d, hd⟩

/-- A free child of `v` is about to be linked. -/
lemma exists_queued_of_free_dst (hq : q.OneToOne) (hd : d ∈ task.dst.children v)
    (hfree : q.src? d = none) : ∃ s, ⟨s, d⟩ ∈ queue := by
  obtain ⟨s, hs | hs⟩ := h.dsts d hd
  · rw [hq, hfree] at hs
    cases hs
  · exact ⟨s, hs⟩

/-- **A pair and the siblings that are looked at for it** are all of them children of `u` and `v`,
or none is.

**Proof sketch.** On the source side, the parent of the pair is `u` or is not, and its children are
then inside or outside.  On the destination side, the parent is either the partner of that parent,
and links join `u` to `v` only, or the parent of `x.dst`, which is inside exactly if `x.src` is. -/
theorem anchored (hx : q.dst? x.src = some x.dst)
    (hanchors : anchors? task q anchor x = some parents) :
    (∀ s ∈ task.src.children parents.src,
      s ∈ task.src.children u ↔ x.src ∈ task.src.children u) ∧
    ∀ d ∈ task.dst.children parents.dst,
      d ∈ task.dst.children v ↔ x.src ∈ task.src.children u := by
  obtain ⟨hsrc, hdst⟩ := anchors?_eq_some_iff.1 hanchors
  refine ⟨fun s hs => ?_, fun d hd => ?_⟩
  · rw [Tree.mem_children_iff_of_mem hs, Tree.mem_children_iff_of_mem hsrc]
  · cases anchor with
    | mappedParent =>
      rw [Tree.mem_children_iff_of_mem hd, Tree.mem_children_iff_of_mem hsrc]
      -- both parents have children, so their link does not lead away from `u` and `v`
      rcases h.parents _ _ (.inl hdst) with hiff | hnil | hnil
      · exact hiff.symm
      · rw [hnil] at hsrc
        cases hsrc
      · rw [hnil] at hd
        cases hd
    | ownParent =>
      rw [h.within _ _ (.inl hx), Tree.mem_children_iff_of_mem hd,
        Tree.mem_children_iff_of_mem hdst]

section Move

variable (hx : q.dst? x.src = some x.dst) (hanchors : anchors? task q anchor x = some parents)
  (hmoves : c.Moves task q parents x)

include hx hanchors hmoves

/-- **The links that a move undoes and makes are inside if that of the pair is inside**, and outside
if it is outside.

**Proof sketch.** In an exchange, one end of the other link is among the siblings that are looked
at, hence on the same side as the pair; so is its other end, because links do not lead from inside
to outside.  In a shift, each new link joins an end of the pair to such a sibling. -/
theorem moved_within {z : Pair} (hz : z ∈ c.undone ∨ z ∈ c.made) :
    (z.src ∈ task.src.children u ↔ x.src ∈ task.src.children u) ∧
      (z.dst ∈ task.dst.children v ↔ x.src ∈ task.src.children u) := by
  obtain ⟨hsrcs, hdsts⟩ := h.anchored hx hanchors
  have hxdst := (h.within _ _ (.inl hx)).symm
  cases hmoves with
  | @exchange s d made hlinked _ _ _ halike hperm =>
    have hiff := h.within s d (.inl hlinked)
    have hs : s ∈ task.src.children u ↔ x.src ∈ task.src.children u := by
      rcases halike with ⟨hs, -⟩ | ⟨hd, -⟩
      · exact hsrcs s hs
      · exact hiff.trans (hdsts d hd)
    have hd := hiff.symm.trans hs
    rw [hperm.mem_iff] at hz
    simp only [List.mem_cons, List.not_mem_nil, or_false] at hz
    rcases hz with (rfl | rfl) | rfl | rfl
    · exact ⟨Iff.rfl, hxdst⟩
    · exact ⟨hs, hd⟩
    · exact ⟨Iff.rfl, hd⟩
    · exact ⟨hs, hxdst⟩
  | shift s? d? hs hd _ hperm =>
    rw [hperm.mem_iff] at hz
    simp only [List.mem_singleton, List.mem_append, Option.mem_toList, Option.map_eq_some_iff] at hz
    rcases hz with rfl | ⟨d, hd?, rfl⟩ | ⟨s, hs?, rfl⟩
    · exact ⟨Iff.rfl, hxdst⟩
    · exact ⟨Iff.rfl, hdsts d (hd d hd?).1⟩
    · exact ⟨hsrcs s (hs s hs?).1, hxdst⟩

variable (hq : q.OneToOne) (hadm : c.admissible queue = true)

include hq hadm

/-- Inside, partners are exchanged: nobody is free there who is not about to be linked.

**Proof sketch.** An exchange frees four nodes and links the same four.  A shift would link a free
child of `u` or `v`.  But all children have a link that is made or planned, so the free child is
queued, and then the shift is not admissible. -/
lemma made_covers (hin : x.src ∈ task.src.children u) :
    ∀ z ∈ c.undone, (∃ y ∈ c.made, y.src = z.src) ∧ ∃ y ∈ c.made, y.dst = z.dst := by
  obtain ⟨hsrcs, hdsts⟩ := h.anchored hx hanchors
  rw [Change.admissible_iff] at hadm
  cases hmoves with
  | @exchange s d made _ _ _ _ _ hperm =>
    have hleft : ⟨x.src, d⟩ ∈ made := hperm.mem_iff.2 (by simp)
    have hright : ⟨s, x.dst⟩ ∈ made := hperm.mem_iff.2 (by simp)
    intro z hz
    simp only [List.mem_cons, List.not_mem_nil, or_false] at hz
    rcases hz with rfl | rfl
    · exact ⟨⟨_, hleft, rfl⟩, _, hright, rfl⟩
    · exact ⟨⟨_, hright, rfl⟩, _, hleft, rfl⟩
  | shift s? d? hs hd hsome hperm =>
    -- a shift would link a free child, but all free children are queued
    exfalso
    obtain ⟨z, hz⟩ := List.exists_mem_of_ne_nil _ hsome
    have hmem := hperm.mem_iff.1 hz
    simp only [List.mem_append, Option.mem_toList, Option.map_eq_some_iff] at hmem
    rcases hmem with ⟨d, hd?, rfl⟩ | ⟨s, hs?, rfl⟩
    · obtain ⟨hchild, hfree, -⟩ := hd d hd?
      obtain ⟨s', hs'⟩ := h.exists_queued_of_free_dst hq ((hdsts d hchild).2 hin) hfree
      exact (hadm _ hz _ hs').2 rfl
    · obtain ⟨hchild, hfree, -⟩ := hs s hs?
      obtain ⟨d', hd'⟩ := h.exists_queued_of_free_src ((hsrcs s hchild).2 hin) hfree
      exact (hadm _ hz _ hd').1 rfl

/-- **A move keeps the children linked among each other.**

**Proof sketch.** Each field is proved for the links that stay and for those that are made.  Those
that are made have both ends on the side of the pair.  If a link of a child is undone, the pair is
inside and the move links both of its ends again. -/
theorem move (hunlike : isUnlike task x = true) :
    Interlinked task u v (q.eraseAll c.undone) (queue ++ c.made) where
  within s d hsd := by
    rcases planned_or_mem_made (hmoves.linked hx) hsd with hsd | hsd
    · exact h.within s d hsd
    · obtain ⟨hs, hd⟩ := h.moved_within hx hanchors hmoves (.inr hsd)
      exact hs.trans hd.symm
  srcs s hs := by
    obtain ⟨d, hd⟩ := h.srcs s hs
    by_cases hmem : ⟨s, d⟩ ∈ c.undone
    · have hin := (h.moved_within hx hanchors hmoves (.inl hmem)).1.1 hs
      obtain ⟨⟨y, hy, rfl⟩, -⟩ := h.made_covers hx hanchors hmoves hq hadm hin _ hmem
      exact ⟨y.dst, planned_of_mem_made hy⟩
    · exact ⟨d, hd.of_notMem_undone (hmoves.linked hx) hmem⟩
  dsts d hd := by
    obtain ⟨s, hs⟩ := h.dsts d hd
    by_cases hmem : ⟨s, d⟩ ∈ c.undone
    · have hin := (h.moved_within hx hanchors hmoves (.inl hmem)).1.1 ((h.within s d hs).2 hd)
      obtain ⟨-, y, hy, rfl⟩ := h.made_covers hx hanchors hmoves hq hadm hin _ hmem
      exact ⟨y.src, planned_of_mem_made hy⟩
    · exact ⟨s, hs.of_notMem_undone (hmoves.linked hx) hmem⟩
  parents s d hsd := by
    rcases planned_or_mem_made (hmoves.linked hx) hsd with hsd | hsd
    · exact h.parents s d hsd
    · -- a leaf of the pair takes part in every new link
      obtain ⟨hsrc, hdst⟩ := leaves_of_isUnlike hunlike
      rcases hmoves.touches hsd with rfl | rfl
      · exact .inr (.inl hsrc)
      · exact .inr (.inr hdst)

end Move

end Interlinked

/-- While a round goes on, the children remain linked among each other. -/
theorem Dealt.interlinked (h : Dealt task anchor p seen q queue) (hp : p.OneToOne)
    (hseen : ∀ x ∈ seen, isUnlike task x = true) (hstart : Interlinked task u v p []) :
    Interlinked task u v q queue := by
  induction h with
  | nil => exact hstart
  | keep _ _ ih => exact ih fun x hx => hseen x (List.mem_append_left _ hx)
  | move before hlinked hanchors hmoves hadm ih =>
    have hbefore := ih fun x hx => hseen x (List.mem_append_left _ hx)
    exact hbefore.move hlinked hanchors hmoves (before.oneToOne hp) hadm (hseen _ (by simp))

/-- **A round keeps the children linked among each other.** -/
theorem Round.interlinked (h : Round task anchor p work r next) (hp : p.OneToOne)
    (hwork : ∀ x ∈ work, isUnlike task x = true) (hstart : Interlinked task u v p []) :
    Interlinked task u v r [] := by
  obtain @⟨q, queue, hdealt, hone, hlinked⟩ := h
  have hq := hdealt.interlinked hp hwork hstart
  have hplanned : Planned r [] = Planned q queue := by
    funext s d
    rw [planned_nil.eq, hlinked]
    rfl
  exact ⟨hplanned ▸ hq.within, hplanned ▸ hq.srcs, hplanned ▸ hq.dsts, hplanned ▸ hq.parents⟩

/-- So do all rounds, wherever siblings are looked for. -/
lemma returns_reconcile_interlinked (hp : p.OneToOne) (h : Interlinked task u v p []) :
    Returns (reconcile task anchor) p fun _ r => r.OneToOne ∧ Interlinked task u v r [] := by
  refine (returns_reconcile (I := fun _ q _ => Interlinked task u v q []) hp h ?_).mono ?_
  · intro _ q work r next hq hwork hinter _ hround
    exact hround.interlinked hq hwork hinter
  · rintro _ r ⟨hr, _, hinter, -⟩
    exact ⟨hr, hinter⟩

/-! ### Pairs that are passed over -/

/-- If the like of the destination node of an unlike pair has a partner, the two exchange partners,
provided that nothing better is found.

**Proof sketch.** The link of the like is unlike, too, since the labels of the children are
distinct; so the backward search proposes that the two links exchange their ends.  The proposal is
admissible because the four nodes have partners, and queued nodes have none. -/
lemma change?_ne_none (hshuffled : Shuffled task u v) (hinter : Interlinked task u v q queue)
    (hq : q.OneToOne) (hqueued : Queued q queue) (hx : q.dst? x.src = some x.dst)
    (hunlike : task.src.sameLabel task.dst x.src x.dst = false)
    (hin : x.src ∈ task.src.children u) (hs : s ∈ task.src.children u)
    (hsame : task.src.sameContent task.dst s x.dst = true) (hsd : q.dst? s = some d) :
    change? task q queue u v x ≠ none := by
  have hxd : x.dst ∈ task.dst.children v := (hinter.within _ _ (.inl hx)).1 hin
  have hd : d ∈ task.dst.children v := (hinter.within _ _ (.inl hsd)).1 hs
  have hlabel := Tree.sameLabel_of_sameContent hsame
  have hsne : s ≠ x.src := by
    rintro rfl
    rw [hlabel] at hunlike
    cases hunlike
  have hdne : d ≠ x.dst := by
    rintro rfl
    exact hsne (hq.src_inj hsd hx)
  -- were the link of the like a good one, it would lead to the destination node of the pair
  have hunlike' : task.src.sameLabel task.dst s d = false := by
    refine Bool.eq_false_iff.2 fun hlabel' => hdne (hshuffled.dst_ext hd hxd ?_)
    exact (beq_iff_eq.1 hlabel').symm.trans (beq_iff_eq.1 hlabel)
  have hback : backward? task q queue u v x =
      some ⟨[x, ⟨s, d⟩], [⟨s, x.dst⟩, ⟨x.src, d⟩]⟩ := by
    simp [backward?, hshuffled.lookAlike?_eq hs hsame, hsd, hunlike', hsne, hdne]
  -- none of the four nodes is queued, since all of them have partners
  have hadm : Change.admissible ⟨[x, ⟨s, d⟩], [⟨s, x.dst⟩, ⟨x.src, d⟩]⟩ queue = true := by
    rw [Change.admissible_iff]
    intro z hz y hy
    obtain ⟨hfree, hfree'⟩ := hqueued.free y hy
    have hlinked : q.dst? z.src ≠ none ∧ q.src? z.dst ≠ none := by
      simp only [List.mem_cons, List.not_mem_nil, or_false] at hz
      rcases hz with rfl | rfl
      · simp [hsd, (hq _ _).1 hx]
      · simp [hx, (hq _ _).1 hsd]
    exact ⟨fun heq => hlinked.1 (heq ▸ hfree), fun heq => hlinked.2 (heq ▸ hfree')⟩
  simp only [change?, Option.orElse_eq_orElse, Option.orElse_eq_or, hback, ne_eq,
    Option.or_eq_none_iff, not_and]
  intro _
  rw [Option.filter_some, if_pos hadm]
  exact Option.some_ne_none _

/-- **If a pair is kept in a round, the like of its destination node gets another partner.**

**Proof sketch.** When the pair was dealt with, the like did not have a partner, or the two would
have exchanged partners.  But all children are linked or about to be. -/
theorem Dealt.exists_queued_of_kept (hshuffled : Shuffled task u v)
    (h : Dealt task .ownParent p seen q queue) (hp : p.OneToOne)
    (hseen : ∀ x ∈ seen, isUnlike task x = true) (hstart : Interlinked task u v p [])
    (hx : x ∈ seen) (hin : x.src ∈ task.src.children u) (hkept : q.dst? x.src = some x.dst)
    (hs : s ∈ task.src.children u) (hsame : task.src.sameContent task.dst s x.dst = true) :
    ∃ d, ⟨s, d⟩ ∈ queue := by
  induction h with
  | nil => cases hx
  | @keep seen q queue y before hidle ih =>
    have hseen' : ∀ x ∈ seen, isUnlike task x = true :=
      fun x hx => hseen x (List.mem_append_left _ hx)
    rcases List.mem_append.1 hx with hx' | hx'
    · exact ih hseen' hx' hkept
    · obtain rfl := List.mem_singleton.1 hx'
      have hinter := before.interlinked hp hseen' hstart
      have hanchors : anchors? task q .ownParent x = some ⟨u, v⟩ :=
        anchors?_eq_some_iff.2 ⟨hin, (hinter.within _ _ (.inl hkept)).1 hin⟩
      have hnone := hidle hkept _ hanchors
      cases hsd : q.dst? s with
      | none => exact hinter.exists_queued_of_free_src hs hsd
      | some d =>
        exact absurd hnone (change?_ne_none hshuffled hinter (before.oneToOne hp)
          (before.queued hp) hkept (unlike_of_isUnlike (hseen x hx)) hin hs hsame hsd)
  | @move seen q queue y parents c before hlinked _ hmoves _ ih =>
    obtain ⟨hkept, hnot⟩ :=
      (Pairing.dst?_eraseAll_eq_some_iff (hmoves.linked hlinked)).1 hkept
    rcases List.mem_append.1 hx with hx' | hx'
    · obtain ⟨d, hd⟩ := ih (fun x hx => hseen x (List.mem_append_left _ hx)) hx' hkept
      exact ⟨d, List.mem_append_left _ hd⟩
    · obtain rfl := List.mem_singleton.1 hx'
      exact absurd hmoves.mem_undone hnot

/-! ### Children that are linked to the likes of each other -/

/-- The children of `u` in the set `S` are linked to unlike nodes, whose likes belong to the set as
well. -/
structure Astray (task : Task) (u : NodeId) (p : Pairing) (S : Set NodeId) : Prop where
  nonempty : S.Nonempty
  subset : ∀ s ∈ S, s ∈ task.src.children u
  unlike : ∀ s ∈ S, ∀ d, p.dst? s = some d → task.src.sameLabel task.dst s d = false
  closed : ∀ s ∈ S, ∀ d, p.dst? s = some d → ∀ c ∈ task.src.children u,
    task.src.sameContent task.dst c d = true → c ∈ S

/-- Every such set has a pair among those that are still to be dealt with. -/
def Watched (task : Task) (u : NodeId) (p : Pairing) (work : List Pair) : Prop :=
  ∀ S, Astray task u p S → ∃ s ∈ S, ∃ d, p.dst? s = some d ∧ ⟨s, d⟩ ∈ work

/-- The children of `u` that are linked to unlike nodes. -/
def unsettled (task : Task) (u : NodeId) (p : Pairing) : Set NodeId :=
  {s | s ∈ task.src.children u ∧ ∃ d, p.dst? s = some d ∧ task.src.sameLabel task.dst s d = false}

section Cycles

variable (hshuffled : Shuffled task u v) (hp : p.OneToOne) (hinter : Interlinked task u v p [])

include hshuffled hinter

/-- An unlike pair of children consists of leaves. -/
lemma isUnlike_of_child (hs : s ∈ task.src.children u) (hsd : p.dst? s = some d)
    (hunlike : task.src.sameLabel task.dst s d = false) : isUnlike task ⟨s, d⟩ = true := by
  have hd := (hinter.within s d (planned_nil.2 hsd)).1 hs
  simp only [isUnlike, hshuffled.srcLeaves s hs, hshuffled.dstLeaves d hd, hunlike, Bool.and_self,
    Bool.not_false]

/-- At first all unlike pairs of leaves are dealt with. -/
lemma watched_filter : Watched task u p (p.pairs.filter (isUnlike task)) := by
  intro S hS
  obtain ⟨s, hs⟩ := hS.nonempty
  obtain ⟨d, hd⟩ := hinter.srcs s (hS.subset s hs)
  rw [planned_nil] at hd
  refine ⟨s, hs, d, hd, List.mem_filter.2 ⟨Pairing.mem_pairs_iff.2 hd, ?_⟩⟩
  exact isUnlike_of_child hshuffled hinter (hS.subset s hs) hd (hS.unlike s hs d hd)

include hp

/-- All children that are linked to unlike nodes together are such a set.  If the like of a node
were linked to a node with its own label, it would be that node.

**Proof sketch.** The first three fields hold by definition.  For the last one, let `c` be the like
of the partner of `s`.  If `c` were linked to a node with its own label, this node would be the
partner of `s`, the labels being distinct, and `c` would be `s`, which is linked to an unlike
node. -/
lemma astray_unsettled (h : (unsettled task u p).Nonempty) :
    Astray task u p (unsettled task u p) where
  nonempty := h
  subset s hs := hs.1
  unlike s hs d hd := by
    obtain ⟨-, d', hd', hunlike⟩ := hs
    have heq : d' = d := Option.some.inj (hd'.symm.trans hd)
    exact heq ▸ hunlike
  closed s hs d hd c hc hsame := by
    obtain ⟨hs, d', hd', hunlike⟩ := hs
    have heq : d' = d := Option.some.inj (hd'.symm.trans hd)
    subst heq
    obtain ⟨e, he⟩ := hinter.srcs c hc
    refine ⟨hc, e, planned_nil.1 he, Bool.eq_false_iff.2 fun hlabel => ?_⟩
    have hlabel' := Tree.sameLabel_of_sameContent hsame
    have heq : e = d' := hshuffled.dst_ext ((hinter.within c e he).1 hc)
      ((hinter.within s d' (planned_nil.2 hd)).1 hs)
      ((beq_iff_eq.1 hlabel).symm.trans (beq_iff_eq.1 hlabel'))
    subst heq
    have hcs : c = s := hp.src_inj (planned_nil.1 he) hd
    subst hcs
    rw [hlabel] at hunlike
    cases hunlike

/-- **A round leaves no set of children unattended.**

**Proof sketch.** If none of the pairs of the set is new after the round, then all of them are as
they were before it.  One of them was dealt with and kept.  But then the like of its destination
node got another partner, and it belongs to the set. -/
theorem Round.watched (h : Round task .ownParent p work r next)
    (hwork : ∀ x ∈ work, isUnlike task x = true) (hwatched : Watched task u p work) :
    Watched task u r next := by
  have hinter' := h.interlinked hp hwork hinter
  obtain @⟨q, queue, hdealt, hone, hlinked⟩ := h
  intro S hS
  by_contra hnone
  have hold : ∀ s ∈ S, ∀ d, r.dst? s = some d → ⟨s, d⟩ ∉ queue := by
    intro s hs d hsd hmem
    refine hnone ⟨s, hs, d, hsd, List.mem_filter.2 ⟨hmem, ?_⟩⟩
    exact isUnlike_of_child hshuffled hinter' (hS.subset s hs) hsd (hS.unlike s hs d hsd)
  have hkept : ∀ s ∈ S, ∀ d, r.dst? s = some d → q.dst? s = some d :=
    fun s hs d hsd => ((hlinked s d).1 hsd).resolve_right (hold s hs d hsd)
  have hback : ∀ s ∈ S, ∀ d, p.dst? s = some d → r.dst? s = some d := by
    intro s hs d hsd
    obtain ⟨e, he⟩ := hinter'.srcs s (hS.subset s hs)
    rw [planned_nil] at he
    have hpe := hdealt.linked_before (hkept s hs e he)
    rw [he, ← hsd, hpe]
  have hbefore : Astray task u p S :=
    ⟨hS.nonempty, hS.subset, fun s hs d hsd => hS.unlike s hs d (hback s hs d hsd),
      fun s hs d hsd => hS.closed s hs d (hback s hs d hsd)⟩
  obtain ⟨s, hs, d, hsd, hmem⟩ := hwatched S hbefore
  have hsd' := hback s hs d hsd
  have hin := hS.subset s hs
  obtain ⟨c, hc, hsame⟩ := hshuffled.exists_like ((hinter.within s d (planned_nil.2 hsd)).1 hin)
  obtain ⟨e, he⟩ := hdealt.exists_queued_of_kept hshuffled hp hwork hinter hmem hin
    (hkept s hs d hsd') hc hsame
  exact hold c (hS.closed s hs d hsd' c hc hsame) e ((hlinked c e).2 (.inr he)) he

end Cycles

end LeafMoves

/-! ### Counting the children that are put right -/

/-- The number of children of `u` that are linked to a node with the same label. -/
def Pairing.settledCount (p : Pairing) (task : Task) (u : NodeId) : Nat :=
  p.pairs.countP fun z =>
    decide (z.src ∈ task.src.children u) && task.src.sameLabel task.dst z.src z.dst

namespace LeafMoves

variable {task : Task} {anchor : Anchor} {u v : NodeId} {p q r : Pairing}
  {seen queue work next : List Pair}

/-- If a link of a child is queued, then so is one to a node with the same label.

**Proof sketch.** Induction along the dealings.  Only a move adds to the queue, and each move makes
a link between nodes that look alike.  If one link of the move is inside, all of them are. -/
lemma Dealt.exists_queued_sameLabel (h : Dealt task anchor p seen q queue) (hp : p.OneToOne)
    (hseen : ∀ x ∈ seen, isUnlike task x = true) (hstart : Interlinked task u v p [])
    (hqueue : ∃ z ∈ queue, z.src ∈ task.src.children u) :
    ∃ z ∈ queue, z.src ∈ task.src.children u ∧
      task.src.sameLabel task.dst z.src z.dst = true := by
  induction h with
  | nil =>
    obtain ⟨z, hz, -⟩ := hqueue
    cases hz
  | keep _ _ ih => exact ih (fun x hx => hseen x (List.mem_append_left _ hx)) hqueue
  | move before hlinked hanchors hmoves _ ih =>
    have hseen' := fun x hx => hseen x (List.mem_append_left _ hx)
    have hinter := before.interlinked hp hseen' hstart
    obtain ⟨z, hz, hin⟩ := hqueue
    rcases List.mem_append.1 hz with hz | hz
    · obtain ⟨y, hy, hy'⟩ := ih hseen' ⟨z, hz, hin⟩
      exact ⟨y, List.mem_append_left _ hy, hy'⟩
    · -- the look-alike of the same move is inside, too
      obtain ⟨y, hy, hsame⟩ := hmoves.exists_alike
      have hiff := (hinter.moved_within hlinked hanchors hmoves (.inr hz)).1
      have hiff' := (hinter.moved_within hlinked hanchors hmoves (.inr hy)).1
      exact ⟨y, List.mem_append_right _ hy, hiff'.2 (hiff.1 hin),
        Tree.sameLabel_of_sameContent hsame⟩

/-- **A round puts a child right, unless all are.**

**Proof sketch.** One of the unlike pairs is dealt with.  It loses its link, or else the like of its
destination node does; so a child gets another partner. -/
theorem Round.settledCount_lt (hshuffled : Shuffled task u v)
    (h : Round task .ownParent p work r next) (hp : p.OneToOne)
    (hwork : ∀ x ∈ work, isUnlike task x = true) (hinter : Interlinked task u v p [])
    (hwatched : Watched task u p work) (hwrong : (unsettled task u p).Nonempty) :
    p.settledCount task u < r.settledCount task u := by
  have hkeeps := h.keeps hp hwork
  obtain @⟨q, queue, hdealt, hone, hlinked⟩ := h
  obtain ⟨s, ⟨hin, -⟩, d, hsd, hmem⟩ :=
    hwatched _ (astray_unsettled hshuffled hp hinter hwrong)
  have hchanged : ∃ z ∈ queue, z.src ∈ task.src.children u := by
    by_cases hkept : q.dst? s = some d
    · obtain ⟨c, hc, hsame⟩ := hshuffled.exists_like ((hinter.within s d (planned_nil.2 hsd)).1 hin)
      obtain ⟨e, he⟩ := hdealt.exists_queued_of_kept hshuffled hp hwork hinter hmem hin hkept hc
        hsame
      exact ⟨_, he, hc⟩
    · have hfree : q.dst? s = none := by
        refine Option.eq_none_iff_forall_ne_some.2 fun e he => hkept ?_
        rw [he, ← hsd, hdealt.linked_before he]
      obtain ⟨e, he⟩ := (hdealt.interlinked hp hwork hinter).exists_queued_of_free_src hin hfree
      exact ⟨_, he, hin⟩
  obtain ⟨z, hz, hz', hlabel⟩ := hdealt.exists_queued_sameLabel hp hwork hinter hchanged
  refine Pairing.countP_pairs_lt (fun y hy hy' => ?_)
    (Pairing.mem_pairs_iff.2 ((hlinked z.src z.dst).2 (.inr hz))) (by simp [hz', hlabel])
    (hdealt.notMem_pairs_of_mem_queue hp hwork hz hlabel)
  exact Pairing.mem_pairs_iff.2 (hkeeps.equal _ _ (Pairing.mem_pairs_iff.1 hy)
    (Bool.and_eq_true_iff.1 hy').2)

/-- As long as a child is linked to an unlike node, not all are counted.

**Proof sketch.** The children that are counted are among the children other than the one that is
linked to an unlike node. -/
lemma settledCount_lt_length (hwrong : (unsettled task u p).Nonempty) :
    p.settledCount task u < (task.src.children u).length := by
  obtain ⟨s, hs, d, hsd, hunlike⟩ := hwrong
  have hle : p.settledCount task u ≤ ((task.src.children u).erase s).length := by
    refine Pairing.countP_pairs_le_length fun z hz hf => ?_
    rw [Bool.and_eq_true, decide_eq_true_eq] at hf
    refine (List.mem_erase_of_ne ?_).2 hf.1
    intro heq
    have hzd := Pairing.mem_pairs_iff.1 hz
    rw [heq, hsd, Option.some.injEq] at hzd
    rw [hzd, ← heq, hf.2] at hunlike
    cases hunlike
  have hpos := List.length_pos_of_mem hs
  rw [List.length_erase_of_mem hs] at hle
  omega

/-- **If there are as many rounds as children, all children are linked to their likes.**

**Proof sketch.** The invariant of the rounds says that the children are linked among each other,
that every set of children gone astray contains one whose link is looked at in the next round, and
that after `k` rounds at least `k` children are settled unless all are.  If the rounds end early,
there is nothing to look at, hence no such set.  If they are used up, at least as many children are
settled as there are children, so that all are. -/
theorem returns_reconcile_settled (hshuffled : Shuffled task u v) (hp : p.OneToOne)
    (hinter : Interlinked task u v p [])
    (hlimit : (task.src.children u).length ≤ task.settings.maxRounds) :
    Returns (reconcile task .ownParent) p fun _ r =>
      Interlinked task u v r [] ∧ ¬ (unsettled task u r).Nonempty := by
  refine (returns_reconcile (I := fun k q work => Interlinked task u v q [] ∧
    Watched task u q work ∧ ((unsettled task u q).Nonempty → k ≤ q.settledCount task u)) hp
    ?_ ?_).mono ?_
  · exact ⟨hinter, watched_filter hshuffled hinter, fun _ => Nat.zero_le _⟩
  · rintro k q work r next hq hwork ⟨hinter, hwatched, hcount⟩ - hround
    refine ⟨hround.interlinked hq hwork hinter, hround.watched hshuffled hq hinter hwork hwatched,
      fun hwrong => ?_⟩
    -- what is wrong after the round was wrong before it, since equal labels are kept
    have hwrong' : (unsettled task u q).Nonempty := by
      obtain ⟨s, hs, d, hsd, hunlike⟩ := hwrong
      obtain ⟨e, he⟩ := hinter.srcs s hs
      refine ⟨s, hs, e, planned_nil.1 he, Bool.eq_false_iff.2 fun hlabel => ?_⟩
      have hkept := (hround.keeps hq hwork).equal s e (planned_nil.1 he) hlabel
      rw [hsd, Option.some.injEq] at hkept
      rw [hkept, hlabel] at hunlike
      cases hunlike
    have hgain := hround.settledCount_lt hshuffled hq hwork hinter hwatched hwrong'
    have := hcount hwrong'
    omega
  · rintro n r ⟨hr, rest, ⟨hinter, hwatched, hcount⟩, hend⟩
    refine ⟨hinter, fun hwrong => ?_⟩
    rcases hend with rfl | rfl
    · obtain ⟨s, -, d, -, hmem⟩ := hwatched _ (astray_unsettled hshuffled hr hinter hwrong)
      cases hmem
    · have := hcount hwrong
      have := settledCount_lt_length hwrong
      omega

end LeafMoves

/-- **Leaf moves link crossed leaves to their likes.**  Two linked nodes have the same leaves as
children, in another order, and the leaves are linked among each other in any way.  If there may be
as many rounds as there are leaves, each leaf is linked to the one with the same kind and label in
the end, whatever the rest of the pairing is.

**Proof sketch.** Both passes keep the children linked among each other, and after the second one
none is linked to an unlike node, by `returns_reconcile_settled`.  Equal labels among the children
imply equal kinds. -/
theorem crossed_leaves_find_their_likes (task : Task) (p : Pairing) (u v : NodeId)
    (hone : p.isOneToOne = true) (hlinked : p.dst? u = some v) (hshuffled : Shuffled task u v)
    (honto : ((task.src.children u).map p.dst?).Perm ((task.dst.children v).map some))
    (hlimit : (task.src.children u).length ≤ task.settings.maxRounds) :
    let o := Stage.leafMoves.perform task p
    o.fault = none ∧ ∀ s ∈ task.src.children u, ∃ d ∈ task.dst.children v,
      o.pairing.dst? s = some d ∧ task.src.kind s = task.dst.kind d ∧
        task.src.label s = task.dst.label d := by
  have hp := Pairing.isOneToOne_iff.1 hone
  have hrun : Returns (LeafMoves.run task) p fun _ r =>
      LeafMoves.Interlinked task u v r [] ∧ ¬ (LeafMoves.unsettled task u r).Nonempty := by
    refine (LeafMoves.returns_reconcile_interlinked hp
      (LeafMoves.interlinked_of_linked hp hlinked honto)).bind fun _ q hq => ?_
    exact (LeafMoves.returns_reconcile_settled hshuffled hq.1 hq.2 hlimit).bind
      fun _ r hr => returns_pure hr
  obtain ⟨hfault, hinter, hsettled⟩ := hrun.perform
  refine ⟨hfault, fun s hs => ?_⟩
  obtain ⟨d, hplanned⟩ := hinter.srcs s hs
  have hd := (hinter.within s d hplanned).1 hs
  have hsd := LeafMoves.planned_nil.1 hplanned
  have hlabel : task.src.label s = task.dst.label d := by
    by_contra hne
    exact hsettled ⟨s, hs, d, hsd, beq_eq_false_iff_ne.2 hne⟩
  exact ⟨d, hd, hsd, hshuffled.kind_eq hs hd hlabel, hlabel⟩

/-- A block with three leaves that are linked in a circle; the root is linked to a leaf elsewhere.
The first leaf finds its like, which is the last leaf of the other block. -/
theorem leaf_of_circle_finds_its_like :
    let src : Tree := .ofContents ⟨(⟨0⟩, "r"), .node (⟨1⟩, "s")
      (.node (⟨2⟩, "x") .nil (.node (⟨2⟩, "y") .nil (.leaf (⟨2⟩, "z")))) .nil⟩
    let dst : Tree := .ofContents ⟨(⟨0⟩, "r"), .node (⟨1⟩, "d")
      (.node (⟨2⟩, "y") .nil (.node (⟨2⟩, "z") .nil (.leaf (⟨2⟩, "x")))) (.leaf (⟨0⟩, "e"))⟩
    let task : Task := { src, dst }
    let p := ((((Pairing.empty.insert 1 6).insert 2 2).insert 3 3).insert 4 4).insert 5 5
    p.isOneToOne = true ∧ p.dst? 2 = some 2 ∧ Shuffled task 2 2 ∧
      (Stage.leafMoves.perform task p).fault = none ∧
      (Stage.leafMoves.perform task p).pairing.dst? 3 = some 5 := by
  intro src dst task p
  have hone : p.isOneToOne = true := by decide +kernel
  have hlinked : p.dst? 2 = some 2 := by decide +kernel
  have hshuffled : Shuffled task 2 2 :=
    ⟨by decide +kernel, by decide +kernel, by decide +kernel, by decide +kernel⟩
  obtain ⟨hfault, hlikes⟩ := crossed_leaves_find_their_likes task p 2 2 hone hlinked hshuffled
    (by decide +kernel) (by decide +kernel)
  obtain ⟨d, hd, hsd, -, hlabel⟩ := hlikes 3 (by decide +kernel)
  have honly : ∀ d ∈ task.dst.children 2, task.src.label 3 = task.dst.label d → d = 5 := by
    decide +kernel
  exact ⟨hone, hlinked, hshuffled, hfault, honly d hd hlabel ▸ hsd⟩

end TreeMatching
