import TreeMatching.Proofs.LeafProgress

set_option autoImplicit false

/-!
# Leaf moves and pairs of inner nodes

Leaf moves set out from pairs of leaves with different labels.  But the sibling to which a link is
moved is found by kind and label alone, and it may be an inner node.  A pair of inner nodes is then
taken apart, if its labels differ, and one of its nodes gets the leaf that looks like it.  Since the
two have the same content, they stay together until the end; so a pair of inner nodes is either
kept, or one of its nodes ends up with a leaf of the same content.

## Main definitions

* `LeafMoves.TakenOver` — one of two nodes is joined with a leaf of the same content.
* `LeafMoves.KeepsInner` — every link of an inner node is kept or taken over.

## Main results

* `LeafMoves.Change.Moves.takenOver` — what becomes of the links that a move undoes.
* `LeafMoves.Round.keepsInner`, `LeafMoves.returns_reconcile_keepsInner` — one round, and all
  rounds.
* `inner_pairs_are_kept_or_taken_over` — the stage.
* `leaf_moves_can_take_inner_pairs_apart` — not all pairs of inner nodes are kept.
-/

namespace TreeMatching

open Matching

namespace LeafMoves

variable {task : Task} {anchor : Anchor} {p q r : Pairing} {seen queue work next : List Pair}
  {s d : NodeId}

/-- One of the nodes `s` and `d` is joined with a leaf of the other tree that has the same
content. -/
def TakenOver (task : Task) (joined : NodeId → NodeId → Prop) (s d : NodeId) : Prop :=
  (∃ b, joined s b ∧ task.dst.isLeaf b = true ∧ task.src.sameContent task.dst s b = true) ∨
    ∃ a, joined a d ∧ task.src.isLeaf a = true ∧ task.src.sameContent task.dst a d = true

/-- Nodes of the same content that are joined in one way may be joined in another way. -/
lemma TakenOver.imp {joined joined' : NodeId → NodeId → Prop} (h : TakenOver task joined s d)
    (himp : ∀ a b, task.src.sameContent task.dst a b = true → joined a b → joined' a b) :
    TakenOver task joined' s d := by
  rcases h with ⟨b, hb, hleaf, hsame⟩ | ⟨a, ha, hleaf, hsame⟩
  · exact .inl ⟨b, himp s b hsame hb, hleaf, hsame⟩
  · exact .inr ⟨a, himp a d hsame ha, hleaf, hsame⟩

/-! ### Moves and rounds -/

/-- **A link of an inner node that a move undoes is taken over.**  It cannot be the link of the two
leaves from which the move sets out, so it is the one with which they exchange partners.

**Proof sketch.** A move undoes the link of two leaves, and in an exchange one more, which is that
of the inner node.  The two exchange partners because one of them looks like a leaf of the pair, and
this is its new partner. -/
lemma Change.Moves.takenOver {parents x : Pair} {c : Change} (h : c.Moves task p parents x)
    (hx : isUnlike task x = true) (hinner : task.src.isLeaf s = false) (hsd : ⟨s, d⟩ ∈ c.undone) :
    TakenOver task (fun a b => ⟨a, b⟩ ∈ c.made) s d := by
  simp only [isUnlike, Bool.and_eq_true, Bool.not_eq_true'] at hx
  obtain ⟨⟨hsrc, hdst⟩, -⟩ := hx
  have hne : (⟨s, d⟩ : Pair) ≠ x := by
    rintro rfl
    rw [hinner] at hsrc
    cases hsrc
  cases h with
  | @exchange s' d' made _ _ _ _ halike hperm =>
    have heq := List.mem_singleton.1 ((List.mem_cons.1 hsd).resolve_left hne)
    cases heq
    rcases halike with ⟨-, hsame⟩ | ⟨-, hsame⟩
    · exact .inl ⟨x.dst, hperm.mem_iff.2 (by simp), hdst, hsame⟩
    · exact .inr ⟨x.src, hperm.mem_iff.2 (by simp), hsrc, hsame⟩
  | shift => exact absurd (List.mem_singleton.1 hsd) hne

/-- While a round goes on, a link of an inner node is there, or links that take it over are
queued. -/
lemma Dealt.linked_or_takenOver (h : Dealt task anchor p seen q queue)
    (hseen : ∀ x ∈ seen, isUnlike task x = true) (hinner : task.src.isLeaf s = false)
    (hsd : p.dst? s = some d) :
    q.dst? s = some d ∨ TakenOver task (fun a b => ⟨a, b⟩ ∈ queue) s d := by
  induction h with
  | nil => exact .inl hsd
  | keep _ _ ih => exact ih fun x hx => hseen x (List.mem_append_left _ hx)
  | @move seen q queue x parents c _ hlinked _ hmoves _ ih =>
    rcases ih fun x hx => hseen x (List.mem_append_left _ hx) with hq | htaken
    · by_cases hundone : ⟨s, d⟩ ∈ c.undone
      · have htaken := hmoves.takenOver (hseen x (by simp)) hinner hundone
        exact .inr (htaken.imp fun _ _ _ => List.mem_append_right queue)
      · exact .inl
          ((Pairing.dst?_eraseAll_eq_some_iff (hmoves.linked hlinked)).2 ⟨hq, hundone⟩)
    · exact .inr (htaken.imp fun _ _ _ => List.mem_append_left c.made)

/-- Every link of an inner source node is kept, or one of its nodes has become the partner of a leaf
of the same content. -/
def KeepsInner (task : Task) (p r : Pairing) : Prop :=
  ∀ s d, task.src.isLeaf s = false → p.dst? s = some d →
    r.dst? s = some d ∨ TakenOver task (fun a b => r.dst? a = some b) s d

/-- Doing nothing keeps all links of inner nodes. -/
lemma KeepsInner.refl (task : Task) (p : Pairing) : KeepsInner task p p := fun _ _ _ => .inl

/-- What has been taken over remains so, since links between nodes of the same content are kept. -/
lemma KeepsInner.trans (h : KeepsInner task p q) (h' : KeepsInner task q r)
    (hkeeps : Keeps task q r) : KeepsInner task p r := by
  intro s d hinner hsd
  rcases h s d hinner hsd with hq | htaken
  · exact h' s d hinner hq
  · exact .inr (htaken.imp fun a b hsame hab =>
      hkeeps.equal a b hab (Tree.sameLabel_of_sameContent hsame))

/-- **A round keeps the links of inner nodes, or they are taken over.** -/
theorem Round.keepsInner (h : Round task anchor p work r next)
    (hwork : ∀ x ∈ work, isUnlike task x = true) : KeepsInner task p r := by
  obtain @⟨q, queue, hdealt, -, hlinked⟩ := h
  intro s d hinner hsd
  rcases hdealt.linked_or_takenOver hwork hinner hsd with hq | htaken
  · exact .inl ((hlinked s d).2 (.inl hq))
  · exact .inr (htaken.imp fun a b _ hab => (hlinked a b).2 (.inr hab))

/-- All rounds keep the links of inner nodes, or they are taken over. -/
theorem returns_reconcile_keepsInner (task : Task) (anchor : Anchor) (hp : p.OneToOne) :
    Returns (reconcile task anchor) p fun _ r =>
      r.OneToOne ∧ Keeps task p r ∧ KeepsInner task p r := by
  refine (returns_reconcile (I := fun _ q _ => Keeps task p q ∧ KeepsInner task p q) hp
    ⟨.refl task p, .refl task p⟩ ?_).mono ?_
  · rintro k q work r next hq hwork ⟨hkeeps, hinner⟩ - hround
    have hkeeps' := hround.keeps hq hwork
    exact ⟨hkeeps.trans hkeeps', hinner.trans (hround.keepsInner hwork) hkeeps'⟩
  · rintro _ r ⟨hr, _, hkeeps, -⟩
    exact ⟨hr, hkeeps⟩

end LeafMoves

/-! ### The stage -/

/-- **A pair of inner nodes is kept or taken over.**  Run on a one-to-one pairing, leaf moves do not
fail.  A pair of inner nodes is still there afterwards, unless its labels differ and one of its
nodes is linked afterwards to a leaf of its own kind and label.

**Proof sketch.** Both passes keep inner links or have them taken over, and what has been taken over
has equal labels, hence is kept by the second pass.  A pair with equal labels is kept anyway. -/
theorem inner_pairs_are_kept_or_taken_over (task : Task) (p : Pairing)
    (hone : p.isOneToOne = true) :
    let o := Stage.leafMoves.perform task p
    o.fault = none ∧
      ∀ z ∈ p.pairs, task.src.isLeaf z.src = false → task.dst.isLeaf z.dst = false →
        z ∈ o.pairing.pairs ∨
        task.src.label z.src ≠ task.dst.label z.dst ∧
          ((∃ b, (⟨z.src, b⟩ : Pair) ∈ o.pairing.pairs ∧ task.dst.isLeaf b = true ∧
              task.src.kind z.src = task.dst.kind b ∧ task.src.label z.src = task.dst.label b) ∨
            ∃ a, (⟨a, z.dst⟩ : Pair) ∈ o.pairing.pairs ∧ task.src.isLeaf a = true ∧
              task.src.kind a = task.dst.kind z.dst ∧
              task.src.label a = task.dst.label z.dst) := by
  have hrun : Returns (LeafMoves.run task) p fun _ r =>
      LeafMoves.Keeps task p r ∧ LeafMoves.KeepsInner task p r := by
    have hp := Pairing.isOneToOne_iff.1 hone
    refine (LeafMoves.returns_reconcile_keepsInner task .mappedParent hp).bind ?_
    rintro _ q ⟨hq, hkeeps, hinner⟩
    refine (LeafMoves.returns_reconcile_keepsInner task .ownParent hq).bind ?_
    rintro _ r ⟨-, hkeeps', hinner'⟩
    exact returns_pure ⟨hkeeps.trans hkeeps', hinner.trans hinner' hkeeps'⟩
  obtain ⟨hfault, hkeeps, hinner⟩ := hrun.perform
  have hcontent {a b : NodeId} (h : task.src.sameContent task.dst a b = true) :
      task.src.kind a = task.dst.kind b ∧ task.src.label a = task.dst.label b :=
    ⟨(Tree.sameKind_iff.1 (Bool.and_eq_true_iff.1 h).1).2.2,
      beq_iff_eq.1 (Tree.sameLabel_of_sameContent h)⟩
  refine ⟨hfault, fun z hz hsrc _ => ?_⟩
  by_cases hlabel : task.src.label z.src = task.dst.label z.dst
  · exact .inl (Pairing.mem_pairs_iff.2
      (hkeeps.equal _ _ (Pairing.mem_pairs_iff.1 hz) (beq_iff_eq.2 hlabel)))
  rcases hinner _ _ hsrc (Pairing.mem_pairs_iff.1 hz) with hkept | htaken
  · exact .inl (Pairing.mem_pairs_iff.2 hkept)
  · refine .inr ⟨hlabel, Or.imp ?_ ?_ htaken⟩
    · rintro ⟨b, hb, hleaf, hsame⟩
      exact ⟨b, Pairing.mem_pairs_iff.2 hb, hleaf, hcontent hsame⟩
    · rintro ⟨a, ha, hleaf, hsame⟩
      exact ⟨a, Pairing.mem_pairs_iff.2 ha, hleaf, hcontent hsame⟩

/-- A leaf and an inner node of the same kind. -/
def leafAndBlock : Tree := .ofContents ⟨(⟨0⟩, "r"),
  .node (⟨1⟩, "a") .nil (.node (⟨1⟩, "q") (.leaf (⟨2⟩, "z")) .nil)⟩

/-- The same, but now the inner node has the label that the leaf had. -/
def relabelledLeafAndBlock : Tree := .ofContents ⟨(⟨0⟩, "r"),
  .node (⟨1⟩, "c") .nil (.node (⟨1⟩, "a") (.leaf (⟨2⟩, "z")) .nil)⟩

/-- Every node is linked to the one at the same place. -/
def byPlace : Pairing := (((Pairing.empty.insert 1 1).insert 2 2).insert 3 3).insert 4 4

/-- The two inner nodes are taken apart: the second of them is linked to the leaf that looks like
it. -/
theorem block_is_taken_over_by_leaf :
    let task : Task := { src := leafAndBlock, dst := relabelledLeafAndBlock }
    let o := Stage.leafMoves.perform task byPlace
    byPlace.isOneToOne = true ∧ (⟨3, 3⟩ : Pair) ∈ byPlace.pairs ∧
      task.src.isLeaf 3 = false ∧ task.dst.isLeaf 3 = false ∧ (⟨2, 3⟩ : Pair) ∈ o.pairing.pairs ∧
      o.fault = none ∧ task.src.label 3 ≠ task.dst.label 3 ∧
      ((∃ b, (⟨3, b⟩ : Pair) ∈ o.pairing.pairs ∧ task.dst.isLeaf b = true ∧
          task.src.kind 3 = task.dst.kind b ∧ task.src.label 3 = task.dst.label b) ∨
        ∃ a, (⟨a, 3⟩ : Pair) ∈ o.pairing.pairs ∧ task.src.isLeaf a = true ∧
          task.src.kind a = task.dst.kind 3 ∧ task.src.label a = task.dst.label 3) := by
  intro task o
  have hone : byPlace.isOneToOne = true := by decide +kernel
  have hpair : (⟨3, 3⟩ : Pair) ∈ byPlace.pairs := by decide +kernel
  have hinner : task.src.isLeaf 3 = false ∧ task.dst.isLeaf 3 = false := by decide +kernel
  have hafter : (⟨2, 3⟩ : Pair) ∈ o.pairing.pairs ∧ (⟨3, 3⟩ : Pair) ∉ o.pairing.pairs := by
    decide +kernel
  obtain ⟨hfault, hall⟩ := inner_pairs_are_kept_or_taken_over task byPlace hone
  have hcases := (hall ⟨3, 3⟩ hpair hinner.1 hinner.2).resolve_left hafter.2
  exact ⟨hone, hpair, hinner.1, hinner.2, hafter.1, hfault, hcases⟩

/-- So leaf moves do not leave all pairs of inner nodes alone. -/
theorem leaf_moves_can_take_inner_pairs_apart :
    ¬∀ (task : Task) (p : Pairing), p.isOneToOne = true →
      ∀ z ∈ p.pairs, task.src.isLeaf z.src = false → task.dst.isLeaf z.dst = false →
        z ∈ (Stage.leafMoves.perform task p).pairing.pairs := by
  intro hall
  have hlost : (⟨3, 3⟩ : Pair) ∉ (Stage.leafMoves.perform
      { src := leafAndBlock, dst := relabelledLeafAndBlock } byPlace).pairing.pairs := by
    decide +kernel
  exact hlost (hall { src := leafAndBlock, dst := relabelledLeafAndBlock } byPlace
    (by decide +kernel) ⟨3, 3⟩ (by decide +kernel) (by decide +kernel) (by decide +kernel))

end TreeMatching
