import TreeMatching.Proofs.Adoptions

set_option autoImplicit false

/-!
# The balance of adoptions

An adoption makes one link, and it undoes at most one to set a node free for it.  So there are no
fewer pairs afterwards.  An adoption may undo a link between nodes with the same label, but only for
another such link; so there are no fewer pairs with the same label either.  The node that is set
free by an adoption of a source leaf is a source node, and its partner gets another one.

## Main definitions

* `Pairing.equalCount` — the number of pairs with the same label.
* `OrphanLeaves.Gains` — there are no fewer pairs, and no fewer pairs with the same label.
* `OrphanLeaves.srcPhase`, `OrphanLeaves.dstPhase` — the two phases of the stage.

## Main results

* `Pairing.pairs_insert_perm`, `Pairing.pairs_erase_perm` — how the pairs change with a link.
* `OrphanLeaves.Settled.gains` — settling a leaf loses nothing.
* `OrphanLeaves.AdoptsSrc.hasDst_result` — adopting a source leaf keeps the destination nodes that
  have a partner.
* `OrphanLeaves.returns_srcPhase`, `OrphanLeaves.returns_dstPhase` — the two phases.
* `adoptions_lose_no_pairs` — the stage.
-/

namespace TreeMatching

open Matching

namespace Pairing

variable {p : Pairing} {s d : NodeId}

/-- Linking a free source node adds one pair. -/
lemma pairs_insert_perm (h : p.dst? s = none) :
    (p.insert s d).pairs.Perm (⟨s, d⟩ :: p.pairs) := by
  have hnew : (⟨s, d⟩ : Pair) ∉ p.pairs := by
    rw [mem_pairs_iff, h]
    simp
  rw [List.perm_ext_iff_of_nodup nodup_pairs (List.nodup_cons.2 ⟨hnew, nodup_pairs⟩)]
  rintro ⟨x, y⟩
  rw [List.mem_cons, mem_pairs_iff, mem_pairs_iff, dst?_insert, Pair.mk.injEq]
  split
  · next hx =>
    subst hx
    simp [h, eq_comm]
  · next hx => simp [Ne.symm hx]

/-- Undoing a link removes one pair. -/
lemma pairs_erase_perm (h : p.dst? s = some d) :
    p.pairs.Perm (⟨s, d⟩ :: (p.erase s d).pairs) := by
  have hgone : (⟨s, d⟩ : Pair) ∉ (p.erase s d).pairs := by
    rw [mem_pairs_iff, dst?_erase, if_pos rfl]
    simp
  rw [List.perm_ext_iff_of_nodup nodup_pairs (List.nodup_cons.2 ⟨hgone, nodup_pairs⟩)]
  rintro ⟨x, y⟩
  rw [List.mem_cons, mem_pairs_iff, mem_pairs_iff, dst?_erase, Pair.mk.injEq]
  split
  · next hx =>
    subst hx
    simp [h, eq_comm]
  · next hx => simp [Ne.symm hx]

/-- The number of pairs whose nodes have the same label. -/
def equalCount (p : Pairing) (task : Task) : Nat :=
  p.pairs.countP fun z => task.src.sameLabel task.dst z.src z.dst

end Pairing

namespace OrphanLeaves

variable {task : Task} {p q r : Pairing} {node : NodeId} {x : Adoption}

/-! ### One adoption -/

/-- The link that is replaced is all that is missing before the new link is made. -/
lemma Adoption.Fits.pairs_perm (h : x.Fits p) :
    p.pairs.Perm (x.replaced.toList ++ (x.cleared p).pairs) := by
  obtain ⟨link, replaced⟩ := x
  cases replaced with
  | none => exact .refl _
  | some old => exact Pairing.pairs_erase_perm (h.linked old rfl)

/-- **An adoption does not change the balance**: there are no fewer pairs with a property, if the
new pair has it as soon as the pair that it replaces has it.

**Proof sketch.** The pairs after the adoption are those that it leaves and the new one; the pairs
before are those that it leaves and the replaced one, if any.  So the two counts differ in these
single pairs only. -/
lemma Adoption.Fits.countP_le {f : Pair → Bool} (h : x.Fits p)
    (hf : ∀ old ∈ x.replaced, f old = true → f x.link = true) :
    p.pairs.countP f ≤ (x.result p).pairs.countP f := by
  have hnew : (x.result p).pairs.Perm (x.link :: (x.cleared p).pairs) :=
    Pairing.pairs_insert_perm h.srcFree
  rw [h.pairs_perm.countP_eq, hnew.countP_eq, List.countP_append, List.countP_cons, add_comm]
  refine Nat.add_le_add_left ?_ _
  cases hold : x.replaced with
  | none => exact Nat.zero_le _
  | some old =>
    rw [Option.toList_some, List.countP_singleton]
    by_cases hfold : f old = true
    · rw [if_pos hfold, if_pos (hf old hold hfold)]
    · rw [if_neg hfold]
      exact Nat.zero_le _

/-- There are no fewer pairs, and no fewer pairs with the same label. -/
structure Gains (task : Task) (p q : Pairing) : Prop where
  size : p.size ≤ q.size
  equal : p.equalCount task ≤ q.equalCount task

/-- Doing nothing loses nothing. -/
lemma Gains.refl (task : Task) (p : Pairing) : Gains task p p := ⟨le_rfl, le_rfl⟩

/-- What loses nothing twice loses nothing. -/
lemma Gains.trans (h : Gains task p q) (h' : Gains task q r) : Gains task p r :=
  ⟨h.size.trans h'.size, h.equal.trans h'.equal⟩

/-- **Settling a leaf loses nothing.** -/
lemma Settled.gains {adopts : Adoption → Prop} (h : Settled adopts p q)
    (hl : ∀ x, adopts x → ∀ old ∈ x.replaced, task.src.sameLabel task.dst old.src old.dst = true →
      task.src.sameLabel task.dst x.link.src x.link.dst = true) : Gains task p q := by
  cases h with
  | pass => exact .refl task p
  | adopt hx hfits =>
    have hsize := hfits.countP_le (f := fun _ => true) fun _ _ h => h
    rw [List.countP_true, Pairing.length_pairs, Pairing.length_pairs] at hsize
    exact ⟨hsize, hfits.countP_le (hl _ hx)⟩

/-- A destination leaf replaces a pair with the same label only by another one. -/
lemma AdoptsDst.labels (h : AdoptsDst task p node x) : ∀ old ∈ x.replaced,
    task.src.sameLabel task.dst old.src old.dst = true →
      task.src.sameLabel task.dst x.link.src x.link.dst = true := by
  intro old hold hlabel
  rw [Tree.sameLabel_comm] at hlabel ⊢
  exact AdoptsSrc.labels h old.swap (Option.mem_map_of_mem _ hold) hlabel

/-- **Adopting a source leaf keeps the destination nodes that have a partner**, because the node
that loses its partner gets another one.

**Proof sketch.** The adoption undoes the link of the node to which the leaf is linked, and no other
one. -/
lemma AdoptsSrc.hasDst_result (h : AdoptsSrc task p node x) {d : NodeId} (hd : p.hasDst d = true) :
    (x.result p).hasDst d = true := by
  obtain ⟨⟨s, b⟩, replaced⟩ := x
  have hreplaced : replaced = (p.src? b).map fun current => ⟨current, b⟩ := h.replaced
  subst hreplaced
  rw [Pairing.hasDst, Adoption.result, Pairing.src?_insert]
  split
  · rfl
  · next hne =>
    cases hcur : p.src? b with
    | none => exact hd
    | some current =>
      change ((p.erase current b).src? d).isSome = true
      rwa [Pairing.src?_erase, if_neg hne]

/-- Adopting a destination leaf keeps the source nodes that have a partner. -/
lemma AdoptsDst.hasSrc_result (h : AdoptsDst task p node x) {s : NodeId} (hs : p.hasSrc s = true) :
    (x.result p).hasSrc s = true := by
  have hmirror := AdoptsSrc.hasDst_result h (d := s) hs
  rwa [Adoption.result_swap] at hmirror

/-! ### The two phases -/

/-- The first phase of the stage: all source leaves that are free in `p` are settled. -/
def srcPhase (task : Task) (p : Pairing) : Matching Unit :=
  (task.src.preOrder.filter fun n => !p.hasSrc n).forM (settleSrc task)

/-- The second phase: all destination leaves that are free in `p` are settled. -/
def dstPhase (task : Task) (p : Pairing) : Matching Unit :=
  let dsts := task.dst.preOrder.filter fun n => !p.hasDst n
  dsts.forM (settleDst task dsts)

/-- The stage consists of the two phases, both for the nodes that are free at the beginning. -/
lemma run_eq_phases (task : Task) :
    run task = (do let p ← pairing; srcPhase task p; dstPhase task p) := rfl

/-- What every adoption preserves holds after a phase, and nothing has been lost. -/
lemma returns_forM_settled (adopts : Pairing → NodeId → Adoption → Prop) {I : Pairing → Prop}
    {items : List NodeId} {f : NodeId → Matching Unit} (hp : p.OneToOne) (hI : I p)
    (hf : ∀ node q, q.OneToOne → Returns (f node) q fun _ => Settled (adopts q node) q)
    (hlabels : ∀ node q x, adopts q node x → ∀ old ∈ x.replaced,
      task.src.sameLabel task.dst old.src old.dst = true →
        task.src.sameLabel task.dst x.link.src x.link.dst = true)
    (hkeeps : ∀ node q x, adopts q node x → I q → I (x.result q)) :
    Returns (items.forM f) p fun _ q => q.OneToOne ∧ Gains task p q ∧ I q := by
  refine returns_forM (I := fun q => q.OneToOne ∧ Gains task p q ∧ I q)
    ⟨hp, .refl task p, hI⟩ ?_
  rintro node - q ⟨hq, hgains, hIq⟩
  refine (hf node q hq).mono fun _ r hr => ?_
  refine ⟨hr.oneToOne hq, hgains.trans (hr.gains fun x hx => hlabels node q x hx), ?_⟩
  cases hr with
  | pass => exact hIq
  | adopt hx _ => exact hkeeps node q _ hx hIq

/-- **The first phase** loses nothing and keeps the destination nodes that have a partner. -/
theorem returns_srcPhase (task : Task) (p : Pairing) (hq : q.OneToOne) :
    Returns (srcPhase task p) q fun _ r => r.OneToOne ∧ Gains task q r ∧
      ∀ d, q.hasDst d = true → r.hasDst d = true :=
  returns_forM_settled (AdoptsSrc task) hq (fun _ hd => hd)
    (fun _ _ hr => returns_settleSrc hr) (fun _ _ _ hx => hx.labels)
    fun _ _ _ hx hkept d hd => hx.hasDst_result (hkept d hd)

/-- **The second phase** loses nothing and keeps the source nodes that have a partner. -/
theorem returns_dstPhase (task : Task) (p : Pairing) (hq : q.OneToOne) :
    Returns (dstPhase task p) q fun _ r => r.OneToOne ∧ Gains task q r ∧
      ∀ s, q.hasSrc s = true → r.hasSrc s = true :=
  returns_forM_settled (AdoptsDst task) hq (fun _ hs => hs)
    (fun _ _ hr => returns_settleDst hr) (fun _ _ _ hx => hx.labels)
    fun _ _ _ hx hkept s hs => hx.hasSrc_result (hkept s hs)

end OrphanLeaves

/-- **Adoptions lose no pairs.**  Run on a one-to-one pairing, the stage does not fail.  Afterwards
there are no fewer pairs, and no fewer pairs of nodes with the same label.  The stage consists of
two phases: in the first one every destination node that has a partner keeps a partner, though
perhaps not the same one, and in the second one every source node.

**Proof sketch.** Both phases return, and neither loses pairs or pairs with equal labels.  The stage
is the two phases one after the other, so their gains add up. -/
theorem adoptions_lose_no_pairs (task : Task) (p : Pairing) (hone : p.isOneToOne = true) :
    let o := Stage.orphanLeaves.perform task p
    o.fault = none ∧ p.size ≤ o.pairing.size ∧
      p.equalCount task ≤ o.pairing.equalCount task ∧
      ∃ u v : Progress, (OrphanLeaves.srcPhase task p).run { pairing := p } = .ok () u ∧
        (OrphanLeaves.dstPhase task p).run u = .ok () v ∧ v.pairing = o.pairing ∧
        (∀ d, p.hasDst d = true → u.pairing.hasDst d = true) ∧
        ∀ s, u.pairing.hasSrc s = true → v.pairing.hasSrc s = true := by
  intro o
  have hp := Pairing.isOneToOne_iff.1 hone
  obtain ⟨_, q, n, hrun, hq, hgains, hdsts⟩ := OrphanLeaves.returns_srcPhase task p hp 0
  obtain ⟨_, r, m, hrun', -, hgains', hsrcs⟩ := OrphanLeaves.returns_dstPhase task p hq n
  have hstage : (OrphanLeaves.run task).run { pairing := p } = .ok () ⟨r, m⟩ := by
    rw [OrphanLeaves.run_eq_phases]
    change (OrphanLeaves.srcPhase task p >>= fun _ => OrphanLeaves.dstPhase task p).run
      { pairing := p } = _
    rw [EStateM.run_bind, hrun]
    exact hrun'
  have ho : o = ⟨r, m, none⟩ := by
    change (OrphanLeaves.run task).perform p = _
    rw [Matching.perform, hstage]
  have htotal := hgains.trans hgains'
  rw [ho]
  exact ⟨rfl, htotal.size, htotal.equal, ⟨q, n⟩, ⟨r, m⟩, hrun, hrun', rfl, hdsts, hsrcs⟩

/-- A leaf has moved into a wrapper, where it is linked to its like from a block that is free.  In
the first phase the leaf takes its place in a pair with the same label, and the other leaf becomes
free; in the second one the block gets a partner.  So there is one pair more, and there are as many
pairs with the same label as before. -/
theorem wrapped_leaf_takes_place_of_its_like :
    let src : Tree := .ofContents ⟨(⟨0⟩, "r"),
      .node (⟨1⟩, "x") .nil (.node (⟨2⟩, "q") (.leaf (⟨1⟩, "x")) .nil)⟩
    let dst : Tree := .ofContents ⟨(⟨0⟩, "r"),
      .node (⟨3⟩, "k") (.leaf (⟨1⟩, "x")) (.leaf (⟨2⟩, "z"))⟩
    let task : Task := { src, dst }
    let p := (Pairing.empty.insert 1 1).insert 4 3
    let o := Stage.orphanLeaves.perform task p
    p.isOneToOne = true ∧ o.pairing.pairs = [⟨1, 1⟩, ⟨2, 3⟩, ⟨3, 4⟩] ∧
      p.size = 2 ∧ p.size ≤ o.pairing.size ∧
      p.equalCount task = 2 ∧ p.equalCount task ≤ o.pairing.equalCount task ∧
      ∃ u : Progress, (OrphanLeaves.srcPhase task p).run { pairing := p } = .ok () u ∧
        u.pairing.hasDst 3 = true := by
  intro src dst task p o
  have hone : p.isOneToOne = true := by decide +kernel
  have hpairs : o.pairing.pairs = [⟨1, 1⟩, ⟨2, 3⟩, ⟨3, 4⟩] := by decide +kernel
  have hcounts : p.size = 2 ∧ p.equalCount task = 2 := by decide +kernel
  -- the outcome goes by its name, so that nothing is evaluated to compare the sizes
  have ho : Stage.orphanLeaves.perform task p = o := rfl
  have h := adoptions_lose_no_pairs task p hone
  simp only [ho] at h
  obtain ⟨-, hsize, hequal, u, -, hrun, -, -, hdsts, -⟩ := h
  exact ⟨hone, hpairs, hcounts.1, hsize, hcounts.2, hequal, u, hrun, hdsts 3 (by decide +kernel)⟩

end TreeMatching
