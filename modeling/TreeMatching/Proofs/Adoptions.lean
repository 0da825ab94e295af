import TreeMatching.Proofs.Runs

set_option autoImplicit false

/-!
# Adopting leaves of either tree

What is done about a free leaf of the destination tree whose parent has a partner is the mirror
image of what is done about a free leaf of the source tree.  So whatever has to be known about
adoptions is shown for source leaves, and carried over by putting the two trees in each other's
place.  Only a destination leaf below a free parent has no counterpart.

## Main definitions

* `Pair.swap`, `Pairing.inverse`, `Task.swap`, `OrphanLeaves.Adoption.swap` — pairs, pairings, tasks
  and adoptions with the two trees in each other's place.
* `OrphanLeaves.Adoption.Fits`, `OrphanLeaves.Adoption.result` — an adoption can be carried out, and
  what it leaves.
* `OrphanLeaves.AdoptsSrc`, `OrphanLeaves.AdoptsDst` — what an adoption of a free leaf can be.

## Main results

* `OrphanLeaves.adoptDst?_eq` — what is done about a destination leaf is the mirror image.
* `OrphanLeaves.adoptsSrc_of_adoptSrc?`, `OrphanLeaves.adoptsDst_of_adoptDst?` — what is done about
  a leaf is an adoption of it.
* `OrphanLeaves.returns_settleSrc`, `OrphanLeaves.returns_settleDst` — settling a leaf.
* `destination_leaves_are_adopted_like_source_leaves` — the two sides, compared by their results.
-/

namespace TreeMatching

open Matching

/-! ### The two trees in each other's place -/

/-- The pair with its nodes in each other's place. -/
def Pair.swap (z : Pair) : Pair := ⟨z.dst, z.src⟩

/-- The task with its trees in each other's place. -/
def Task.swap (task : Task) : Task where
  src := task.dst
  dst := task.src
  settings := task.settings
  rules := task.rules
  threads := task.threads

namespace Pairing

variable {p q : Pairing} {s d : NodeId}

/-- A pairing is determined by its two directions. -/
lemma eq_of_directions (hf : p.forward = q.forward) (hb : p.backward = q.backward) : p = q := by
  have hsize : p.size = q.size := by rw [p.size_eq, q.size_eq, hf]
  cases p
  cases q
  cases hf
  cases hb
  cases hsize
  rfl

/-- The pairing with the two trees in each other's place. -/
def inverse (p : Pairing) : Pairing where
  forward := p.backward
  backward := p.forward
  size := p.backward.count
  size_eq := rfl

/-- The partners of the inverse, from one side. -/
@[simp] lemma dst?_inverse : p.inverse.dst? d = p.src? d := rfl

/-- The partners of the inverse, from the other side. -/
@[simp] lemma src?_inverse : p.inverse.src? s = p.dst? s := rfl

/-- A link of the pairing is one of the inverse, the other way round. -/
lemma inverse_insert : (p.insert s d).inverse = p.inverse.insert d s := eq_of_directions rfl rfl

/-- A link that is undone in the pairing is undone in the inverse, the other way round. -/
lemma inverse_erase : (p.erase s d).inverse = p.inverse.erase d s := eq_of_directions rfl rfl

/-- The inverse of a one-to-one pairing is one-to-one. -/
lemma OneToOne.inverse (h : p.OneToOne) : p.inverse.OneToOne := fun s d => (h d s).symm

/-- The pairs of the inverse are those of the pairing, swapped. -/
lemma OneToOne.swap_mem_pairs_inverse (h : p.OneToOne) {z : Pair} :
    z.swap ∈ p.inverse.pairs ↔ z ∈ p.pairs := by
  rw [mem_pairs_iff, mem_pairs_iff]
  exact (h z.src z.dst).symm

end Pairing

namespace OrphanLeaves

variable {task : Task} {p q : Pairing} {node : NodeId} {x : Adoption} {unmatched : List NodeId}

/-! ### Carrying out an adoption -/

namespace Adoption

/-- The adoption with the two trees in each other's place. -/
def swap (x : Adoption) : Adoption := ⟨x.link.swap, x.replaced.map Pair.swap⟩

/-- An adoption is the mirror image of its mirror image. -/
@[simp] lemma swap_swap : x.swap.swap = x := by
  obtain ⟨link, replaced⟩ := x
  cases replaced <;> rfl

/-- The pairing without the link that is replaced. -/
def cleared (x : Adoption) (p : Pairing) : Pairing :=
  x.replaced.elim p fun old => p.erase old.src old.dst

/-- The pairing that the adoption leaves. -/
def result (x : Adoption) (p : Pairing) : Pairing := (x.cleared p).insert x.link.src x.link.dst

/-- The adoption can be carried out: the link that is replaced is there, and without it the nodes
that are to be linked are free. -/
structure Fits (x : Adoption) (p : Pairing) : Prop where
  linked : ∀ old ∈ x.replaced, p.dst? old.src = some old.dst
  srcFree : (x.cleared p).dst? x.link.src = none
  dstFree : (x.cleared p).src? x.link.dst = none

/-- **An adoption that fits is carried out**: the link that it replaces can be undone, and then the
nodes are free to be linked. -/
lemma Fits.returns_perform (h : x.Fits p) : Returns x.perform p fun _ q => q = x.result p := by
  obtain ⟨link, replaced⟩ := x
  obtain ⟨hlinked, hs, hd⟩ := h
  cases replaced with
  | none => exact returns_link hs hd rfl
  | some old =>
    refine Returns.bind (Q := fun _ q => q = p.erase old.src old.dst)
      (returns_unlink (hlinked old rfl) rfl) ?_
    rintro _ _ rfl
    exact returns_link hs hd rfl

/-- An adoption that fits keeps a pairing one-to-one. -/
lemma Fits.oneToOne (h : x.Fits p) (hp : p.OneToOne) : (x.result p).OneToOne := by
  obtain ⟨link, replaced⟩ := x
  cases replaced with
  | none => exact hp.insert h.srcFree h.dstFree
  | some old => exact (hp.erase (h.linked old rfl)).insert h.srcFree h.dstFree

/-- The mirror image of an adoption clears the mirror image of the pairing. -/
lemma cleared_swap : x.swap.cleared p.inverse = (x.cleared p).inverse := by
  obtain ⟨link, replaced⟩ := x
  cases replaced with
  | none => rfl
  | some old => exact Pairing.inverse_erase.symm

/-- The mirror image of an adoption leaves the mirror image of the pairing. -/
lemma result_swap : x.swap.result p.inverse = (x.result p).inverse := by
  rw [result, cleared_swap, result, Pairing.inverse_insert]
  rfl

/-- An adoption whose mirror image can be carried out can be carried out. -/
lemma Fits.of_swap (h : x.swap.Fits p.inverse) (hp : p.OneToOne) : x.Fits p where
  linked old hold := (hp _ _).2 (h.linked old.swap (Option.mem_map_of_mem _ hold))
  srcFree := by
    have hfree := h.dstFree
    rwa [cleared_swap] at hfree
  dstFree := by
    have hfree := h.srcFree
    rwa [cleared_swap] at hfree

end Adoption

/-! ### The mirror image -/

/-- An orphan of the destination tree is adopted in the same slot as its mirror image in the source
tree. -/
lemma adoptDstSameSlot?_eq (task : Task) (p : Pairing) (node child : NodeId) :
    adoptDstSameSlot? task p node child =
      (adoptSrcSameSlot? task.swap p.inverse node child).map Adoption.swap := by
  unfold adoptDstSameSlot? adoptSrcSameSlot?
  rw [Pairing.src?_inverse]
  cases p.dst? child with
  | none => rfl
  | some current =>
    dsimp only
    rw [Tree.sameLabel_comm task.src task.dst child node,
      Tree.sameLabel_comm task.src task.dst child current]
    simp only [apply_ite (Option.map Adoption.swap)]
    rfl

/-- An orphan of the destination tree is adopted inside another node as its mirror image in the
source tree. -/
lemma adoptDstWrapped?_eq (task : Task) (p : Pairing) (node inner : NodeId) :
    adoptDstWrapped? task p node inner =
      (adoptSrcWrapped? task.swap p.inverse node inner).map Adoption.swap := by
  unfold adoptDstWrapped? adoptSrcWrapped?
  rw [Pairing.src?_inverse, Tree.sameContent_comm task.src task.dst inner node]
  cases p.dst? inner with
  | none => simp only [Option.bind_none, ite_self, Option.map_none]
  | some current =>
    simp only [Option.bind_some, apply_ite (Option.map Adoption.swap)]
    rfl

/-- An orphan of the destination tree is adopted among siblings as its mirror image in the source
tree.

**Proof sketch.** Sibling by sibling.  Whether contents and labels agree does not depend on the
side, and the look-ups of the inverse pairing are those of the pairing the other way round. -/
lemma adoptDstAmong?_eq (task : Task) (p : Pairing) (node : NodeId) (siblings : List NodeId) :
    adoptDstAmong? task p node siblings =
      (adoptSrcAmong? task.swap p.inverse node siblings).map Adoption.swap := by
  unfold adoptDstAmong? adoptSrcAmong?
  rw [List.map_findSome?]
  refine congrArg (List.findSome? · siblings) (funext fun a => ?_)
  rw [Function.comp_apply, Pairing.src?_inverse, Tree.sameContent_comm task.src task.dst a node]
  cases p.dst? a with
  | none =>
    simp only [apply_ite (Option.map Adoption.swap)]
    rfl
  | some current =>
    dsimp only
    rw [Tree.sameLabel_comm task.src task.dst a current]
    simp only [apply_ite (Option.map Adoption.swap)]
    rfl

/-- **What is done about a destination leaf whose parent has a partner is the mirror image** of what
is done about it as a source leaf, in the inverse pairing of the swapped trees.

**Proof sketch.** The parent is the same on both sides, and so is its partner, which exists by
assumption.  The node in the slot is found in the same place, and each of the three rules that
follow is the mirror image of its counterpart. -/
theorem adoptDst?_eq
    (hparent : ∀ parent, task.dst.parent? node = some parent → p.src? parent ≠ none) :
    adoptDst? task p unmatched node = (adoptSrc? task.swap p.inverse node).map Adoption.swap := by
  unfold adoptDst? adoptSrc?
  simp only [Option.bind_eq_bind, Option.map_bind]
  change (task.dst.parent? node).bind _ = (task.dst.parent? node).bind _
  refine Option.bind_congr fun parent hq => ?_
  -- with a linked parent, the rule that has no counterpart is out of reach
  obtain ⟨partner, hpartner⟩ := Option.ne_none_iff_exists'.1 (hparent parent hq)
  simp only [Function.comp_apply, Option.map_bind, Pairing.dst?_inverse, hpartner,
    Option.bind_some]
  change (task.src.child? partner (task.dst.position node)).bind _ =
    (task.src.child? partner (task.dst.position node)).bind _
  refine Option.bind_congr fun child _ => ?_
  rw [Tree.sameKind_comm task.src task.dst child node, adoptDstSameSlot?_eq, adoptDstAmong?_eq]
  simp only [apply_ite (Option.map Adoption.swap), Option.map_bind, adoptDstWrapped?_eq]
  rfl

/-- Nothing is done about a source leaf whose parent is free. -/
lemma adoptSrc?_eq_none
    (hparent : ∀ parent, task.src.parent? node = some parent → p.dst? parent = none) :
    adoptSrc? task p node = none := by
  rw [adoptSrc?, Option.bind_eq_bind, Option.bind_eq_none_iff]
  intro parent hq
  rw [hparent parent hq]
  rfl

/-! ### What an adoption can be -/

/-- The adoption links the source leaf `node` to a destination node of the same kind, which loses
its partner if it has one.  If that partner had the same label, so has the leaf. -/
structure AdoptsSrc (task : Task) (p : Pairing) (node : NodeId) (x : Adoption) : Prop where
  src : x.link.src = node
  kinds : task.src.sameKind task.dst x.link.src x.link.dst = true
  replaced : x.replaced = (p.src? x.link.dst).map fun current => ⟨current, x.link.dst⟩
  labels : ∀ old ∈ x.replaced, task.src.sameLabel task.dst old.src old.dst = true →
    task.src.sameLabel task.dst x.link.src x.link.dst = true

/-- The adoption links the destination leaf `node` in the same way to a source node. -/
def AdoptsDst (task : Task) (p : Pairing) (node : NodeId) (x : Adoption) : Prop :=
  AdoptsSrc task.swap p.inverse node x.swap

section Adopts

variable {b current : NodeId} (hk : task.src.sameKind task.dst node b = true)

include hk

/-- A leaf may be linked to a free node of its kind; nothing is replaced. -/
lemma adoptsSrc_of_free (h : p.src? b = none) : AdoptsSrc task p node { link := ⟨node, b⟩ } where
  src := rfl
  kinds := hk
  replaced := by rw [h]; rfl
  labels := by simp

/-- A leaf may take over the partner of another node; equal labels are parted only for equal
ones. -/
lemma adoptsSrc_takeDst (h : p.src? b = some current)
    (hl : task.src.sameLabel task.dst current b = true →
      task.src.sameLabel task.dst node b = true) :
    AdoptsSrc task p node (takeDst node b current) where
  src := rfl
  kinds := hk
  replaced := by rw [takeDst, h]; rfl
  labels := by
    rintro _ ⟨⟩
    exact hl

end Adopts

/-! One lemma for each place where a partner is looked for. -/

/-- What is found in the same slot is an adoption: a free child, or one that gives up its
partner.

**Proof sketch.** There are three ways to find something.  The child is free; or it has the label of
the leaf; or its label differs from that of its partner as well, so that no equal labels are
parted. -/
lemma adoptsSrc_of_sameSlot? {child : NodeId} (hk : task.src.sameKind task.dst node child = true)
    (h : adoptSrcSameSlot? task p node child = some x) : AdoptsSrc task p node x := by
  unfold adoptSrcSameSlot? at h
  split at h
  · next hfree =>
    cases h
    exact adoptsSrc_of_free hk hfree
  · next current hcur =>
    split at h
    · next hlabel =>
      split at h <;> cases h
      exact adoptsSrc_takeDst hk hcur fun _ => hlabel
    · split at h
      · next hcond =>
        cases h
        rw [Bool.and_eq_true, Bool.not_eq_true'] at hcond
        refine adoptsSrc_takeDst hk hcur fun hold => ?_
        rw [hcond.2] at hold
        cases hold
      · cases h

/-- What is found inside another node is an adoption. -/
lemma adoptsSrc_of_wrapped? {inner : NodeId} (h : adoptSrcWrapped? task p node inner = some x) :
    AdoptsSrc task p node x := by
  unfold adoptSrcWrapped? at h
  split at h
  · next hsame =>
    obtain ⟨current, hcur, h⟩ := Option.bind_eq_some_iff.1 h
    split at h <;> cases h
    exact adoptsSrc_takeDst (Bool.and_eq_true_iff.1 hsame).1 hcur fun _ =>
      Tree.sameLabel_of_sameContent hsame
  · cases h

/-- What is found among siblings is an adoption. -/
lemma adoptsSrc_of_among? {siblings : List NodeId}
    (h : adoptSrcAmong? task p node siblings = some x) : AdoptsSrc task p node x := by
  obtain ⟨b, -, h⟩ := List.exists_of_findSome?_eq_some h
  split at h
  · next hsame =>
    have hk := (Bool.and_eq_true_iff.1 hsame).1
    split at h
    · next hfree =>
      cases h
      exact adoptsSrc_of_free hk hfree
    · next current hcur =>
      split at h <;> cases h
      exact adoptsSrc_takeDst hk hcur fun _ => Tree.sameLabel_of_sameContent hsame
  · cases h

/-- **What is done about a source leaf is an adoption of it.** -/
theorem adoptsSrc_of_adoptSrc? (h : adoptSrc? task p node = some x) : AdoptsSrc task p node x := by
  simp only [adoptSrc?, Option.bind_eq_bind, Option.bind_eq_some_iff] at h
  obtain ⟨parent, -, partner, -, child, -, h⟩ := h
  split at h
  · next hk => exact adoptsSrc_of_sameSlot? hk h
  · split at h
    · obtain ⟨inner, -, h⟩ := Option.bind_eq_some_iff.1 h
      exact adoptsSrc_of_wrapped? h
    · exact adoptsSrc_of_among? h

/-- The rule that has no counterpart for source leaves.

**Proof sketch.** The child looks like the leaf, so it has its kind and its label.  It is free, or
it gives up its partner for a leaf with its own label.  Both are adoptions on the swapped side. -/
lemma adoptsDst_of_underNew? {parent partner : NodeId}
    (h : adoptDstUnderNew? task p node parent partner = some x) : AdoptsDst task p node x := by
  simp only [adoptDstUnderNew?, Option.bind_eq_bind, Option.bind_eq_some_iff] at h
  obtain ⟨child, -, h⟩ := h
  split at h
  · next hsame =>
    rw [Tree.sameContent_comm] at hsame
    have hk := (Bool.and_eq_true_iff.1 hsame).1
    split at h
    · next hfree =>
      cases h
      exact (adoptsSrc_of_free hk hfree : AdoptsSrc task.swap p.inverse node _)
    · next current hcur =>
      split at h <;> cases h
      exact (adoptsSrc_takeDst hk hcur fun _ => Tree.sameLabel_of_sameContent hsame :
        AdoptsSrc task.swap p.inverse node _)
  · cases h

/-- **What is done about a destination leaf is an adoption of it.**

**Proof sketch.** If the parent has a partner, the rules are those for source leaves, mirrored.
Otherwise the only rule is the one that has no counterpart. -/
theorem adoptsDst_of_adoptDst? (h : adoptDst? task p unmatched node = some x) :
    AdoptsDst task p node x := by
  by_cases hparent : ∀ parent, task.dst.parent? node = some parent → p.src? parent ≠ none
  · rw [adoptDst?_eq hparent, Option.map_eq_some_iff] at h
    obtain ⟨y, hy, rfl⟩ := h
    rw [AdoptsDst, Adoption.swap_swap]
    exact adoptsSrc_of_adoptSrc? hy
  · simp only [not_forall, ne_eq, not_not, exists_prop] at hparent
    obtain ⟨parent, hq, hfree⟩ := hparent
    simp only [adoptDst?, Option.bind_eq_bind, hq, hfree, Option.bind_some] at h
    split at h
    · obtain ⟨grandparent, -, h⟩ := Option.bind_eq_some_iff.1 h
      obtain ⟨partner, -, h⟩ := Option.bind_eq_some_iff.1 h
      exact adoptsDst_of_underNew? h
    · cases h

/-! ### Settling a leaf -/

/-- A free source leaf can be adopted.

**Proof sketch.** What is replaced is the link of the destination node, if it has one.  Once this is
undone, the destination node is free, and the leaf has been free before. -/
lemma AdoptsSrc.fits (h : AdoptsSrc task p node x) (hp : p.OneToOne) (hfree : p.dst? node = none) :
    x.Fits p := by
  obtain ⟨⟨s, b⟩, replaced⟩ := x
  obtain ⟨rfl, -, hreplaced, -⟩ := h
  dsimp only at hreplaced hfree
  subst hreplaced
  cases hcur : p.src? b with
  | none => exact ⟨by simp, hfree, hcur⟩
  | some current =>
    refine ⟨?_, ?_, ?_⟩
    · rintro _ ⟨⟩
      exact (hp current b).2 hcur
    · change (p.erase current b).dst? s = none
      rw [Pairing.dst?_erase, hfree, ite_self]
    · change (p.erase current b).src? b = none
      rw [Pairing.src?_erase, if_pos rfl]

/-- A free destination leaf can be adopted. -/
lemma AdoptsDst.fits (h : AdoptsDst task p node x) (hp : p.OneToOne) (hfree : p.src? node = none) :
    x.Fits p :=
  .of_swap (AdoptsSrc.fits h hp.inverse hfree) hp

/-- The pairing that is left when something, or nothing, is done about a leaf. -/
def settled (p : Pairing) (done : Option Adoption) : Pairing := done.elim p fun x => x.result p

/-- The mirror image of what is done leaves the mirror image of the pairing. -/
lemma settled_inverse (done : Option Adoption) :
    settled p.inverse done = (settled p (done.map Adoption.swap)).inverse := by
  cases done with
  | none => rfl
  | some x =>
    change x.result p.inverse = (x.swap.result p).inverse
    rw [← Adoption.result_swap, Adoption.swap_swap]

/-- Doing something or nothing about a leaf leaves the pairing that is settled. -/
lemma returns_settled {done : Option Adoption} (h : ∀ x ∈ done, x.Fits p) :
    Returns (do if let some x := done then x.perform) p fun _ q => q = settled p done := by
  cases done with
  | none => exact returns_pure rfl
  | some x => exact (h x rfl).returns_perform

/-- **Settling a free source leaf** carries out what is to be done about it. -/
lemma returns_settleSrc_of_free (task : Task) (hp : p.OneToOne)
    (hleaf : task.src.childCount node = 0) (hfree : p.dst? node = none) :
    Returns (settleSrc task node) p fun _ q => q = settled p (adoptSrc? task p node) := by
  refine returns_pairing_bind ?_
  rw [if_pos ⟨hleaf, Pairing.not_hasSrc_iff.2 hfree⟩]
  exact returns_settled fun x hx => (adoptsSrc_of_adoptSrc? hx).fits hp hfree

/-- **Settling a free destination leaf** carries out what is to be done about it. -/
lemma returns_settleDst_of_free (task : Task) (unmatched : List NodeId) (hp : p.OneToOne)
    (hleaf : task.dst.childCount node = 0) (hfree : p.src? node = none) :
    Returns (settleDst task unmatched node) p fun _ q =>
      q = settled p (adoptDst? task p unmatched node) := by
  refine returns_pairing_bind ?_
  rw [if_pos ⟨hleaf, Pairing.not_hasDst_iff.2 hfree⟩]
  exact returns_settled fun x hx => (adoptsDst_of_adoptDst? hx).fits hp hfree

/-- What settling a leaf can do: nothing, or carrying out an adoption that is possible. -/
inductive Settled (adopts : Adoption → Prop) (p : Pairing) : Pairing → Prop
  | pass : Settled adopts p p
  | adopt {x : Adoption} (adoption : adopts x) (fits : x.Fits p) : Settled adopts p (x.result p)

section Settled

variable {adopts : Adoption → Prop}

/-- Carrying out adoptions that are possible is all that settling does. -/
lemma settled_of_forall {done : Option Adoption} (h : ∀ x ∈ done, adopts x ∧ x.Fits p) :
    Settled adopts p (settled p done) := by
  cases done with
  | none => exact .pass
  | some x => exact .adopt (h x rfl).1 (h x rfl).2

/-- Settling a leaf keeps a pairing one-to-one. -/
lemma Settled.oneToOne (h : Settled adopts p q) (hp : p.OneToOne) : q.OneToOne := by
  cases h with
  | pass => exact hp
  | adopt _ hfits => exact hfits.oneToOne hp

end Settled

/-- What settling a source leaf can do. -/
theorem returns_settleSrc (hp : p.OneToOne) :
    Returns (settleSrc task node) p fun _ => Settled (AdoptsSrc task p node) p := by
  by_cases hcond : task.src.childCount node = 0 ∧ p.dst? node = none
  · refine (returns_settleSrc_of_free task hp hcond.1 hcond.2).mono ?_
    rintro _ _ rfl
    refine settled_of_forall fun x hx => ?_
    have hadopts := adoptsSrc_of_adoptSrc? hx
    exact ⟨hadopts, hadopts.fits hp hcond.2⟩
  · refine returns_pairing_bind ?_
    rw [← Pairing.not_hasSrc_iff] at hcond
    rw [if_neg hcond]
    exact returns_pure .pass

/-- What settling a destination leaf can do. -/
theorem returns_settleDst (hp : p.OneToOne) :
    Returns (settleDst task unmatched node) p fun _ => Settled (AdoptsDst task p node) p := by
  by_cases hcond : task.dst.childCount node = 0 ∧ p.src? node = none
  · refine (returns_settleDst_of_free task unmatched hp hcond.1 hcond.2).mono ?_
    rintro _ _ rfl
    refine settled_of_forall fun x hx => ?_
    have hadopts := adoptsDst_of_adoptDst? hx
    exact ⟨hadopts, hadopts.fits hp hcond.2⟩
  · refine returns_pairing_bind ?_
    rw [← Pairing.not_hasDst_iff] at hcond
    rw [if_neg hcond]
    exact returns_pure .pass

end OrphanLeaves

/-- **Destination leaves are adopted like source leaves.**  For a free destination leaf and a
one-to-one pairing, settling the leaf is compared with settling it as a source leaf, after the two
trees have changed places and the pairing has been inverted.  Neither fails.  If the parent of the
leaf has a partner, or there is no parent, the pairs that are left on one side are those on the
other side, swapped.  If the parent is free, nothing happens on the side of the source leaf.

**Proof sketch.** On both sides settling a free leaf amounts to one look-up for an adoption.  If the
parent is linked or missing, the rule that has no counterpart does not apply, and the look-up for
the destination leaf is that for the source leaf with everything swapped.  If the parent is free,
the look-up for the source leaf finds nothing. -/
theorem destination_leaves_are_adopted_like_source_leaves (task : Task) (p : Pairing)
    (unmatched : List NodeId) (node : NodeId) (hone : p.isOneToOne = true)
    (hleaf : task.dst.childCount node = 0) (hfree : p.hasDst node = false) :
    let o := (OrphanLeaves.settleDst task unmatched node).perform p
    let m := (OrphanLeaves.settleSrc task.swap node).perform p.inverse
    o.fault = none ∧ m.fault = none ∧
      ((∀ parent, task.dst.parent? node = some parent → p.hasDst parent = true) →
        ∀ z, z ∈ o.pairing.pairs ↔ z.swap ∈ m.pairing.pairs) ∧
      ((∀ parent, task.dst.parent? node = some parent → p.hasDst parent = false) →
        m.pairing = p.inverse) := by
  intro o m
  have hp := Pairing.isOneToOne_iff.1 hone
  have hnode : p.src? node = none := Pairing.not_hasDst_iff.1 (by rw [hfree]; rfl)
  obtain ⟨hfault, ho⟩ :=
    (OrphanLeaves.returns_settleDst_of_free task unmatched hp hleaf hnode).perform
  obtain ⟨hfault', hm⟩ :=
    (OrphanLeaves.returns_settleSrc_of_free task.swap hp.inverse hleaf hnode).perform
  refine ⟨hfault, hfault', fun hparent z => ?_, fun hparent => ?_⟩
  · have hlinked : ∀ parent, task.dst.parent? node = some parent → p.src? parent ≠ none :=
      fun parent hq => Option.isSome_iff_ne_none.1 (hparent parent hq)
    -- with a linked parent the two look-ups mirror each other
    have hmirror : m.pairing = o.pairing.inverse := by
      rw [ho, OrphanLeaves.adoptDst?_eq hlinked, ← OrphanLeaves.settled_inverse]
      exact hm
    have hq : o.pairing.OneToOne :=
      (OrphanLeaves.returns_settleDst hp).perform.2.oneToOne hp
    rw [hmirror, hq.swap_mem_pairs_inverse]
  · rw [OrphanLeaves.adoptSrc?_eq_none] at hm
    · exact hm
    · exact fun parent hq => Pairing.not_hasDst_iff.1 (by rw [hparent parent hq]; rfl)

/-- A leaf finds at its position a node of its kind that has gone to another block.  Since that
block is free and all labels differ, the leaf takes the node; and so it does as a source leaf. -/
theorem leaf_takes_back_node_of_its_position :
    let src : Tree := .ofContents ⟨(⟨0⟩, "r"), .node (⟨1⟩, "s") (.leaf (⟨2⟩, "x")) .nil⟩
    let dst : Tree := .ofContents ⟨(⟨0⟩, "r"), .node (⟨1⟩, "e") (.leaf (⟨2⟩, "z"))
      (.node (⟨1⟩, "d") (.leaf (⟨2⟩, "y")) .nil)⟩
    let task : Task := { src, dst }
    let p := (Pairing.empty.insert 2 4).insert 3 3
    let o := (OrphanLeaves.settleDst task [] 5).perform p
    let m := (OrphanLeaves.settleSrc task.swap 5).perform p.inverse
    p.isOneToOne = true ∧ dst.childCount 5 = 0 ∧ p.hasDst 5 = false ∧
      dst.parent? 5 = some 4 ∧ p.hasDst 4 = true ∧
      o.pairing.pairs = [⟨2, 4⟩, ⟨3, 5⟩] ∧
      ∀ z, z ∈ o.pairing.pairs ↔ z.swap ∈ m.pairing.pairs := by
  intro src dst task p o m
  have hone : p.isOneToOne = true := by decide +kernel
  have hleaf : dst.childCount 5 = 0 := by decide +kernel
  have hparent : dst.parent? 5 = some 4 ∧ p.hasDst 5 = false ∧ p.hasDst 4 = true := by
    decide +kernel
  have hpairs : o.pairing.pairs = [⟨2, 4⟩, ⟨3, 5⟩] := by decide +kernel
  obtain ⟨-, -, hmirror, -⟩ := destination_leaves_are_adopted_like_source_leaves task p [] 5 hone
    hleaf hparent.2.1
  refine ⟨hone, hleaf, hparent.2.1, hparent.1, hparent.2.2, hpairs, hmirror fun parent hq => ?_⟩
  obtain rfl := Option.some_inj.1 (hparent.1.symm.trans hq)
  exact hparent.2.2

/-- Below a free parent only the destination leaf finds its like. -/
example :
    let task : Task :=
      { src := .ofContents ⟨(⟨0⟩, "r"), .leaf (⟨2⟩, "x")⟩
        dst := .ofContents ⟨(⟨0⟩, "r"), .node (⟨1⟩, "e") (.leaf (⟨2⟩, "x")) .nil⟩ }
    let p := Pairing.empty.insert 1 1
    ((OrphanLeaves.settleDst task [2, 3] 3).perform p).pairing.pairs = [⟨1, 1⟩, ⟨2, 3⟩] ∧
      ((OrphanLeaves.settleSrc task.swap 3).perform p.inverse).pairing.pairs = [⟨1, 1⟩] := by
  decide +kernel

end TreeMatching
