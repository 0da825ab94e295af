import Mathlib.Data.List.Nodup
import Mathlib.Data.List.Perm.Basic
import TreeMatching.Proofs.Runs

set_option autoImplicit false

/-!
# Rounds of leaf moves

A round of leaf moves deals with one pair after the other.  For each it may undo some links, and the
links that are to replace them are queued until the end of the round.  This module says what a round
can do, once and for all: everything that is known about leaf moves follows from the descriptions
given here.

## Main definitions

* `Pairing.eraseAll` — undoes the links of a list.
* `LeafMoves.Change.Moves` — the ways in which the link of a pair is moved.
* `LeafMoves.Dealt` — the pairing and the queue after some pairs of a round have been dealt with.
* `LeafMoves.Queued` — the queued links join free nodes, each of them once.
* `LeafMoves.Round` — what a round makes of a pairing.

## Main results

* `LeafMoves.moves_of_change?` — every change is such a move.
* `LeafMoves.Dealt.oneToOne`, `LeafMoves.Dealt.queued` — the pairing stays one-to-one, and the
  queued links can be made.
* `LeafMoves.Queued.returns_forM_link` — making the queued links adds them to the pairing.
* `LeafMoves.returns_round` — a round does not fail.
* `LeafMoves.returns_rounds`, `LeafMoves.returns_reconcile` — what every round carries on holds
  after all of them.
-/

namespace TreeMatching

open Matching

/-! ### Undoing several links -/

namespace Pairing

variable {p : Pairing} {s d : NodeId} {zs : List Pair}

/-- Undoes the links of a list. -/
def eraseAll (p : Pairing) (zs : List Pair) : Pairing :=
  zs.foldl (fun p z => p.erase z.src z.dst) p

/-- Undoing several links frees their source nodes, and no others. -/
lemma dst?_eraseAll :
    (p.eraseAll zs).dst? s = if s ∈ zs.map Pair.src then none else p.dst? s := by
  induction zs generalizing p with
  | nil => simp [eraseAll]
  | cons z zs ih =>
    change ((p.erase z.src z.dst).eraseAll zs).dst? s = _
    rw [ih, dst?_erase, List.map_cons]
    by_cases hs : z.src = s
    · simp [hs]
    · simp [hs, Ne.symm hs]

/-- Undoing several links frees their destination nodes, and no others. -/
lemma src?_eraseAll :
    (p.eraseAll zs).src? d = if d ∈ zs.map Pair.dst then none else p.src? d := by
  induction zs generalizing p with
  | nil => simp [eraseAll]
  | cons z zs ih =>
    change ((p.erase z.src z.dst).eraseAll zs).src? d = _
    rw [ih, src?_erase, List.map_cons]
    by_cases hd : z.dst = d
    · simp [hd]
    · simp [hd, Ne.symm hd]

section Linked

variable (h : ∀ z ∈ zs, p.dst? z.src = some z.dst)

include h

/-- Undoing links leaves exactly the other links.

**Proof sketch.** Undoing links frees their source nodes.  A source node in the list is linked to
its partner in the list only, since all pairs of the list are links. -/
lemma dst?_eraseAll_eq_some_iff :
    (p.eraseAll zs).dst? s = some d ↔ p.dst? s = some d ∧ ⟨s, d⟩ ∉ zs := by
  rw [dst?_eraseAll]
  split
  · next hs =>
    obtain ⟨z, hz, rfl⟩ := List.mem_map.1 hs
    constructor
    · intro hnone
      cases hnone
    · rintro ⟨hd, hn⟩
      rw [h z hz, Option.some.injEq] at hd
      exact absurd (hd ▸ hz) hn
  · next hs =>
    exact ⟨fun hd => ⟨hd, fun hz => hs (List.mem_map_of_mem (f := Pair.src) hz)⟩, And.left⟩

/-- Undoing links keeps a pairing one-to-one. -/
lemma OneToOne.eraseAll (hp : p.OneToOne) : (p.eraseAll zs).OneToOne := by
  intro s d
  rw [dst?_eraseAll_eq_some_iff h, src?_eraseAll, hp s d]
  split
  · next hd =>
    obtain ⟨z, hz, rfl⟩ := List.mem_map.1 hd
    have hback := (hp _ _).1 (h z hz)
    simp only [hback, Option.some.injEq, reduceCtorEq, iff_false, not_and, not_not]
    rintro rfl
    exact hz
  · next hd =>
    exact ⟨And.left, fun hs => ⟨hs, fun hz => hd (List.mem_map_of_mem (f := Pair.dst) hz)⟩⟩

/-- Undoing one link leaves the others alone. -/
lemma linked_erase {z : Pair} (hz : p.dst? z.src = some z.dst) (hnew : z ∉ zs) :
    ∀ y ∈ zs, (p.erase z.src z.dst).dst? y.src = some y.dst := by
  intro y hy
  have hy' := h y hy
  rw [dst?_erase, if_neg, hy']
  intro hsrc
  rw [← hsrc, hz, Option.some.injEq] at hy'
  have heq : z = y := show (⟨z.src, z.dst⟩ : Pair) = ⟨y.src, y.dst⟩ by rw [hsrc, hy']
  exact hnew (heq ▸ hy)

/-- Links that are there can all be undone. -/
lemma returns_eraseAll (hnd : zs.Nodup) :
    Returns (zs.forM fun z => unlinkIfLinked z.src z.dst) p fun _ q => q = p.eraseAll zs := by
  induction zs generalizing p with
  | nil => exact returns_pure rfl
  | cons z zs ih =>
    rw [List.nodup_cons] at hnd
    have hz := h z (List.mem_cons_self ..)
    change Returns (unlinkIfLinked z.src z.dst >>= fun _ =>
      zs.forM fun z => unlinkIfLinked z.src z.dst) p _
    refine Returns.bind (Q := fun _ q => q = p.erase z.src z.dst)
      (returns_unlinkIfLinked (fun _ => rfl) fun hn => absurd hz hn) ?_
    rintro _ _ rfl
    exact ih (linked_erase (fun y hy => h y (List.mem_cons_of_mem z hy)) hz hnd.1) hnd.2

end Linked

end Pairing

namespace LeafMoves

variable {task : Task} {p q r : Pairing}

/-! ### Changes -/

/-- A look-alike is a child with the same content. -/
lemma of_lookAlike? {t other : Tree} {parent like c : NodeId} {position : Nat}
    (h : lookAlike? t parent position other like = some c) :
    c ∈ t.children parent ∧ t.sameContent other c like = true := by
  unfold lookAlike? at h
  split at h
  · next d hd =>
    cases h
    have hmem : c ∈ (t.children parent).filter fun c => t.sameContent other c like := by
      rw [hd]
      exact List.mem_singleton_self c
    exact List.mem_filter.1 hmem
  · rw [Option.filter_eq_some_iff] at h
    exact ⟨List.mem_of_getElem? h.1, h.2⟩

/-- The ways in which the link of the pair `x` is moved, if siblings are looked for below the nodes
of the pair `parents`. -/
inductive Change.Moves (task : Task) (p : Pairing) (parents x : Pair) : Change → Prop
  /-- The pair exchanges partners with a pair whose labels differ.  One of the two nodes it gets is
  a look-alike. -/
  | exchange {s d : NodeId} {made : List Pair} (linked : p.dst? s = some d)
      (unlike : task.src.sameLabel task.dst s d = false) (srcNe : s ≠ x.src) (dstNe : d ≠ x.dst)
      (alike : (s ∈ task.src.children parents.src ∧ task.src.sameContent task.dst s x.dst = true) ∨
        d ∈ task.dst.children parents.dst ∧ task.src.sameContent task.dst x.src d = true)
      (perm : made.Perm [⟨x.src, d⟩, ⟨s, x.dst⟩]) :
      Moves task p parents x ⟨[x, ⟨s, d⟩], made⟩
  /-- One of the nodes of the pair, or either of them, gets a look-alike that was free. -/
  | shift (s? d? : Option NodeId) {made : List Pair}
      (srcs : ∀ s ∈ s?, s ∈ task.src.children parents.src ∧ p.dst? s = none ∧
        task.src.sameContent task.dst s x.dst = true)
      (dsts : ∀ d ∈ d?, d ∈ task.dst.children parents.dst ∧ p.src? d = none ∧
        task.src.sameContent task.dst x.src d = true)
      (some_made : made ≠ [])
      (perm : made.Perm ((d?.map fun d => (⟨x.src, d⟩ : Pair)).toList ++
        (s?.map fun s => (⟨s, x.dst⟩ : Pair)).toList)) :
      Moves task p parents x ⟨[x], made⟩

section Cases

variable {queue : List Pair} {srcParent dstParent : NodeId} {x : Pair} {c : Change}

/-- Moving a link to a destination sibling.

**Proof sketch.** If the look-alike has a partner, it is an unlike one, hence neither end of it is
an end of the pair, and the two links exchange their ends.  If it is free, the link is moved to it;
the other end may take a free look-alike among its own siblings. -/
lemma moves_of_forward? (hp : p.OneToOne) (hx : p.dst? x.src = some x.dst)
    (h : forward? task p queue srcParent dstParent x = some c) :
    c.Moves task p ⟨srcParent, dstParent⟩ x := by
  simp only [forward?, Option.bind_eq_bind, Option.bind_eq_some_iff] at h
  obtain ⟨target, htarget, h⟩ := h
  obtain ⟨hchild, hsame⟩ := of_lookAlike? htarget
  rw [Tree.sameContent_comm] at hsame
  split at h
  · next current hcur =>
    have hlinked : p.dst? current = some target := (hp current target).2 hcur
    split at h
    · cases h
    · next hunlike =>
      -- the leaf itself cannot be the partner of its look-alike, since their labels agree
      have hsrc : current ≠ x.src := by
        rintro rfl
        exact hunlike (Tree.sameLabel_of_sameContent hsame)
      have hdst : target ≠ x.dst := by
        rintro rfl
        rw [(hp _ _).1 hx, Option.some.injEq] at hcur
        exact hsrc hcur.symm
      rw [if_pos ⟨hdst, hsrc⟩] at h
      cases h
      exact .exchange hlinked (Bool.eq_false_iff.2 hunlike) hsrc hdst (.inr ⟨hchild, hsame⟩)
        (.refl _)
  · next hfree =>
    cases h
    refine .shift _ (some target) (fun s hs => ?_) (fun d hd => ?_) (List.cons_ne_nil _ _) (.refl _)
    · have hcond := List.find?_some hs
      simp only [Bool.and_eq_true, Pairing.not_hasSrc_iff] at hcond
      exact ⟨List.mem_of_find?_eq_some hs, hcond.1.1.1.2, hcond.2⟩
    · cases hd
      exact ⟨hchild, hfree, hsame⟩

/-- Moving a link to a source sibling.

**Proof sketch.** This mirrors `moves_of_forward?`, with the look-alike on the source side. -/
lemma moves_of_backward? (hx : p.dst? x.src = some x.dst)
    (h : backward? task p queue srcParent dstParent x = some c) :
    c.Moves task p ⟨srcParent, dstParent⟩ x := by
  simp only [backward?, Option.bind_eq_bind, Option.bind_eq_some_iff] at h
  obtain ⟨target, htarget, h⟩ := h
  obtain ⟨hchild, hsame⟩ := of_lookAlike? htarget
  split at h
  · next current hcur =>
    split at h
    · cases h
    · next hunlike =>
      have hdst : current ≠ x.dst := by
        rintro rfl
        exact hunlike (Tree.sameLabel_of_sameContent hsame)
      have hsrc : target ≠ x.src := by
        rintro rfl
        rw [hx, Option.some.injEq] at hcur
        exact hdst hcur.symm
      rw [if_pos ⟨hsrc, hdst⟩] at h
      cases h
      exact .exchange hcur (Bool.eq_false_iff.2 hunlike) hsrc hdst (.inl ⟨hchild, hsame⟩)
        (.swap _ _ _)
  · next hfree =>
    cases h
    refine .shift (some target) _ (fun s hs => ?_) (fun d hd => ?_) (List.cons_ne_nil _ _)
      (List.perm_append_singleton (Pair.mk target x.dst) _).symm
    · cases hs
      exact ⟨hchild, hfree, hsame⟩
    · have hcond := List.find?_some hd
      simp only [Bool.and_eq_true, Pairing.not_hasDst_iff] at hcond
      exact ⟨List.mem_of_find?_eq_some hd, hcond.1.1.1.2, hcond.2⟩

/-- **Every change moves the link of its pair**, and touches no node of a queued link. -/
theorem moves_of_change? (hp : p.OneToOne) (hx : p.dst? x.src = some x.dst)
    (h : change? task p queue srcParent dstParent x = some c) :
    c.Moves task p ⟨srcParent, dstParent⟩ x ∧ c.admissible queue = true := by
  simp only [change?, Option.orElse_eq_orElse, Option.orElse_eq_or, Option.or_eq_some_iff,
    Option.filter_eq_some_iff] at h
  rcases h with ⟨h, hadm⟩ | ⟨-, h, hadm⟩
  · exact ⟨moves_of_forward? hp hx h, hadm⟩
  · exact ⟨moves_of_backward? hx h, hadm⟩

end Cases

/-! What all moves have in common. -/

namespace Change.Moves

variable {parents x z : Pair} {c : Change} (h : c.Moves task p parents x)

include h

/-- The link of the pair is undone. -/
lemma mem_undone : x ∈ c.undone := by
  cases h <;> exact List.mem_cons_self ..

/-- What is undone is there. -/
lemma linked (hx : p.dst? x.src = some x.dst) : ∀ z ∈ c.undone, p.dst? z.src = some z.dst := by
  cases h with
  | exchange hlinked => simpa using ⟨hx, hlinked⟩
  | shift => simpa using hx

/-- No link is undone twice. -/
lemma nodup_undone : c.undone.Nodup := by
  cases h with
  | exchange _ _ hsrc =>
    rw [List.nodup_cons, List.mem_singleton]
    exact ⟨fun e => hsrc (congrArg Pair.src e).symm, List.nodup_singleton _⟩
  | shift => exact List.nodup_singleton _

/-- What is undone are pairs of nodes with different labels. -/
lemma unlike (hx : task.src.sameLabel task.dst x.src x.dst = false) :
    ∀ z ∈ c.undone, task.src.sameLabel task.dst z.src z.dst = false := by
  cases h with
  | exchange _ hunlike => simpa using ⟨hx, hunlike⟩
  | shift => simpa using hx

/-- At least as many links are made as are undone. -/
lemma length_undone_le : c.undone.length ≤ c.made.length := by
  cases h with
  | exchange _ _ _ _ _ hperm => rw [hperm.length_eq]; rfl
  | shift _ _ _ _ hsome => exact List.length_pos_iff.2 hsome

/-- A node of the pair takes part in every link that is made. -/
lemma touches (hz : z ∈ c.made) : z.src = x.src ∨ z.dst = x.dst := by
  cases h with
  | exchange _ _ _ _ _ hperm =>
    rw [hperm.mem_iff] at hz
    simp only [List.mem_cons, List.not_mem_nil, or_false] at hz
    rcases hz with rfl | rfl
    · exact .inl rfl
    · exact .inr rfl
  | shift _ _ _ _ _ hperm =>
    rw [hperm.mem_iff] at hz
    simp only [List.mem_append, Option.mem_toList, Option.map_eq_some_iff] at hz
    rcases hz with ⟨d, -, rfl⟩ | ⟨s, -, rfl⟩
    · exact .inl rfl
    · exact .inr rfl

/-- One of the links that are made joins nodes with the same content.

**Proof sketch.** In an exchange this is the link for which the two nodes look alike.  In a shift
there is a new link, and all new links are of this sort. -/
lemma exists_alike : ∃ z ∈ c.made, task.src.sameContent task.dst z.src z.dst = true := by
  cases h with
  | @exchange s d _ _ _ _ _ halike hperm =>
    rcases halike with ⟨-, hsame⟩ | ⟨-, hsame⟩
    · exact ⟨⟨s, x.dst⟩, hperm.mem_iff.2 (by simp), hsame⟩
    · exact ⟨⟨x.src, d⟩, hperm.mem_iff.2 (by simp), hsame⟩
  | shift _ _ hsrcs hdsts hsome hperm =>
    obtain ⟨z, hz⟩ := List.exists_mem_of_ne_nil _ hsome
    refine ⟨z, hz, ?_⟩
    rw [hperm.mem_iff] at hz
    simp only [List.mem_append, Option.mem_toList, Option.map_eq_some_iff] at hz
    rcases hz with ⟨d, hd, rfl⟩ | ⟨s, hs, rfl⟩
    · exact (hdsts d hd).2.2
    · exact (hsrcs s hs).2.2

/-- The nodes of the links that are made are free once the other links are undone.

**Proof sketch.** In an exchange both links are undone.  In a shift the link of the pair is undone,
and the other nodes have been free before. -/
lemma freed (hz : z ∈ c.made) :
    (p.eraseAll c.undone).dst? z.src = none ∧ (p.eraseAll c.undone).src? z.dst = none := by
  rw [Pairing.dst?_eraseAll, Pairing.src?_eraseAll]
  cases h with
  | exchange _ _ _ _ _ hperm =>
    rw [hperm.mem_iff] at hz
    simp only [List.mem_cons, List.not_mem_nil, or_false] at hz
    rcases hz with rfl | rfl <;> simp
  | shift _ _ hsrcs hdsts _ hperm =>
    rw [hperm.mem_iff] at hz
    simp only [List.mem_append, Option.mem_toList, Option.map_eq_some_iff] at hz
    rcases hz with ⟨d, hd, rfl⟩ | ⟨s, hs, rfl⟩
    · simp [(hdsts d hd).2.1]
    · simp [(hsrcs s hs).2.1]

/-- No source node is linked twice.

**Proof sketch.** In an exchange the two source nodes are different by assumption.  In a shift the
second one is free, and that of the pair is not. -/
lemma nodup_src (hx : p.dst? x.src = some x.dst) : (c.made.map Pair.src).Nodup := by
  cases h with
  | exchange _ _ hsrc _ _ hperm =>
    rw [(hperm.map _).nodup_iff]
    simpa using hsrc.symm
  | shift s? d? hsrcs _ _ hperm =>
    rw [(hperm.map _).nodup_iff]
    cases s? with
    | none => cases d? <;> simp
    | some s =>
      -- the one is free and the other is not
      have hne : x.src ≠ s := by
        rintro rfl
        rw [(hsrcs _ rfl).2.1] at hx
        cases hx
      cases d? <;> simp [hne]

/-- No destination node is linked twice.

**Proof sketch.** This mirrors `nodup_src`; that the destination node of the pair is not free is
read off the inverse look-up. -/
lemma nodup_dst (hp : p.OneToOne) (hx : p.dst? x.src = some x.dst) :
    (c.made.map Pair.dst).Nodup := by
  cases h with
  | exchange _ _ _ hdst _ hperm =>
    rw [(hperm.map _).nodup_iff]
    simpa using hdst
  | shift s? d? _ hdsts _ hperm =>
    rw [(hperm.map _).nodup_iff]
    cases d? with
    | none => cases s? <;> simp
    | some d =>
      have hne : d ≠ x.dst := by
        rintro rfl
        have hback := (hp _ _).1 hx
        rw [(hdsts _ rfl).2.1] at hback
        cases hback
      cases s? <;> simp [hne]

end Change.Moves

/-! ### Dealing with one pair after the other -/

/-- The queued links join nodes that are free, and no node occurs in two of them. -/
structure Queued (q : Pairing) (queue : List Pair) : Prop where
  free : ∀ z ∈ queue, q.dst? z.src = none ∧ q.src? z.dst = none
  srcs : (queue.map Pair.src).Nodup
  dsts : (queue.map Pair.dst).Nodup

/-- No links are queued. -/
lemma queued_nil (p : Pairing) : Queued p [] :=
  ⟨by simp, List.nodup_nil, List.nodup_nil⟩

/-- The pairs that are there and the queued links are different pairs. -/
lemma Queued.nodup_append {q : Pairing} {queue : List Pair} (h : Queued q queue) :
    (q.pairs ++ queue).Nodup := by
  refine Pairing.nodup_pairs.append (List.Nodup.of_map _ h.srcs) fun z hz hz' => ?_
  have hfree := (h.free z hz').1
  rw [Pairing.mem_pairs_iff.1 hz] at hfree
  cases hfree

/-- A change is admissible exactly if its links have no node in common with a queued one. -/
lemma Change.admissible_iff {c : Change} {queue : List Pair} :
    c.admissible queue = true ↔ ∀ z ∈ c.made, ∀ y ∈ queue, y.src ≠ z.src ∧ y.dst ≠ z.dst := by
  simp only [Change.admissible, claimsSrc, claimsDst, List.all_eq_true, Bool.and_eq_true,
    Bool.not_eq_true', List.any_eq_false, beq_iff_eq]
  exact ⟨fun h z hz y hy => ⟨(h z hz).1 y hy, (h z hz).2 y hy⟩,
    fun h z hz => ⟨fun y hy => (h z hz y hy).1, fun y hy => (h z hz y hy).2⟩⟩

/-- An admissible move extends the queue.

**Proof sketch.** What was free stays free, and the ends of the new links are free once the old ones
are undone.  No node is linked twice by the move alone, nor by the move and the queue, since the
move is admissible. -/
lemma Queued.append {queue : List Pair} {parents x : Pair} {c : Change} (h : Queued q queue)
    (hq : q.OneToOne) (hx : q.dst? x.src = some x.dst) (hc : c.Moves task q parents x)
    (hadm : c.admissible queue = true) : Queued (q.eraseAll c.undone) (queue ++ c.made) := by
  rw [Change.admissible_iff] at hadm
  refine ⟨fun z hz => ?_, ?_, ?_⟩
  · rcases List.mem_append.1 hz with hz | hz
    · -- undoing links keeps free nodes free
      rw [Pairing.dst?_eraseAll, Pairing.src?_eraseAll, (h.free z hz).1, (h.free z hz).2, ite_self,
        ite_self]
      exact ⟨rfl, rfl⟩
    · exact hc.freed hz
  · rw [List.map_append]
    refine h.srcs.append (hc.nodup_src hx) ?_
    rintro s hs hs'
    obtain ⟨y, hy, rfl⟩ := List.mem_map.1 hs
    obtain ⟨z, hz, heq⟩ := List.mem_map.1 hs'
    exact (hadm z hz y hy).1 heq.symm
  · rw [List.map_append]
    refine h.dsts.append (hc.nodup_dst hq hx) ?_
    rintro d hd hd'
    obtain ⟨y, hy, rfl⟩ := List.mem_map.1 hd
    obtain ⟨z, hz, heq⟩ := List.mem_map.1 hd'
    exact (hadm z hz y hy).2 heq.symm

/-- A round that began with the pairing `p` has dealt with the pairs of a list; the pairing and the
queue are what it has made of them so far. -/
inductive Dealt (task : Task) (anchor : Anchor) (p : Pairing) :
    List Pair → Pairing → List Pair → Prop
  | nil : Dealt task anchor p [] p []
  /-- Nothing is done about a pair that has been undone, that has no anchors, or that has no
  admissible change. -/
  | keep {seen : List Pair} {q : Pairing} {queue : List Pair} {x : Pair}
      (before : Dealt task anchor p seen q queue)
      (idle : q.dst? x.src = some x.dst → ∀ parents, anchors? task q anchor x = some parents →
        change? task q queue parents.src parents.dst x = none) :
      Dealt task anchor p (seen ++ [x]) q queue
  /-- The link of a pair is moved. -/
  | move {seen : List Pair} {q : Pairing} {queue : List Pair} {x parents : Pair} {c : Change}
      (before : Dealt task anchor p seen q queue) (linked : q.dst? x.src = some x.dst)
      (anchored : anchors? task q anchor x = some parents) (moves : c.Moves task q parents x)
      (admissible : c.admissible queue = true) :
      Dealt task anchor p (seen ++ [x]) (q.eraseAll c.undone) (queue ++ c.made)

namespace Dealt

variable {anchor : Anchor} {seen queue : List Pair}

/-- **While a round goes on, the pairing remains one-to-one.** -/
theorem oneToOne (h : Dealt task anchor p seen q queue) (hp : p.OneToOne) : q.OneToOne := by
  induction h with
  | nil => exact hp
  | keep _ _ ih => exact ih
  | move _ hlinked _ hmoves _ ih => exact ih.eraseAll (hmoves.linked hlinked)

/-- While a round goes on, no links are made. -/
lemma linked_before (h : Dealt task anchor p seen q queue) {s d : NodeId}
    (hsd : q.dst? s = some d) : p.dst? s = some d := by
  induction h with
  | nil => exact hsd
  | keep _ _ ih => exact ih hsd
  | move _ hlinked _ hmoves _ ih =>
    exact ih ((Pairing.dst?_eraseAll_eq_some_iff (hmoves.linked hlinked)).1 hsd).1

/-- **All queued links can be made.** -/
theorem queued (h : Dealt task anchor p seen q queue) (hp : p.OneToOne) : Queued q queue := by
  induction h with
  | nil => exact queued_nil p
  | keep _ _ ih => exact ih
  | move before hlinked _ hmoves hadm ih => exact ih.append (before.oneToOne hp) hlinked hmoves hadm

end Dealt

/-- Dealing with one more pair.

**Proof sketch.** The definition distinguishes whether the pair is still linked, whether there are
siblings to look at, and whether they offer a change.  Only if all three hold is there a move, which
undoes links that exist; otherwise the pair is kept. -/
lemma Dealt.returns_reconsider {anchor : Anchor} {seen queue : List Pair} {x : Pair}
    (h : Dealt task anchor p seen q queue) (hp : p.OneToOne) :
    Returns (reconsider task anchor queue x) q fun queue' r =>
      Dealt task anchor p (seen ++ [x]) r queue' := by
  refine returns_pairing_bind ?_
  split
  · next hx =>
    rw [Pairing.has_iff] at hx
    split
    · next hnone =>
      refine returns_pure (h.keep fun _ parents hparents => ?_)
      rw [hnone] at hparents
      cases hparents
    · next parents hparents =>
      split
      · next c hc =>
        obtain ⟨hmoves, hadm⟩ := moves_of_change? (h.oneToOne hp) hx hc
        refine (Pairing.returns_eraseAll (hmoves.linked hx) hmoves.nodup_undone).bind ?_
        rintro _ _ rfl
        exact returns_pure (h.move hx hparents hmoves hadm)
      · next hnone =>
        refine returns_pure (h.keep fun _ parents' hparents' => ?_)
        rw [hparents, Option.some.injEq] at hparents'
        exact hparents' ▸ hnone
  · next hx =>
    exact returns_pure (h.keep fun hlinked => absurd (Pairing.has_iff.2 hlinked) hx)

/-- All pairs of a round are dealt with. -/
lemma returns_queue {anchor : Anchor} {work : List Pair} (hp : p.OneToOne) :
    Returns (work.foldlM (reconsider task anchor) []) p fun queue q =>
      Dealt task anchor p work q queue :=
  returns_foldlM_prefix (I := fun seen queue q => Dealt task anchor p seen q queue) .nil
    fun _ _ _ _ _ _ h => h.returns_reconsider hp

/-! ### Rounds -/

/-- A round over the pairs `work` makes `r` of the pairing `p`: all pairs have been dealt with, and
the queued links have been made.  The next round goes on with those of them that are unlike. -/
inductive Round (task : Task) (anchor : Anchor) (p : Pairing) (work : List Pair) (r : Pairing) :
    List Pair → Prop
  | intro {q : Pairing} {queue : List Pair} (dealt : Dealt task anchor p work q queue)
      (oneToOne : r.OneToOne)
      (linked : ∀ s d, r.dst? s = some d ↔ q.dst? s = some d ∨ ⟨s, d⟩ ∈ queue) :
      Round task anchor p work r (queue.filter (isUnlike task))

/-- A round keeps a pairing one-to-one. -/
lemma Round.oneToOne {anchor : Anchor} {work next : List Pair}
    (h : Round task anchor p work r next) : r.OneToOne := by
  obtain ⟨-, hone, -⟩ := h
  exact hone

/-- The pairs of the next round are again unlike. -/
lemma Round.isUnlike_of_mem {anchor : Anchor} {work next : List Pair}
    (h : Round task anchor p work r next) : ∀ x ∈ next, isUnlike task x = true := by
  obtain ⟨-, -, -⟩ := h
  exact fun x hx => (List.mem_filter.1 hx).2

/-- **Queued links can all be made**, and nothing else changes.

**Proof sketch.** Along the queue, all links of `q` are kept and all new ones are queued.  The next
link can be made because no node is queued twice. -/
lemma Queued.returns_forM_link {queue : List Pair} (h : Queued q queue) (hq : q.OneToOne) :
    Returns (queue.forM fun x => link x.src x.dst) q fun _ r =>
      r.OneToOne ∧ ∀ s d, r.dst? s = some d ↔ q.dst? s = some d ∨ ⟨s, d⟩ ∈ queue := by
  refine (Matching.returns_forM_link (I := fun r => r.OneToOne ∧
    (∀ s d, q.dst? s = some d → r.dst? s = some d) ∧
    ∀ s d, r.dst? s = some d → q.dst? s = some d ∨ ⟨s, d⟩ ∈ queue)
    ⟨hq, fun _ _ => id, fun _ _ => .inl⟩ h.srcs h.dsts h.free ?_).mono
    fun _ r hr => ⟨hr.1.1, fun s d => ⟨hr.1.2.2 s d, ?_⟩⟩
  · -- the next link joins free nodes, so it displaces none of the others
    rintro z hz r ⟨hone, hold, honly⟩ hs hd
    refine ⟨hone.insert hs hd, fun s d hsd => ?_, fun s d hsd => ?_⟩
    · rw [Pairing.dst?_insert, if_neg, hold s d hsd]
      rintro rfl
      rw [hold _ d hsd] at hs
      cases hs
    · rw [Pairing.dst?_insert] at hsd
      split at hsd
      · next heq =>
        cases hsd
        exact .inr (heq ▸ hz)
      · exact honly s d hsd
  · rintro (hsd | hsd)
    · exact hr.1.2.1 s d hsd
    · exact hr.2 _ hsd

/-- **A round does not fail**: all queued links can be made at its end. -/
theorem returns_round {anchor : Anchor} {work : List Pair} (hp : p.OneToOne) :
    Returns (round task anchor work) p fun next r => Round task anchor p work r next := by
  refine (returns_queue hp).bind fun queue q h => ?_
  refine ((h.queued hp).returns_forM_link (h.oneToOne hp)).bind fun _ r hr => ?_
  exact returns_pure (.intro h hr.1 hr.2)

/-- **What every round carries on holds after all of them.**  The rounds end when there is no pair
left, or when there have been as many rounds as allowed.

**Proof sketch.** Induction on the limit.  After the first round the invariant is counted from
one. -/
theorem returns_rounds {anchor : Anchor} {limit : Nat} {work : List Pair}
    {I : Nat → Pairing → List Pair → Prop} (hstart : I 0 p work)
    (hround : ∀ k q work, I k q work → work ≠ [] →
      Returns (round task anchor work) q fun next r => I (k + 1) r next) :
    Returns (rounds task anchor limit work) p fun n r =>
      ∃ rest, I n r rest ∧ (rest = [] ∨ n = limit) := by
  induction limit generalizing p work I with
  | zero => exact returns_pure ⟨work, hstart, .inr rfl⟩
  | succ limit ih =>
    cases work with
    | nil => exact returns_pure ⟨[], hstart, .inl rfl⟩
    | cons x work =>
      refine (hround 0 p _ hstart (List.cons_ne_nil _ _)).bind fun next q hq => ?_
      refine (ih (I := fun k => I (k + 1)) hq fun k => hround (k + 1)).bind fun n r hr => ?_
      obtain ⟨rest, hI, hend⟩ := hr
      exact returns_pure ⟨rest, hI, hend.imp_right (congrArg (· + 1))⟩

/-- **The rounds over all unlike pairs of a pairing.**  The pairing remains one-to-one, and every
round deals with unlike pairs only. -/
theorem returns_reconcile {anchor : Anchor} {I : Nat → Pairing → List Pair → Prop} (hp : p.OneToOne)
    (hstart : I 0 p (p.pairs.filter (isUnlike task)))
    (hround : ∀ k q work r next, q.OneToOne → (∀ x ∈ work, isUnlike task x = true) → I k q work →
      work ≠ [] → Round task anchor q work r next → I (k + 1) r next) :
    Returns (reconcile task anchor) p fun n r =>
      r.OneToOne ∧ ∃ rest, I n r rest ∧ (rest = [] ∨ n = task.settings.maxRounds) := by
  refine returns_pairing_bind ((returns_rounds (I := fun k q work => q.OneToOne ∧
    (∀ x ∈ work, isUnlike task x = true) ∧ I k q work) ?_ ?_).mono ?_)
  · exact ⟨hp, fun x hx => (List.mem_filter.1 hx).2, hstart⟩
  · rintro k q work ⟨hq, hwork, hI⟩ hne
    refine (returns_round hq).mono fun next r h => ?_
    exact ⟨h.oneToOne, h.isUnlike_of_mem, hround k q work r next hq hwork hI hne h⟩
  · rintro n r ⟨rest, ⟨hr, -, hI⟩, hend⟩
    exact ⟨hr, rest, hI, hend⟩

end LeafMoves

end TreeMatching
