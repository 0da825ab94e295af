import Mathlib.Data.List.Nodup
import TreeMatching.Proofs.Adoptions
import TreeMatching.Proofs.Exchanges
import TreeMatching.Proofs.Growth
import TreeMatching.Proofs.LeafRounds

set_option autoImplicit false

/-!
# Stages that rearrange pairs

The three repairs undo links and make others in their place.  They only undo links that are there,
and whatever they link has been free before or has just been set free; so none of their steps can
fail.

## Main definitions

* `Evolves` — a pairing arises from another by linking free nodes and by undoing links.

## Main results

* `Evolves.joins` — a pairing of two trees that evolves remains one.
* `Evolves.sameKinds` — if all pairs are of the same kind at the beginning, so they are at the end.
* `OrphanLeaves.returns_run`, `ParentVote.returns_run`, `LeafMoves.returns_run` — the repairs do not
  fail, and the pairing evolves.
-/

namespace TreeMatching

open Matching

/-- The second pairing arises from the first by linking free nodes and by undoing links, one after
the other.  If all pairs of the first are of the same kind, then so are all nodes that are
linked. -/
inductive Evolves (task : Task) (p : Pairing) : Pairing → Prop
  | refl : Evolves task p p
  | link {q : Pairing} {s d : NodeId} (before : Evolves task p q)
      (srcFree : q.dst? s = none) (dstFree : q.src? d = none)
      (srcNode : s ∈ task.src.preOrder) (dstNode : d ∈ task.dst.preOrder)
      (kinds : p.SameKinds task → task.src.sameKind task.dst s d = true) :
      Evolves task p (q.insert s d)
  | unlink {q : Pairing} {s d : NodeId} (before : Evolves task p q)
      (linked : q.dst? s = some d) : Evolves task p (q.erase s d)

variable {task : Task} {p q r : Pairing}

namespace Evolves

/-- **A pairing of two trees that evolves remains one.** -/
theorem joins (h : Evolves task p q) (hp : p.Joins task.src task.dst) :
    q.Joins task.src task.dst := by
  induction h with
  | refl => exact hp
  | link _ hs hd hsn hdn _ ih => exact ih.insert hs hd hsn hdn
  | unlink _ hl ih => exact ih.erase hl

/-- **If all pairs are of the same kind at the beginning, so they are at the end.**

**Proof sketch.** Induction along the evolution.  A link is made between nodes of the same kind,
given that all links so far are of this sort, and undoing a link takes away a pair. -/
theorem sameKinds (h : Evolves task p q) (hp : p.SameKinds task) : q.SameKinds task := by
  induction h with
  | refl => exact hp
  | link _ _ _ _ _ hk ih =>
    intro s d hsd
    rw [Pairing.dst?_insert] at hsd
    split at hsd
    · next hs =>
      cases hsd
      exact hs ▸ hk hp
    · exact ih s d hsd
  | unlink _ _ ih =>
    intro s d hsd
    rw [Pairing.dst?_erase] at hsd
    split at hsd
    · cases hsd
    · exact ih s d hsd

/-- What evolves twice has evolved. -/
lemma trans (hpq : Evolves task p q) (hqr : Evolves task q r) : Evolves task p r := by
  induction hqr with
  | refl => exact hpq
  | link _ hs hd hsn hdn hk ih => exact .link ih hs hd hsn hdn fun hp => hk (hpq.sameKinds hp)
  | unlink _ hl ih => exact .unlink ih hl

end Evolves

/-- A pairing that grows evolves. -/
lemma Grows.evolves (h : Grows task p q) : Evolves task p q := by
  induction h with
  | refl => exact .refl
  | link _ hs hd hsn hdn hk ih => exact .link ih hs hd hsn hdn fun _ => hk

/-- A loop of rounds in which the pairing evolves. -/
lemma returns_forM_evolves {β : Type} {items : List β} {f : β → Matching Unit}
    (hp : p.Joins task.src task.dst)
    (hf : ∀ b ∈ items, ∀ q : Pairing, q.Joins task.src task.dst →
      Returns (f b) q fun _ => Evolves task q) :
    Returns (items.forM f) p fun _ => Evolves task p :=
  returns_forM .refl fun b hb q hq =>
    (hf b hb q (hq.joins hp)).mono fun _ _ hr => hq.trans hr

/-! ### Orphan leaves -/

namespace OrphanLeaves

/-- Where an adoption of nodes of the same kind is carried out, the pairing evolves. -/
lemma Adoption.Fits.evolves {x : Adoption} (h : x.Fits p)
    (hk : task.src.sameKind task.dst x.link.src x.link.dst = true) :
    Evolves task p (x.result p) := by
  obtain ⟨hs, hd, -⟩ := Tree.sameKind_iff.1 hk
  obtain ⟨link, replaced⟩ := x
  cases replaced with
  | none => exact .link .refl h.srcFree h.dstFree hs hd fun _ => hk
  | some old =>
    exact .link (.unlink .refl (h.linked old rfl)) h.srcFree h.dstFree hs hd fun _ => hk

/-- Settling an orphan makes the pairing evolve, if adoptions join nodes of one kind. -/
lemma Settled.evolves {adopts : Adoption → Prop} (h : Settled adopts p q)
    (hk : ∀ x, adopts x → task.src.sameKind task.dst x.link.src x.link.dst = true) :
    Evolves task p q := by
  cases h with
  | pass => exact .refl
  | adopt hx hfits => exact hfits.evolves (hk _ hx)

/-- Adopting orphan leaves does not fail, and the pairing evolves. -/
theorem returns_run (hp : p.Joins task.src task.dst) :
    Returns (run task) p fun _ => Evolves task p := by
  refine returns_pairing_bind ?_
  refine (returns_forM_evolves hp fun node _ q hq => ?_).bind fun _ q hq => ?_
  · exact (returns_settleSrc hq.oneToOne).mono fun _ _ h => h.evolves fun _ hx => hx.kinds
  · refine (returns_forM_evolves (hq.joins hp) fun node _ q hq => ?_).mono fun _ _ hr => hq.trans hr
    exact (returns_settleDst hq.oneToOne).mono fun _ _ h => h.evolves fun _ hx =>
      (Tree.sameKind_comm ..).trans hx.kinds

end OrphanLeaves

/-! ### Parents -/

namespace ParentVote

/-- Where an exchange of partners is carried out, the pairing evolves. -/
lemma Exchange.Sound.evolves {x : Exchange} (h : x.Sound task p)
    (hp : p.Joins task.src task.dst) : Evolves task p (x.result task p) := by
  have hx := h.canExchange hp.oneToOne
  obtain ⟨hparent, hpartner⟩ := hp.nodes _ _ h.parent
  obtain ⟨hrival, hwinner⟩ := hp.nodes _ _ hx.second
  have hmoved : Evolves task p (p.takeOver x.parent x.partner x.rival x.winner) :=
    .link (.unlink (.unlink .refl hx.second) hx.first) hx.srcFree hx.dstFree hparent hwinner
      fun _ => h.kinds
  rw [Exchange.result]
  split
  · next hk => exact .link hmoved hx.srcFree' hx.dstFree' hrival hpartner fun _ => hk
  · exact hmoved

/-- Moving parents to the nodes their children vote for does not fail, and the pairing evolves. -/
theorem returns_run (hp : p.Joins task.src task.dst) :
    Returns (run task) p fun _ => Evolves task p := by
  refine returns_pairing_bind (returns_forM_evolves hp fun parent _ q hq => ?_)
  refine (returns_settle hq.oneToOne).mono ?_
  rintro _ r (rfl | ⟨x, hx, rfl⟩)
  · exact .refl
  · exact hx.evolves hq

end ParentVote

/-! ### Leaf moves -/

/-- Undoing links that are there. -/
lemma Evolves.eraseAll {zs : List Pair} (h : Evolves task p q)
    (hz : ∀ z ∈ zs, q.dst? z.src = some z.dst) (hnd : zs.Nodup) :
    Evolves task p (q.eraseAll zs) := by
  induction zs generalizing q with
  | nil => exact h
  | cons z zs ih =>
    rw [List.nodup_cons] at hnd
    rw [List.forall_mem_cons] at hz
    exact ih (.unlink h hz.1) (Pairing.linked_erase hz.2 hz.1 hnd.1) hnd.2

namespace LeafMoves

/-- In a pairing of nodes of the same kinds, a node has the kind of its partner. -/
lemma kind_eq_of_linked (hk : p.SameKinds task) {s d : NodeId} (h : p.dst? s = some d) :
    task.src.kind s = task.dst.kind d :=
  (Tree.sameKind_iff.1 (hk s d h)).2.2

section Moves

variable {parents x z : Pair} {c : Change} (h : c.Moves task p parents x)
  (hp : p.Joins task.src task.dst) (hx : p.dst? x.src = some x.dst)

include h hp hx

/-- A move links nodes of the two trees.

**Proof sketch.** The new links of an exchange join ends of two old ones.  Those of a shift join an
end of the pair to a child of a node. -/
lemma Change.Moves.within (hz : z ∈ c.made) : z.Within task := by
  obtain ⟨ha, hb⟩ := hp.nodes _ _ hx
  cases h with
  | exchange hlinked _ _ _ _ hperm =>
    obtain ⟨hs, hd⟩ := hp.nodes _ _ hlinked
    rw [hperm.mem_iff] at hz
    simp only [List.mem_cons, List.not_mem_nil, or_false] at hz
    rcases hz with rfl | rfl
    · exact ⟨ha, hd⟩
    · exact ⟨hs, hb⟩
  | shift _ _ hsrcs hdsts _ hperm =>
    rw [hperm.mem_iff] at hz
    simp only [List.mem_append, Option.mem_toList, Option.map_eq_some_iff] at hz
    rcases hz with ⟨d, hd, rfl⟩ | ⟨s, hs, rfl⟩
    · exact ⟨ha, Tree.mem_preOrder_of_mem_children (hdsts d hd).1⟩
    · exact ⟨Tree.mem_preOrder_of_mem_children (hsrcs s hs).1, hb⟩

/-- A move links nodes of the same kind, if all pairs are of the same kind.

**Proof sketch.** In an exchange the kinds go round: the two links and the look-alike between them
make all four nodes be of one kind.  In a shift, each new link joins two nodes that look alike. -/
lemma Change.Moves.sameKind (hk : p.SameKinds task) (hz : z ∈ c.made) :
    task.src.sameKind task.dst z.src z.dst = true := by
  obtain ⟨hzs, hzd⟩ := h.within hp hx hz
  refine Tree.sameKind_iff.2 ⟨hzs, hzd, ?_⟩
  have hkind : ∀ s d, task.src.sameContent task.dst s d = true →
      task.src.kind s = task.dst.kind d := fun s d hsame =>
    (Tree.sameKind_iff.1 (Bool.and_eq_true_iff.1 hsame).1).2.2
  cases h with
  | @exchange s d _ hlinked _ _ _ halike hperm =>
    -- the kinds go round the circle: all four nodes are of one kind
    have hxk := kind_eq_of_linked hk hx
    have hsk := kind_eq_of_linked hk hlinked
    have hcross : task.src.kind s = task.dst.kind x.dst := by
      rcases halike with ⟨-, hsame⟩ | ⟨-, hsame⟩
      · exact hkind _ _ hsame
      · rw [hsk, ← hkind _ _ hsame, hxk]
    rw [hperm.mem_iff] at hz
    simp only [List.mem_cons, List.not_mem_nil, or_false] at hz
    rcases hz with rfl | rfl
    · exact hxk.trans (hcross.symm.trans hsk)
    · exact hcross
  | shift _ _ hsrcs hdsts _ hperm =>
    rw [hperm.mem_iff] at hz
    simp only [List.mem_append, Option.mem_toList, Option.map_eq_some_iff] at hz
    rcases hz with ⟨d, hd, rfl⟩ | ⟨s, hs, rfl⟩
    · exact hkind _ _ (hdsts d hd).2.2
    · exact hkind _ _ (hsrcs s hs).2.2

end Moves

section Rounds

variable {anchor : Anchor} {seen queue work : List Pair}

/-- While a round goes on, the pairing evolves. -/
lemma Dealt.evolves (h : Dealt task anchor p seen q queue) : Evolves task p q := by
  induction h with
  | nil => exact .refl
  | keep _ _ ih => exact ih
  | move _ hlinked _ hmoves _ ih => exact ih.eraseAll (hmoves.linked hlinked) hmoves.nodup_undone

/-- The queued links join nodes of the two trees; they are of the same kind if all pairs were of the
same kind when the round began. -/
lemma Dealt.within_and_sameKind (h : Dealt task anchor p seen q queue)
    (hp : p.Joins task.src task.dst) : ∀ z ∈ queue, z.Within task ∧
      (p.SameKinds task → task.src.sameKind task.dst z.src z.dst = true) := by
  induction h with
  | nil => simp
  | keep _ _ ih => exact ih
  | move before hlinked _ hmoves _ ih =>
    intro z hz
    have hq := before.evolves.joins hp
    rcases List.mem_append.1 hz with hz | hz
    · exact ih z hz
    · exact ⟨hmoves.within hq hlinked hz,
        fun hk => hmoves.sameKind hq hlinked (before.evolves.sameKinds hk) hz⟩

/-- In a round the pairing evolves. -/
lemma returns_round_evolves (hp : p.Joins task.src task.dst) :
    Returns (round task anchor work) p fun _ => Evolves task p := by
  refine (returns_queue hp.oneToOne).bind fun queue q h => ?_
  have hqueued := h.queued hp.oneToOne
  refine (returns_forM_link h.evolves hqueued.srcs hqueued.dsts hqueued.free
    fun z hz r hr hs hd => ?_).bind fun _ r hr => returns_pure hr.1
  obtain ⟨hwithin, hkinds⟩ := h.within_and_sameKind hp z hz
  exact .link hr hs hd hwithin.1 hwithin.2 hkinds

/-- However many rounds are made, they make the pairing evolve. -/
lemma returns_rounds_evolves {limit : Nat} (hp : p.Joins task.src task.dst) :
    Returns (rounds task anchor limit work) p fun _ => Evolves task p := by
  refine (returns_rounds (I := fun _ q _ => Evolves task p q) .refl ?_).mono ?_
  · intro _ q work hq _
    exact (returns_round_evolves (hq.joins hp)).mono fun _ _ hr => hq.trans hr
  · rintro _ r ⟨_, hr, -⟩
    exact hr

end Rounds

/-- Reconsidering leaf moves does not fail, and the pairing evolves. -/
theorem returns_run (hp : p.Joins task.src task.dst) :
    Returns (run task) p fun _ => Evolves task p := by
  have hreconcile : ∀ (anchor : Anchor) (q : Pairing), q.Joins task.src task.dst →
      Returns (reconcile task anchor) q fun _ => Evolves task q :=
    fun anchor q hq => returns_pairing_bind (returns_rounds_evolves hq)
  refine (hreconcile .mappedParent p hp).bind fun _ q hq => ?_
  exact (hreconcile .ownParent q (hq.joins hp)).bind fun _ r hr => returns_pure (hq.trans hr)

end LeafMoves

end TreeMatching
