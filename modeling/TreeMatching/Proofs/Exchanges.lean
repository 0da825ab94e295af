import TreeMatching.Proofs.Runs

set_option autoImplicit false

/-!
# Exchanges of partners

When a parent is moved to the node its children vote for, that node has a partner already, the
rival.  Two links are undone then, and the parent is linked to the winner; the rival is left with
the old partner of the parent, if that is of its kind.  In a pairing of nodes of the same kind it
always is: the parent is of the kind of the winner, and so all four nodes are of one kind.  So
nobody loses a partner without getting another one.

## Main definitions

* `Pairing.SameKinds` — every pair joins nodes of the same kind.
* `Pairing.takeOver`, `Pairing.exchange` — the pairing after a node has taken the partner of
  another, and after two nodes have exchanged their partners.
* `Pairing.CanExchange` — two links can be undone, and then two others can be made.
* `Pairing.Exchanges` — a pairing arises from another by exchanges.
* `ParentVote.Exchange.Sound`, `ParentVote.Exchange.result` — an exchange of partners of two pairs,
  and what it leaves.

## Main results

* `Pairing.canExchange` — two pairs can exchange their partners.
* `Pairing.Exchanges.hasSrc_eq`, `Pairing.Exchanges.hasDst_eq` — exchanges leave the same nodes with
  a partner.
* `ParentVote.returns_settle` — what settling a parent can do.
* `ParentVote.returns_run_exchanges`, `parent_votes_only_exchange_partners` — in a pairing of nodes
  of the same kind, moving parents by majority only exchanges partners.
-/

namespace TreeMatching

open Matching

/-! ### Exchanges -/

namespace Pairing

variable {p q : Pairing} {s d x y n : NodeId}

/-- The pairing after the source node `s`, which had the partner `d`, has taken the partner `y` of
`x`: `x` and `d` are free now. -/
def takeOver (p : Pairing) (s d x y : NodeId) : Pairing :=
  ((p.erase x y).erase s d).insert s y

/-- The pairing after the source nodes `s` and `x`, which had the partners `d` and `y`, have
exchanged them. -/
def exchange (p : Pairing) (s d x y : NodeId) : Pairing :=
  (p.takeOver s d x y).insert x d

/-- After an exchange two source nodes have each other's partners, and all others have kept
theirs. -/
lemma dst?_exchange : (p.exchange s d x y).dst? n =
    if x = n then some d else if s = n then some y else p.dst? n := by
  rw [exchange, takeOver, dst?_insert, dst?_insert, dst?_erase, dst?_erase]
  split_ifs <;> rfl

/-- After an exchange two destination nodes have each other's partners, and all others have kept
theirs. -/
lemma src?_exchange : (p.exchange s d x y).src? n =
    if d = n then some x else if y = n then some s else p.src? n := by
  rw [exchange, takeOver, src?_insert, src?_insert, src?_erase, src?_erase]
  split_ifs <;> rfl

/-- The two links of an exchange are there, and once they are undone the others can be made, one
after the other. -/
structure CanExchange (p : Pairing) (s d x y : NodeId) : Prop where
  second : p.dst? x = some y
  first : (p.erase x y).dst? s = some d
  srcFree : ((p.erase x y).erase s d).dst? s = none
  dstFree : ((p.erase x y).erase s d).src? y = none
  srcFree' : (p.takeOver s d x y).dst? x = none
  dstFree' : (p.takeOver s d x y).src? d = none

/-- **Two pairs can exchange their partners.**

**Proof sketch.** The links are different, hence so are all four nodes.  Once both links are undone,
each node is free for its new partner. -/
lemma canExchange (hs : p.dst? s = some d) (hx : p.dst? x = some y) (hne : d ≠ y) :
    p.CanExchange s d x y := by
  have hne' : x ≠ s := by
    rintro rfl
    exact hne (Option.some_inj.1 (hs.symm.trans hx))
  refine ⟨hx, ?_, ?_, ?_, ?_, ?_⟩
  · rw [dst?_erase, if_neg hne', hs]
  · rw [dst?_erase, if_pos rfl]
  · rw [src?_erase, if_neg hne, src?_erase, if_pos rfl]
  · rw [takeOver, dst?_insert, if_neg hne'.symm, dst?_erase, if_neg hne'.symm, dst?_erase,
      if_pos rfl]
  · rw [takeOver, src?_insert, if_neg hne.symm, src?_erase, if_pos rfl]

/-- An exchange keeps a pairing one-to-one. -/
lemma CanExchange.oneToOne (h : p.CanExchange s d x y) (hp : p.OneToOne) :
    (p.exchange s d x y).OneToOne :=
  (((hp.erase h.second).erase h.first).insert h.srcFree h.dstFree).insert h.srcFree' h.dstFree'

/-- The second pairing arises from the first by exchanges: time and again two pairs give up their
partners, and each gets the partner of the other. -/
inductive Exchanges (p : Pairing) : Pairing → Prop
  | refl : Exchanges p p
  | exchange {q : Pairing} {s d x y : NodeId} (before : Exchanges p q) (first : q.dst? s = some d)
      (second : q.dst? x = some y) (differ : d ≠ y) : Exchanges p (q.exchange s d x y)

namespace Exchanges

/-- Any number of exchanges keep a pairing one-to-one. -/
lemma oneToOne (h : p.Exchanges q) (hp : p.OneToOne) : q.OneToOne := by
  induction h with
  | refl => exact hp
  | exchange _ hs hx hne ih => exact (canExchange hs hx hne).oneToOne ih

/-- **Exchanges leave the same source nodes with a partner.** -/
lemma hasSrc_eq (h : p.Exchanges q) (n : NodeId) : q.hasSrc n = p.hasSrc n := by
  induction h with
  | refl => rfl
  | exchange _ hs hx _ ih =>
    rw [← ih, hasSrc, hasSrc, dst?_exchange]
    split_ifs with hxn hsn
    · rw [← hxn, hx]
      rfl
    · rw [← hsn, hs]
      rfl
    · rfl

/-- **Exchanges leave the same destination nodes with a partner.** -/
lemma hasDst_eq (h : p.Exchanges q) (hp : p.OneToOne) (n : NodeId) : q.hasDst n = p.hasDst n := by
  induction h with
  | refl => rfl
  | @exchange q s d x y before hs hx _ ih =>
    have hq := before.oneToOne hp
    rw [← ih, hasDst, hasDst, src?_exchange]
    split_ifs with hdn hyn
    · rw [← hdn, (hq s d).1 hs]
      rfl
    · rw [← hyn, (hq x y).1 hx]
      rfl
    · rfl

end Exchanges

/-- The source nodes of the pairs are those with a partner. -/
lemma mem_map_src_pairs_iff : n ∈ p.pairs.map Pair.src ↔ p.hasSrc n = true := by
  rw [hasSrc, Option.isSome_iff_exists, List.mem_map]
  constructor
  · rintro ⟨z, hz, rfl⟩
    exact ⟨z.dst, mem_pairs_iff.1 hz⟩
  · rintro ⟨d, hd⟩
    exact ⟨⟨n, d⟩, mem_pairs_iff.2 hd, rfl⟩

/-- Two pairings in which the same source nodes have a partner have equally many pairs. -/
lemma size_eq_of_hasSrc_eq (h : ∀ n, q.hasSrc n = p.hasSrc n) : q.size = p.size := by
  have hperm : (q.pairs.map Pair.src).Perm (p.pairs.map Pair.src) :=
    (List.perm_ext_iff_of_nodup nodup_map_src_pairs nodup_map_src_pairs).2 fun n => by
      rw [mem_map_src_pairs_iff, mem_map_src_pairs_iff, h]
  simpa only [List.length_map, length_pairs] using hperm.length_eq

/-- Every pair joins two nodes of the same kind. -/
def SameKinds (p : Pairing) (task : Task) : Prop :=
  ∀ s d, p.dst? s = some d → task.src.sameKind task.dst s d = true

end Pairing

/-! ### Parents -/

namespace ParentVote

variable {task : Task} {p q : Pairing} {parent : NodeId} {counts : List (NodeId × Nat)}
  {x : Exchange}

/-- The two pairs that exchange their partners are different ones, and the parent is of the kind of
the node it is moved to. -/
structure Exchange.Sound (x : Exchange) (task : Task) (p : Pairing) : Prop where
  parent : p.dst? x.parent = some x.partner
  rival : p.src? x.winner = some x.rival
  differ : x.partner ≠ x.winner
  kinds : task.src.sameKind task.dst x.parent x.winner = true

/-- **What wins the vote can be exchanged**: the parent and its rival have different partners.

**Proof sketch.** The winner, the partner and the rival are found by look-ups, and each test that
follows excludes one reason against an exchange. -/
lemma sound_of_winner? (h : winner? task p parent counts = some x) : x.Sound task p := by
  simp only [winner?, Option.bind_eq_bind, Option.bind_eq_some_iff] at h
  obtain ⟨⟨winner, count⟩, -, partner, hpartner, rival, hrival, h⟩ := h
  split at h
  · cases h
  · next hne =>
    iterate 3
      split at h
      · cases h
    split at h
    · cases h
    · next hk =>
      cases h
      exact ⟨hpartner, hrival, hne, by simpa using hk⟩

/-- What an exchange leaves: the rival gets the old partner of the parent, if that is of its
kind. -/
def Exchange.result (task : Task) (x : Exchange) (p : Pairing) : Pairing :=
  if task.src.sameKind task.dst x.rival x.partner then
    p.exchange x.parent x.partner x.rival x.winner
  else
    p.takeOver x.parent x.partner x.rival x.winner

namespace Exchange.Sound

/-- The rival is linked to the winner, from its own side as well. -/
lemma rival_linked (h : x.Sound task p) (hp : p.OneToOne) : p.dst? x.rival = some x.winner :=
  (hp _ _).2 h.rival

/-- The pairs of the parent and of the rival can exchange their partners. -/
lemma canExchange (h : x.Sound task p) (hp : p.OneToOne) :
    p.CanExchange x.parent x.partner x.rival x.winner :=
  Pairing.canExchange h.parent (h.rival_linked hp) h.differ

/-- An exchange of partners succeeds.

**Proof sketch.** The four steps in turn.  Both links exist, so that they can be undone, and then
the nodes are free for the new links. -/
lemma returns_perform (h : x.Sound task p) (hp : p.OneToOne) :
    Returns (x.perform task) p fun _ q => q = x.result task p := by
  have hx := h.canExchange hp
  refine Returns.bind (Q := fun _ q => q = p.erase x.rival x.winner)
    (returns_unlinkIfLinked (fun _ => rfl) fun hn => absurd hx.second hn) ?_
  rintro _ _ rfl
  refine Returns.bind (Q := fun _ q => q = (p.erase x.rival x.winner).erase x.parent x.partner)
    (returns_unlinkIfLinked (fun _ => rfl) fun hn => absurd hx.first hn) ?_
  rintro _ _ rfl
  refine Returns.bind (Q := fun _ q => q = p.takeOver x.parent x.partner x.rival x.winner)
    (returns_link hx.srcFree hx.dstFree rfl) ?_
  rintro _ _ rfl
  rw [result]
  split
  · exact returns_link hx.srcFree' hx.dstFree' rfl
  · exact returns_pure rfl

/-- **The rival is always of the kind of the partner it gets**, if all pairs are of the same kind:
the kinds go round from the rival to the winner, the parent and its partner. -/
lemma sameKind_rival_partner (h : x.Sound task p) (hp : p.OneToOne) (hk : p.SameKinds task) :
    task.src.sameKind task.dst x.rival x.partner = true := by
  obtain ⟨hrival, -, hrw⟩ := Tree.sameKind_iff.1 (hk _ _ (h.rival_linked hp))
  obtain ⟨-, -, hpw⟩ := Tree.sameKind_iff.1 h.kinds
  obtain ⟨-, hpartner, hpp⟩ := Tree.sameKind_iff.1 (hk _ _ h.parent)
  exact Tree.sameKind_iff.2 ⟨hrival, hpartner, hrw.trans (hpw.symm.trans hpp)⟩

/-- If all pairs are of one kind each, the rival always gets the old partner of the parent. -/
lemma result_eq_exchange (h : x.Sound task p) (hp : p.OneToOne) (hk : p.SameKinds task) :
    x.result task p = p.exchange x.parent x.partner x.rival x.winner :=
  if_pos (h.sameKind_rival_partner hp hk)

/-- After the exchange all pairs are of one kind each. -/
lemma sameKinds_exchange (h : x.Sound task p) (hp : p.OneToOne) (hk : p.SameKinds task) :
    (p.exchange x.parent x.partner x.rival x.winner).SameKinds task := by
  intro s d hsd
  rw [Pairing.dst?_exchange] at hsd
  split_ifs at hsd with hrival hparent
  · cases hsd
    exact hrival ▸ h.sameKind_rival_partner hp hk
  · cases hsd
    exact hparent ▸ h.kinds
  · exact hk s d hsd

end Exchange.Sound

/-- Settling a parent does nothing or carries out one exchange. -/
lemma returns_settle (hp : p.OneToOne) :
    Returns (settle task parent counts) p fun _ q =>
      q = p ∨ ∃ x : Exchange, x.Sound task p ∧ q = x.result task p := by
  refine returns_pairing_bind ?_
  split
  · next x hx =>
    have hsound := sound_of_winner? hx
    exact (hsound.returns_perform hp).mono fun _ _ hq => .inr ⟨x, hsound, hq⟩
  · exact returns_pure (.inl rfl)

/-- **Moving the parents only exchanges partners**, if all pairs are of the same kind.  How the
votes were cast does not matter for it.

**Proof sketch.** One parent after the other.  If it wins, the pair of the parent and that of its
rival exchange partners, which are of the same kind, so that the pairing stays of the same kind. -/
theorem returns_run_exchanges (hp : p.OneToOne) (hk : p.SameKinds task) :
    Returns (run task) p fun _ q => p.Exchanges q := by
  refine returns_pairing_bind ?_
  -- all pairs stay of the same kind, so that the next rival is of the kind of its new partner too
  refine (returns_forM (I := fun q => p.Exchanges q ∧ q.SameKinds task) ⟨.refl, hk⟩
    fun parent _ q hq => ?_).mono fun _ _ hq => hq.1
  obtain ⟨hpq, hqk⟩ := hq
  have hq := hpq.oneToOne hp
  refine (returns_settle hq).mono ?_
  rintro _ r (rfl | ⟨x, hx, rfl⟩)
  · exact ⟨hpq, hqk⟩
  · rw [hx.result_eq_exchange hq hqk]
    exact ⟨.exchange hpq hx.parent (hx.rival_linked hq) hx.differ, hx.sameKinds_exchange hq hqk⟩

end ParentVote

/-- **Moving parents by majority loses no partner.**  In a one-to-one pairing of nodes of the same
kind the stage does not fail, and all it does is to let two pairs exchange their partners, as often
as needed; so the same source nodes and the same destination nodes have a partner afterwards, and
there are as many pairs. -/
theorem parent_votes_only_exchange_partners (task : Task) (p : Pairing)
    (hone : p.isOneToOne = true)
    (hkinds : ∀ z ∈ p.pairs, task.src.sameKind task.dst z.src z.dst = true) :
    let o := Stage.parentVote.perform task p
    o.fault = none ∧ p.Exchanges o.pairing ∧
      (∀ s, o.pairing.hasSrc s = p.hasSrc s) ∧ (∀ d, o.pairing.hasDst d = p.hasDst d) ∧
      o.pairing.size = p.size := by
  intro o
  have hp := Pairing.isOneToOne_iff.1 hone
  have hk : p.SameKinds task := fun s d h => hkinds ⟨s, d⟩ (Pairing.mem_pairs_iff.2 h)
  obtain ⟨hfault, hex⟩ := (ParentVote.returns_run_exchanges hp hk).perform
  exact ⟨hfault, hex, hex.hasSrc_eq, hex.hasDst_eq hp, Pairing.size_eq_of_hasSrc_eq hex.hasSrc_eq⟩

/-- A block is linked to an empty one, although its three values are in another block, which is
linked to the empty block of the source tree.  The values win the vote, and the empty blocks are
linked to each other. -/
theorem empty_block_gets_partner_of_moved_one :
    let values : Forest (Kind × String) :=
      .node (⟨2⟩, "1") .nil (.node (⟨2⟩, "2") .nil (.leaf (⟨2⟩, "3")))
    let src : Tree := .ofContents ⟨(⟨0⟩, "r"),
      .node (⟨1⟩, "a") values (.node (⟨3⟩, "s") (.leaf (⟨1⟩, "z")) .nil)⟩
    let dst : Tree := .ofContents ⟨(⟨0⟩, "r"),
      .node (⟨4⟩, "g") (.node (⟨1⟩, "a") values .nil) (.node (⟨5⟩, "h") (.leaf (⟨1⟩, "z")) .nil)⟩
    let task : Task := { src, dst }
    let p :=
      (((((Pairing.empty.insert 1 1).insert 3 4).insert 4 5).insert 5 6).insert 2 8).insert 7 3
    let o := Stage.parentVote.perform task p
    p.isOneToOne = true ∧
      (∀ z ∈ p.pairs, task.src.sameKind task.dst z.src z.dst = true) ∧
      o.pairing.pairs = [⟨1, 1⟩, ⟨2, 3⟩, ⟨3, 4⟩, ⟨4, 5⟩, ⟨5, 6⟩, ⟨7, 8⟩] ∧
      p.Exchanges o.pairing ∧ o.pairing.hasSrc 7 = p.hasSrc 7 ∧
      o.pairing.hasDst 8 = p.hasDst 8 ∧ o.pairing.size = p.size := by
  intro values src dst task p o
  have hone : p.isOneToOne = true := by decide +kernel
  have hkinds : ∀ z ∈ p.pairs, task.src.sameKind task.dst z.src z.dst = true := by decide +kernel
  have hpairs : o.pairing.pairs =
      [⟨1, 1⟩, ⟨2, 3⟩, ⟨3, 4⟩, ⟨4, 5⟩, ⟨5, 6⟩, ⟨7, 8⟩] := by decide +kernel
  -- the outcome goes by its name, so that nothing is evaluated to compare the sizes
  have ho : Stage.parentVote.perform task p = o := rfl
  have h := parent_votes_only_exchange_partners task p hone hkinds
  simp only [ho] at h
  obtain ⟨-, hex, hsrcs, hdsts, hsize⟩ := h
  exact ⟨hone, hkinds, hpairs, hex, hsrcs 7, hdsts 8, hsize⟩

end TreeMatching
