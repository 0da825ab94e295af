import Mathlib.Data.List.Nodup
import Mathlib.Data.List.Perm.Basic
import TreeMatching.Proofs.Runs

set_option autoImplicit false

/-!
# Greedy choice

Candidates are put into order and then linked one after the other, as far as their nodes are still
free.  If no two candidates have the same id, the order is total on them, and it does not matter how
they were listed.  A candidate is passed over only for the sake of a better one, or of a partner
that one of its nodes had from the beginning.

## Main definitions

* `Candidate.Before` — a candidate comes strictly earlier in the order.
* `Candidate.ChosenIn` — a candidate with free nodes has been linked.
* `Choice` — what holds after the candidates of a list have been dealt with.

## Main results

* `Score.rank_inj` — scores of the same rank are the same.
* `Candidate.eq_sort` — there is only one way to put candidates with distinct ids into order.
* `Choice.take`, `Choice.pass` — dealing with one more candidate.
* `returns_chooseGreedily` — dealing with all of them.
* `greedy_choice_is_stable` — the choice does not depend on how the candidates are listed, and
  whatever is not chosen has lost to something better.
-/

namespace TreeMatching

open Matching

/-! ### The order of candidates -/

/-- Scores of the same rank are the same, also those that are not numbers. -/
theorem Score.rank_inj {x y : Score} : x.rank = y.rank ↔ x = y := by
  refine ⟨fun h => ?_, fun h => h ▸ rfl⟩
  obtain ⟨x⟩ := x
  obtain ⟨y⟩ := y
  have hx := x.toNat_lt
  have hy := y.toNat_lt
  -- ranks of positive scores are not negative, those of negative scores are
  have hbits : x.toNat = y.toNat := by
    have hhalf : Nat.pow 2 63 = 9223372036854775808 := rfl
    simp only [rank, hhalf] at h
    split at h <;> split at h <;> omega
  rw [UInt64.toNat_inj.1 hbits]

namespace Candidate

variable {a b c : Candidate} {cs ds : List Candidate}

/-- The first candidate comes strictly earlier: its score is higher, or the scores are the same and
its id is smaller. -/
def Before (a b : Candidate) : Prop :=
  b.score.rank < a.score.rank ∨ (a.score = b.score ∧ a.id < b.id)

/-- A candidate comes first by its score or, for equal scores, by its id. -/
lemma precedes_iff : a.precedes b = true ↔
    b.score.rank < a.score.rank ∨ (a.score.rank = b.score.rank ∧ a.id ≤ b.id) := by
  simp [precedes]

/-- The order of candidates is transitive. -/
lemma precedes_trans (hab : a.precedes b = true) (hbc : b.precedes c = true) :
    a.precedes c = true := by
  rw [precedes_iff] at hab hbc ⊢
  omega

/-- Any two candidates can be compared. -/
lemma precedes_total (a b : Candidate) : (a.precedes b || b.precedes a) = true := by
  rw [Bool.or_eq_true, precedes_iff, precedes_iff]
  omega

/-- Candidates at the same place of the order have the same id. -/
lemma id_eq_of_precedes (hab : a.precedes b = true) (hba : b.precedes a = true) : a.id = b.id := by
  rw [precedes_iff] at hab hba
  omega

/-- Of two candidates with different ids, the one that precedes the other comes strictly earlier. -/
lemma before_of_precedes (h : a.precedes b = true) (hne : a.id ≠ b.id) : a.Before b := by
  rw [precedes_iff] at h
  rcases h with h | ⟨hrank, hid⟩
  · exact .inl h
  · exact .inr ⟨Score.rank_inj.1 hrank, Nat.lt_of_le_of_ne hid hne⟩

/-- Sorting puts the candidates in order. -/
lemma pairwise_sort (cs : List Candidate) : (sort cs).Pairwise fun a b => a.precedes b = true := by
  unfold sort
  apply List.pairwise_mergeSort
  · intro a b c hab hbc
    exact precedes_trans hab hbc
  · intro a b
    exact precedes_total a b

/-- **There is only one way to put candidates with distinct ids into order**: a list of them that is
in order, however it has come about, is the sorted one. -/
theorem eq_sort (hids : (cs.map Candidate.id).Nodup) (hperm : ds.Perm cs)
    (hds : ds.Pairwise fun a b => a.precedes b = true) : ds = sort cs := by
  have hsort : (sort cs).Perm cs := List.mergeSort_perm cs _
  refine List.Perm.eq_of_pairwise ?_ hds (pairwise_sort cs) (hperm.trans hsort.symm)
  intro a b ha hb hab hba
  exact List.inj_on_of_nodup_map hids (hperm.mem_iff.1 ha) (hsort.mem_iff.1 hb)
    (id_eq_of_precedes hab hba)

/-- Rearranging candidates with distinct ids does not change their order. -/
lemma sort_eq_of_perm (hids : (cs.map Candidate.id).Nodup) (hperm : ds.Perm cs) :
    sort ds = sort cs :=
  eq_sort hids ((List.mergeSort_perm ds _).trans hperm) (pairwise_sort ds)

/-- Candidates with distinct ids are sorted so that each comes strictly before all behind it. -/
lemma pairwise_before_sort (hids : (cs.map Candidate.id).Nodup) : (sort cs).Pairwise Before := by
  have hperm : (sort cs).Perm cs := List.mergeSort_perm cs _
  have hne : (sort cs).Pairwise fun a b => a.id ≠ b.id :=
    List.pairwise_map.1 ((hperm.map Candidate.id).nodup_iff.2 hids)
  exact (pairwise_sort cs).imp₂ (fun _ _ => before_of_precedes) hne

/-- Between the pairings `p` and `q` the candidate has been linked: its nodes were free, and they
are partners now. -/
structure ChosenIn (c : Candidate) (p q : Pairing) : Prop where
  free : p.bothFree c.src c.dst = true
  linked : q.dst? c.src = some c.dst

/-- What has been chosen stays so when a further free node is linked. -/
lemma ChosenIn.insert {p q : Pairing} {s : NodeId} (h : c.ChosenIn p q) (hs : q.dst? s = none)
    (d : NodeId) : c.ChosenIn p (q.insert s d) where
  free := h.free
  linked := by
    rw [Pairing.dst?_insert, if_neg, h.linked]
    rintro rfl
    rw [h.linked] at hs
    cases hs

end Candidate

/-! ### One candidate after the other -/

/-- The candidates of the list `done` have been dealt with, beginning with the pairing `p`: old
links are kept, and new ones come from candidates; and a candidate that has not been chosen has a
node that had a partner from the beginning, or that belongs to a chosen candidate which is better in
the sense of `better`. -/
structure Choice (better : Candidate → Candidate → Prop) (p : Pairing) (done : List Candidate)
    (q : Pairing) : Prop where
  oneToOne : q.OneToOne
  keeps : ∀ s d, p.dst? s = some d → q.dst? s = some d
  new : ∀ s d, q.dst? s = some d →
    p.dst? s = some d ∨ ∃ c ∈ done, c.src = s ∧ c.dst = d ∧ c.ChosenIn p q
  decided : ∀ c ∈ done, c.ChosenIn p q ∨ p.hasSrc c.src = true ∨ p.hasDst c.dst = true ∨
    ∃ e ∈ done, better e c ∧ e.ChosenIn p q ∧ (e.src = c.src ∨ e.dst = c.dst)

namespace Choice

variable {better : Candidate → Candidate → Prop} {p q : Pairing} {done : List Candidate}
  {c : Candidate}

/-- Without candidates nothing is chosen. -/
lemma nil (hp : p.OneToOne) : Choice better p [] p :=
  ⟨hp, fun _ _ => id, fun _ _ => .inl, by simp⟩

/-- A link that is there after the choice, seen from its destination. -/
lemma new_src (h : Choice better p done q) (hp : p.OneToOne) {s d : NodeId}
    (hd : q.src? d = some s) :
    p.hasDst d = true ∨ ∃ c ∈ done, c.src = s ∧ c.dst = d ∧ c.ChosenIn p q := by
  refine (h.new s d ((h.oneToOne s d).2 hd)).imp_left fun hold => ?_
  rw [Pairing.hasDst, (hp s d).1 hold, Option.isSome_some]

/-- A candidate with free nodes is linked.

**Proof sketch.** Nodes that are free now were free at the beginning, since old links are kept; so
the candidate counts as chosen.  Linking free nodes changes no other link, and what was decided
before remains decided. -/
lemma take (h : Choice better p done q) (hp : p.OneToOne) (hs : q.dst? c.src = none)
    (hd : q.src? c.dst = none) : Choice better p (done ++ [c]) (q.insert c.src c.dst) := by
  have hsrc : p.dst? c.src = none := by
    refine Option.eq_none_iff_forall_ne_some.2 fun d hold => ?_
    rw [h.keeps _ _ hold] at hs
    cases hs
  have hdst : p.src? c.dst = none := by
    refine Option.eq_none_iff_forall_ne_some.2 fun s hold => ?_
    rw [(h.oneToOne _ _).1 (h.keeps _ _ ((hp _ _).2 hold))] at hd
    cases hd
  have hchosen : c.ChosenIn p (q.insert c.src c.dst) :=
    ⟨Pairing.bothFree_iff.2 ⟨hsrc, hdst⟩, by rw [Pairing.dst?_insert, if_pos rfl]⟩
  refine ⟨h.oneToOne.insert hs hd, fun s d hold => ?_, fun s d hsd => ?_, fun x hx => ?_⟩
  · rw [Pairing.dst?_insert, if_neg, h.keeps s d hold]
    rintro rfl
    rw [hsrc] at hold
    cases hold
  · rw [Pairing.dst?_insert] at hsd
    split at hsd
    · next heq => exact .inr ⟨c, by simp, heq, Option.some.inj hsd, hchosen⟩
    · refine (h.new s d hsd).imp_right ?_
      rintro ⟨e, he, hes, hed, hechosen⟩
      exact ⟨e, List.mem_append_left _ he, hes, hed, hechosen.insert hs _⟩
  · rcases List.mem_append.1 hx with hx | hx
    · rcases h.decided x hx with hx' | hx' | hx' | ⟨e, he, hbetter, hechosen, hmeet⟩
      · exact .inl (hx'.insert hs _)
      · exact .inr (.inl hx')
      · exact .inr (.inr (.inl hx'))
      · exact .inr (.inr (.inr
          ⟨e, List.mem_append_left _ he, hbetter, hechosen.insert hs _, hmeet⟩))
    · rw [List.mem_singleton.1 hx]
      exact .inl hchosen

/-- A candidate is passed over because one of its nodes has a partner.  That partner was there from
the beginning, or it comes from one of the candidates dealt with before.

**Proof sketch.** If the source node has a partner, this partner was there from the beginning or
belongs to a chosen candidate that was dealt with before, hence a better one.  The same holds for
the destination node.  Nothing else changes. -/
lemma pass (h : Choice better p done q) (hp : p.OneToOne) (hbetter : ∀ e ∈ done, better e c)
    (htaken : ¬(q.dst? c.src = none ∧ q.src? c.dst = none)) : Choice better p (done ++ [c]) q := by
  have hlost : p.hasSrc c.src = true ∨ p.hasDst c.dst = true ∨
      ∃ e ∈ done, better e c ∧ e.ChosenIn p q ∧ (e.src = c.src ∨ e.dst = c.dst) := by
    cases hsrc : q.dst? c.src with
    | some d =>
      rcases h.new _ _ hsrc with hold | ⟨e, he, hes, -, hechosen⟩
      · exact .inl (by rw [Pairing.hasSrc, hold, Option.isSome_some])
      · exact .inr (.inr ⟨e, he, hbetter e he, hechosen, .inl hes⟩)
    | none =>
      cases hdst : q.src? c.dst with
      | some s =>
        rcases h.new_src hp hdst with hold | ⟨e, he, -, hed, hechosen⟩
        · exact .inr (.inl hold)
        · exact .inr (.inr ⟨e, he, hbetter e he, hechosen, .inr hed⟩)
      | none => exact absurd ⟨hsrc, hdst⟩ htaken
  have hmore : ∀ x, (∃ e ∈ done, better e x ∧ e.ChosenIn p q ∧ (e.src = x.src ∨ e.dst = x.dst)) →
      ∃ e ∈ done ++ [c], better e x ∧ e.ChosenIn p q ∧ (e.src = x.src ∨ e.dst = x.dst) :=
    fun _ ⟨e, he, hrest⟩ => ⟨e, List.mem_append_left _ he, hrest⟩
  refine ⟨h.oneToOne, h.keeps, fun s d hsd => ?_, fun x hx => ?_⟩
  · exact (h.new s d hsd).imp_right fun ⟨e, he, hrest⟩ => ⟨e, List.mem_append_left _ he, hrest⟩
  · rcases List.mem_append.1 hx with hx | hx
    · exact (h.decided x hx).imp_right (Or.imp_right (Or.imp_right (hmore x)))
    · rw [List.mem_singleton.1 hx]
      exact .inr (hlost.imp_right (Or.imp_right (hmore c)))

/-- After the choice, no candidate has two free nodes.

**Proof sketch.** A candidate that was chosen is linked.  Of any other one, a node had a partner
from the beginning, and old links are kept, or it has met a chosen candidate, which is linked. -/
lemma not_bothFree (h : Choice better p done q) (hp : p.OneToOne) (hc : c ∈ done) :
    ¬(q.dst? c.src = none ∧ q.src? c.dst = none) := by
  rintro ⟨hs, hd⟩
  have hchosen : ∀ e : Candidate, e.ChosenIn p q → e.src ≠ c.src ∧ e.dst ≠ c.dst := by
    intro e he
    have hlinked := he.linked
    refine ⟨fun heq => ?_, fun heq => ?_⟩
    · rw [heq, hs] at hlinked
      cases hlinked
    · rw [h.oneToOne, heq, hd] at hlinked
      cases hlinked
  rcases h.decided c hc with hc' | hold | hold | ⟨e, -, -, he, hmeet⟩
  · exact (hchosen c hc').1 rfl
  · obtain ⟨d, hold⟩ := Option.isSome_iff_exists.1 hold
    rw [h.keeps _ _ hold] at hs
    cases hs
  · obtain ⟨s, hold⟩ := Option.isSome_iff_exists.1 hold
    rw [(h.oneToOne _ _).1 (h.keeps _ _ ((hp _ _).2 hold))] at hd
    cases hd
  · exact hmeet.elim (hchosen e he).1 (hchosen e he).2

end Choice

/-- **All candidates are dealt with, best first.**

**Proof sketch.** Induction along the sorted list.  A candidate is linked if its nodes are free at
its turn; otherwise one of the candidates in front of it in the list, all of which are better, has
taken one of them, unless it was taken from the beginning. -/
theorem returns_chooseGreedily {better : Candidate → Candidate → Prop} {cs : List Candidate}
    {p : Pairing} (hp : p.OneToOne) (hsorted : (Candidate.sort cs).Pairwise better) :
    Returns (chooseGreedily cs) p fun _ => Choice better p (Candidate.sort cs) := by
  refine returns_forM_prefix (.nil hp) fun done c rest q hsplit h => ?_
  rw [hsplit, List.pairwise_append] at hsorted
  have hbetter : ∀ e ∈ done, better e c := fun e he =>
    hsorted.2.2 e he c (List.mem_cons_self ..)
  refine returns_pairing_bind ?_
  split
  · next hfree =>
    obtain ⟨hs, hd⟩ := Pairing.bothFree_iff.1 hfree
    exact returns_link hs hd (h.take hp hs hd)
  · next htaken =>
    exact returns_pure (h.pass hp hbetter fun hfree => htaken (Pairing.bothFree_iff.2 hfree))

/-- After a greedy choice no candidate has two free nodes. -/
lemma returns_chooseGreedily_not_bothFree {p : Pairing} (cs : List Candidate) (hp : p.OneToOne) :
    Returns (chooseGreedily cs) p fun _ q =>
      ∀ c ∈ cs, ¬(q.dst? c.src = none ∧ q.src? c.dst = none) := by
  refine (returns_chooseGreedily hp (Candidate.pairwise_sort cs)).mono fun _ q hq c hc => ?_
  exact hq.not_bothFree hp (List.mem_mergeSort.2 hc)

/-- **The greedy choice is stable.**  For candidates with distinct ids and any one-to-one pairing it
does not fail, and it is the same however the candidates are listed.  Old links are kept, and all
new ones join the two nodes of a candidate.  A candidate that is not linked in the end has a node
that had a partner before, or that has been linked through another candidate, one with a higher
score or with the same score and a smaller id.

**Proof sketch.** Candidates with distinct ids are sorted in only one way, so that the choice does
not depend on the list.  The rest is what `Choice` says of all candidates when the choice is
over. -/
theorem greedy_choice_is_stable (cs : List Candidate) (p : Pairing)
    (hids : (cs.map Candidate.id).Nodup) (hone : p.isOneToOne = true) :
    let o := (chooseGreedily cs).perform p
    o.fault = none ∧
      (∀ ds, ds.Perm cs → (chooseGreedily ds).perform p = o) ∧
      (∀ z ∈ p.pairs, z ∈ o.pairing.pairs) ∧
      (∀ z ∈ o.pairing.pairs, z ∈ p.pairs ∨ ∃ c ∈ cs, z = ⟨c.src, c.dst⟩) ∧
      ∀ c ∈ cs, o.pairing.has c.src c.dst = false →
        p.hasSrc c.src = true ∨ p.hasDst c.dst = true ∨
          ∃ e ∈ cs, (e.src = c.src ∨ e.dst = c.dst) ∧
            (c.score.rank < e.score.rank ∨ (e.score = c.score ∧ e.id < c.id)) ∧
            p.bothFree e.src e.dst = true ∧ o.pairing.has e.src e.dst = true := by
  intro o
  have hp := Pairing.isOneToOne_iff.1 hone
  have hmem : ∀ c, c ∈ Candidate.sort cs ↔ c ∈ cs := fun c => List.mem_mergeSort
  obtain ⟨hfault, h⟩ :=
    (returns_chooseGreedily hp (Candidate.pairwise_before_sort hids)).perform
  refine ⟨hfault, fun ds hperm => ?_, fun z hz => ?_, fun z hz => ?_, fun c hc hfree => ?_⟩
  · change (chooseGreedily ds).perform p = (chooseGreedily cs).perform p
    rw [chooseGreedily, chooseGreedily, Candidate.sort_eq_of_perm hids hperm]
  · rw [Pairing.mem_pairs_iff] at hz ⊢
    exact h.keeps _ _ hz
  · rw [Pairing.mem_pairs_iff] at hz ⊢
    refine (h.new _ _ hz).imp_right ?_
    rintro ⟨c, hc, hs, hd, -⟩
    exact ⟨c, (hmem c).1 hc, by rw [hs, hd]⟩
  · rcases h.decided c ((hmem c).2 hc) with hchosen | hold | hold | ⟨e, he, hbefore, hchosen, hmeet⟩
    · rw [Pairing.has_iff.2 hchosen.linked] at hfree
      cases hfree
    · exact .inl hold
    · exact .inr (.inl hold)
    · exact .inr (.inr ⟨e, (hmem e).1 he, hmeet, hbefore, hchosen.free,
        Pairing.has_iff.2 hchosen.linked⟩)

/-- Four nodes with scores that are zero, negative zero and not a number, and a fifth candidate
whose source node has a partner already.  The undefined score, its sign not being set, is the
highest: its nodes are linked, in whichever order the candidates are listed. -/
theorem undefined_score_is_chosen_over_zeros :
    let cs : List Candidate := [⟨2, 4, ⟨0x8000000000000000⟩, 3⟩, ⟨1, 4, ⟨0⟩, 1⟩,
      ⟨1, 3, ⟨0x7ff8000000000000⟩, 0⟩, ⟨2, 3, ⟨0x8000000000000000⟩, 2⟩,
      ⟨5, 6, ⟨0x3ff0000000000000⟩, 4⟩]
    let p := Pairing.empty.insert 5 5
    let o := (chooseGreedily cs).perform p
    (cs.map Candidate.id).Nodup ∧ p.isOneToOne = true ∧ o.fault = none ∧
      (chooseGreedily cs.reverse).perform p = o ∧ o.pairing.has 1 3 = true := by
  intro cs p o
  have hids : (cs.map Candidate.id).Nodup := by decide
  have hone : p.isOneToOne = true := by decide +kernel
  obtain ⟨hfault, hperm, -, -, hlost⟩ := greedy_choice_is_stable cs p hids hone
  refine ⟨hids, hone, hfault, hperm _ (List.reverse_perm cs), ?_⟩
  by_contra hfree
  -- nothing comes before the candidate, and its nodes are free
  have hfirst : ∀ e ∈ cs, ¬((⟨0x7ff8000000000000⟩ : Score).rank < e.score.rank ∨
      (e.score = ⟨0x7ff8000000000000⟩ ∧ e.id < 0)) := by decide +kernel
  have hnodes : p.bothFree 1 3 = true := by decide +kernel
  rw [Pairing.bothFree, Bool.and_eq_true, Bool.not_eq_true', Bool.not_eq_true'] at hnodes
  rcases hlost ⟨1, 3, ⟨0x7ff8000000000000⟩, 0⟩ (by decide) (Bool.eq_false_iff.2 hfree) with
    hold | hold | ⟨e, he, -, hbefore, -⟩
  · rw [hnodes.1] at hold
    cases hold
  · rw [hnodes.2] at hold
    cases hold
  · exact hfirst e he hbefore

end TreeMatching
