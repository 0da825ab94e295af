import Mathlib.Data.Finset.Card
import TreeMatching.Proofs.OneToOne

set_option autoImplicit false

/-!
# The history of a pairing

A pairing consists of two tables that grow independently of each other, and of a counter.  To
someone who calls its operations it is nothing but a finite set of pairs, in which no node occurs
twice on its side: every call is answered as that set would answer it, whatever calls came before
and however long the tables were at the beginning.

## Main definitions

* `Change`, `Reply` — the calls that may change a pairing, and what they answer.
* `Pairing.change`, `setChange` — how a pairing and how a set of pairs carries out a call.
* `runChanges` — a history of calls.
* `Pairing.Holds` — a one-to-one pairing has the pairs of a set.
* `Pairing.Shows` — every question to a pairing is answered as a set of pairs says.
* `Pairing.LooksLike` — two pairings answer every question alike.

## Main results

* `Pairing.Holds.change` — one call keeps pairing and set together, and they reply alike.
* `Pairing.Holds.run` — so does a history of calls.
* `pairing_behaves_as_set_of_pairs` — from an empty pairing of any capacity, every history of calls.
-/

namespace TreeMatching

/-! ### Calls -/

/-- A call that may change a pairing. -/
inductive Change where
  | link (src dst : NodeId)
  | linkIfFree (src dst : NodeId)
  | unlink (src dst : NodeId)

/-- What a change answers. -/
inductive Reply where
  | done
  | failed (fault : Fault)
  | told (added : Bool)

/-- Carries out a change.  If it fails, the pairing stays as it is. -/
def Pairing.change (p : Pairing) : Change → Reply × Pairing
  | .link s d =>
    match p.link s d with
    | .ok q => (.done, q)
    | .error fault => (.failed fault, p)
  | .linkIfFree s d => (.told (p.linkIfFree s d).1, (p.linkIfFree s d).2)
  | .unlink s d =>
    match p.unlink s d with
    | .ok q => (.done, q)
    | .error fault => (.failed fault, p)

/-- No pair of a set has the one node as its source or the other as its destination. -/
def BothFreeIn (P : Finset Pair) (s d : NodeId) : Prop := ∀ z ∈ P, z.src ≠ s ∧ z.dst ≠ d

/-- Whether two nodes are free in a finite set of pairs can be decided. -/
instance (P : Finset Pair) (s d : NodeId) : Decidable (BothFreeIn P s d) :=
  inferInstanceAs (Decidable (∀ z ∈ P, z.src ≠ s ∧ z.dst ≠ d))

/-- What a change does to a set of pairs.  Linking adds the pair if both nodes are free, and
unlinking removes the pair if it is there; otherwise nothing happens to the set. -/
def setChange (P : Finset Pair) : Change → Reply × Finset Pair
  | .link s d =>
    if BothFreeIn P s d then (.done, insert ⟨s, d⟩ P) else (.failed (.conflict s d), P)
  | .linkIfFree s d =>
    if BothFreeIn P s d then (.told true, insert ⟨s, d⟩ P) else (.told false, P)
  | .unlink s d =>
    if ⟨s, d⟩ ∈ P then (.done, P.erase ⟨s, d⟩) else (.failed (.notLinked s d), P)

/-- Carries out a list of changes, one after the other.  It gives all replies and the last state. -/
def runChanges {σ : Type} (step : σ → Change → Reply × σ) (start : σ) :
    List Change → List Reply × σ
  | [] => ([], start)
  | c :: cs =>
    let first := step start c
    let others := runChanges step first.2 cs
    (first.1 :: others.1, others.2)

namespace Pairing

variable {p q : Pairing} {P : Finset Pair} {s d : NodeId}

/-! ### One call -/

/-- A link succeeds if both nodes are free; otherwise it is reported as a conflict. -/
lemma change_link : p.change (.link s d) =
    if p.bothFree s d then (.done, p.insert s d) else (.failed (.conflict s d), p) := by
  rw [change, link]
  cases p.bothFree s d <;> rfl

/-- A link that is made only if possible is made if both nodes are free, and says so. -/
lemma change_linkIfFree : p.change (.linkIfFree s d) =
    if p.bothFree s d then (.told true, p.insert s d) else (.told false, p) := by
  rw [change, linkIfFree, link]
  cases p.bothFree s d <;> rfl

/-- A link that is there can be undone; otherwise it is reported that there is none. -/
lemma change_unlink : p.change (.unlink s d) =
    if p.has s d then (.done, p.erase s d) else (.failed (.notLinked s d), p) := by
  rw [change, unlink]
  cases p.has s d <;> rfl

/-- The pairing is one-to-one, and its pairs are those of a set. -/
structure Holds (p : Pairing) (P : Finset Pair) : Prop where
  /-- The two directions are inverse to each other. -/
  oneToOne : p.OneToOne
  /-- The partners in the pairing are the partners in the set. -/
  dst?_iff : ∀ s d, p.dst? s = some d ↔ ⟨s, d⟩ ∈ P

/-- From the destination side, the partners are given by the set as well. -/
lemma Holds.src?_iff (h : p.Holds P) (s d : NodeId) : p.src? d = some s ↔ ⟨s, d⟩ ∈ P :=
  (h.oneToOne s d).symm.trans (h.dst?_iff s d)

/-- Two nodes are free in the pairing exactly if they are free in the set. -/
lemma Holds.bothFree_iff (h : p.Holds P) : p.bothFree s d = true ↔ BothFreeIn P s d := by
  rw [Pairing.bothFree_iff, Option.eq_none_iff_forall_ne_some, Option.eq_none_iff_forall_ne_some]
  simp only [ne_eq, h.dst?_iff, h.src?_iff]
  constructor
  · rintro ⟨hsrc, hdst⟩ ⟨x, y⟩ hz
    refine ⟨?_, ?_⟩
    · rintro rfl
      exact hsrc y hz
    · rintro rfl
      exact hdst x hz
  · intro hfree
    exact ⟨fun y hy => (hfree _ hy).1 rfl, fun x hx => (hfree _ hx).2 rfl⟩

/-- Two nodes are linked in the pairing exactly if they are a pair of the set. -/
lemma Holds.has_iff (h : p.Holds P) : p.has s d = true ↔ ⟨s, d⟩ ∈ P :=
  Pairing.has_iff.trans (h.dst?_iff s d)

/-- Linking two free nodes adds exactly their pair. -/
lemma Holds.insert (h : p.Holds P) (hfree : p.bothFree s d = true) :
    (p.insert s d).Holds (Insert.insert ⟨s, d⟩ P) where
  oneToOne := h.oneToOne.insert (Pairing.bothFree_iff.1 hfree).1 (Pairing.bothFree_iff.1 hfree).2
  dst?_iff := by
    intro x y
    rw [dst?_insert, Finset.mem_insert, Pair.mk.injEq]
    split
    · next hx =>
      subst hx
      -- the node was free, so it is in no other pair
      have hnot : (⟨s, y⟩ : Pair) ∉ P := fun hy => (h.bothFree_iff.1 hfree _ hy).1 rfl
      simp [hnot, eq_comm]
    · next hx =>
      rw [h.dst?_iff]
      simp [Ne.symm hx]

/-- Undoing a link removes exactly its pair. -/
lemma Holds.erase (h : p.Holds P) (hsd : p.has s d = true) :
    (p.erase s d).Holds (P.erase ⟨s, d⟩) where
  oneToOne := h.oneToOne.erase (Pairing.has_iff.1 hsd)
  dst?_iff := by
    intro x y
    rw [dst?_erase, Finset.mem_erase, ne_eq, Pair.mk.injEq]
    split
    · next hx =>
      subst hx
      rw [Pairing.has_iff] at hsd
      rw [← h.dst?_iff, hsd]
      simp [eq_comm]
    · next hx =>
      rw [h.dst?_iff]
      simp [Ne.symm hx]

/-- **One call.**  A pairing and the set of its pairs give the same reply and stay together.

**Proof sketch.** Case distinction on the call.  Whether it takes effect is asked of the look-ups on
the one side and of the set on the other, and the answers agree.  If it does, a pair is inserted or
erased on both sides. -/
lemma Holds.change (h : p.Holds P) (c : Change) :
    (p.change c).1 = (setChange P c).1 ∧ (p.change c).2.Holds (setChange P c).2 := by
  cases c with
  | link s d =>
    by_cases hfree : p.bothFree s d = true
    · rw [change_link, setChange, if_pos hfree, if_pos (h.bothFree_iff.1 hfree)]
      exact ⟨rfl, h.insert hfree⟩
    · rw [change_link, setChange, if_neg hfree, if_neg (mt h.bothFree_iff.2 hfree)]
      exact ⟨rfl, h⟩
  | linkIfFree s d =>
    by_cases hfree : p.bothFree s d = true
    · rw [change_linkIfFree, setChange, if_pos hfree, if_pos (h.bothFree_iff.1 hfree)]
      exact ⟨rfl, h.insert hfree⟩
    · rw [change_linkIfFree, setChange, if_neg hfree, if_neg (mt h.bothFree_iff.2 hfree)]
      exact ⟨rfl, h⟩
  | unlink s d =>
    by_cases hsd : p.has s d = true
    · rw [change_unlink, setChange, if_pos hsd, if_pos (h.has_iff.1 hsd)]
      exact ⟨rfl, h.erase hsd⟩
    · rw [change_unlink, setChange, if_neg hsd, if_neg (mt h.has_iff.2 hsd)]
      exact ⟨rfl, h⟩

/-! ### A history of calls -/

/-- **A history of calls.**  Pairing and set give the same replies all along and stay together. -/
lemma Holds.run (h : p.Holds P) (changes : List Change) :
    (runChanges Pairing.change p changes).1 = (runChanges setChange P changes).1 ∧
      (runChanges Pairing.change p changes).2.Holds (runChanges setChange P changes).2 := by
  induction changes generalizing p P with
  | nil => exact ⟨rfl, h⟩
  | cons c cs ih =>
    obtain ⟨hreply, hnext⟩ := h.change c
    obtain ⟨hreplies, hlast⟩ := ih hnext
    exact ⟨congrArg₂ List.cons hreply hreplies, hlast⟩

/-- The pairing to begin with: with room for trees of the given sizes, or without any room. -/
def start : Option (Nat × Nat) → Pairing
  | none => empty
  | some (srcNodes, dstNodes) => withCapacity srcNodes dstNodes

/-- At the beginning there are no pairs, whatever the room that is made. -/
lemma holds_start (capacity : Option (Nat × Nat)) : (start capacity).Holds ∅ := by
  have hdst : ∀ s, (start capacity).dst? s = none := by
    intro s
    cases capacity <;> exact Partners.get?_blank ..
  have hsrc : ∀ d, (start capacity).src? d = none := by
    intro d
    cases capacity <;> exact Partners.get?_blank ..
  exact ⟨fun s d => by simp [hdst, hsrc], fun s d => by simp [hdst]⟩

/-! ### What the questions answer -/

/-- Every question to the pairing is answered as a finite set of pairs says, and no node occurs
twice on its side of the set. -/
structure Shows (p : Pairing) (P : Finset Pair) : Prop where
  eq_of_src : ∀ y ∈ P, ∀ z ∈ P, y.src = z.src → y = z
  eq_of_dst : ∀ y ∈ P, ∀ z ∈ P, y.dst = z.dst → y = z
  dst? : ∀ s d, p.dst? s = some d ↔ ⟨s, d⟩ ∈ P
  src? : ∀ s d, p.src? d = some s ↔ ⟨s, d⟩ ∈ P
  has : ∀ s d, p.has s d = true ↔ ⟨s, d⟩ ∈ P
  hasSrc : ∀ s, p.hasSrc s = true ↔ ∃ d, ⟨s, d⟩ ∈ P
  hasDst : ∀ d, p.hasDst d = true ↔ ∃ s, ⟨s, d⟩ ∈ P
  size : p.size = P.card
  isEmpty : p.isEmpty = true ↔ P = ∅
  toFinset_pairs : p.pairs.toFinset = P
  pairwise_pairs : p.pairs.Pairwise (·.src < ·.src)
  isOneToOne : p.isOneToOne = true

/-- The listed pairs are those of the set. -/
lemma Holds.toFinset_pairs (h : p.Holds P) : p.pairs.toFinset = P := by
  ext z
  rw [List.mem_toFinset, mem_pairs_iff, h.dst?_iff]

/-- The size that is kept counts the pairs of the set. -/
lemma Holds.size_eq_card (h : p.Holds P) : p.size = P.card := by
  rw [← h.toFinset_pairs, List.toFinset_card_of_nodup nodup_pairs, length_pairs]

/-- **A pairing that holds a set of pairs answers every question as the set says.**

**Proof sketch.** Each answer is computed from the two look-ups, the size or the list of pairs, and
for these the set is known. -/
theorem Holds.shows (h : p.Holds P) : p.Shows P where
  eq_of_src := by
    rintro ⟨s, d⟩ hy ⟨s', d'⟩ hz hs
    obtain rfl : s = s' := hs
    rw [← h.dst?_iff] at hy hz
    rw [hy, Option.some.injEq] at hz
    rw [hz]
  eq_of_dst := by
    rintro ⟨s, d⟩ hy ⟨s', d'⟩ hz hd
    obtain rfl : d = d' := hd
    rw [← h.src?_iff] at hy hz
    rw [hy, Option.some.injEq] at hz
    rw [hz]
  dst? := h.dst?_iff
  src? := h.src?_iff
  has _ _ := h.has_iff
  hasSrc s := by simp only [Pairing.hasSrc, Option.isSome_iff_exists, h.dst?_iff]
  hasDst d := by simp only [Pairing.hasDst, Option.isSome_iff_exists, h.src?_iff]
  size := h.size_eq_card
  isEmpty := by rw [Pairing.isEmpty, beq_iff_eq, h.size_eq_card, Finset.card_eq_zero]
  toFinset_pairs := h.toFinset_pairs
  pairwise_pairs := Pairing.pairwise_pairs
  isOneToOne := isOneToOne_iff.2 h.oneToOne

/-- Two pairings answer every question alike. -/
structure LooksLike (p q : Pairing) : Prop where
  dst? : ∀ s, p.dst? s = q.dst? s
  src? : ∀ d, p.src? d = q.src? d
  has : ∀ s d, p.has s d = q.has s d
  hasSrc : ∀ s, p.hasSrc s = q.hasSrc s
  hasDst : ∀ d, p.hasDst d = q.hasDst d
  size : p.size = q.size
  isEmpty : p.isEmpty = q.isEmpty
  pairs : p.pairs = q.pairs
  isOneToOne : p.isOneToOne = q.isOneToOne

/-- A list of pairs is determined by its members if it is sorted by distinct source nodes. -/
lemma pairs_eq_of_mem_iff (h : ∀ z, z ∈ p.pairs ↔ z ∈ q.pairs) : p.pairs = q.pairs := by
  have hperm : p.pairs.Perm q.pairs := (List.perm_ext_iff_of_nodup nodup_pairs nodup_pairs).2 h
  refine hperm.eq_of_pairwise ?_ pairwise_pairs pairwise_pairs
  intro y z _ _ hyz hzy
  exact absurd hyz (Nat.lt_asymm hzy)

/-- Pairings that show the same set of pairs answer every question alike.

**Proof sketch.** The look-ups in both directions are determined by the set, and so is the size.
Everything else is computed from them. -/
theorem Holds.looksLike (hp : p.Holds P) (hq : q.Holds P) : p.LooksLike q := by
  have hdst : ∀ s, p.dst? s = q.dst? s := fun s =>
    Option.ext fun d => (hp.dst?_iff s d).trans (hq.dst?_iff s d).symm
  have hsrc : ∀ d, p.src? d = q.src? d := fun d =>
    Option.ext fun s => (hp.src?_iff s d).trans (hq.src?_iff s d).symm
  have hsize : p.size = q.size := hp.size_eq_card.trans hq.size_eq_card.symm
  exact {
    dst? := hdst
    src? := hsrc
    has := fun s d => by rw [Pairing.has, Pairing.has, hdst]
    hasSrc := fun s => by rw [Pairing.hasSrc, Pairing.hasSrc, hdst]
    hasDst := fun d => by rw [Pairing.hasDst, Pairing.hasDst, hsrc]
    size := hsize
    isEmpty := by rw [Pairing.isEmpty, Pairing.isEmpty, hsize]
    pairs := pairs_eq_of_mem_iff fun z => by rw [mem_pairs_iff, mem_pairs_iff, hdst]
    isOneToOne := (isOneToOne_iff.2 hp.oneToOne).trans (isOneToOne_iff.2 hq.oneToOne).symm }

end Pairing

/-- **A pairing behaves as a finite set of pairs.**  Let a pairing begin empty, with any capacity,
and let any calls be made.  Every call is answered as the set of pairs answers it, which begins
empty too: linking succeeds exactly if no pair has the source or the destination and adds exactly
the pair, unlinking succeeds exactly if the pair is there and removes exactly it, and a call that
fails says so and changes nothing.  After the calls every question is answered as the set says, the
pairs being listed by increasing source, and no node occurs twice on its side.  Another capacity
leads to the same replies and the same answers.

**Proof sketch.** One call keeps the pairing one-to-one and its pairs those of the set, whether the
call succeeds or fails; so do many calls, by induction.  Whoever knows the pairs of a one-to-one
pairing knows the answers to all questions, and the set of the pairs does not depend on the
capacity. -/
theorem pairing_behaves_as_set_of_pairs (capacity : Option (Nat × Nat)) (changes : List Change) :
    let run := fun capacity => runChanges Pairing.change (.start capacity) changes
    let spec := runChanges setChange ∅ changes
    (run capacity).1 = spec.1 ∧ (run capacity).2.Shows spec.2 ∧
      ∀ other, (run other).1 = (run capacity).1 ∧ (run other).2.LooksLike (run capacity).2 := by
  intro run spec
  have hrun : ∀ capacity, (run capacity).1 = spec.1 ∧ (run capacity).2.Holds spec.2 :=
    fun capacity => (Pairing.holds_start capacity).run changes
  obtain ⟨hreplies, hholds⟩ := hrun capacity
  refine ⟨hreplies, hholds.shows, fun other => ?_⟩
  obtain ⟨hreplies', hholds'⟩ := hrun other
  exact ⟨hreplies'.trans hreplies.symm, hholds'.looksLike hholds⟩

end TreeMatching
