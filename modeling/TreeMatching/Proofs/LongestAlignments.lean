import Mathlib.Order.Bounds.Basic
import Mathlib.Order.MinMax
import TreeMatching.Proofs.Grids
import TreeMatching.Proofs.Growth

set_option autoImplicit false

/-!
# Longest alignments are longest

An alignment pairs entries of two sequences that fit, in the same order on both sides.  Fitting is
no equality: an entry may fit many others, and two entries that fit a third one need not fit the
same entries.  The table of lengths is right nevertheless, because an alignment without its last
pair lies in front of that pair in both sequences.

## Main definitions

* `Alignment.Descends` — pairs of entries that fit, at falling places of the two sequences.
* `Alignment.IsAlignment`, `Alignment.IsLongest` — alignments of lists without repetitions.

## Main results

* `Alignment.isGreatest_succ_of_fits`, `Alignment.isGreatest_succ_of_not_fits` — one cell of the
  table from the cells before it.
* `Alignment.isGreatest_lengths` — the table contains the lengths of longest alignments.
* `Alignment.descends_trace` — the walk through the table finds an alignment of that length.
* `longest_alignment_is_longest` — alignments of nodes.
-/

namespace TreeMatching

namespace Alignment

universe u v

variable {α : Type u} {β : Type v} {aligns : α → β → Bool}

/-! ### Alignments of beginnings -/

section Places

variable {as : Array α} {bs : Array β} {i j i' j' : ℕ} {xs : List (α × β)} {a : α} {b : β}

/-- The pairs of the list are entries that fit.  The places of the first pair are below `i` in the
one sequence and below `j` in the other, and from pair to pair the places become smaller on both
sides. -/
inductive Descends (aligns : α → β → Bool) (as : Array α) (bs : Array β) :
    ℕ → ℕ → List (α × β) → Prop
  | nil (i j : ℕ) : Descends aligns as bs i j []
  | cons {i j i' j' : ℕ} {a : α} {b : β} {xs : List (α × β)} (srcLower : i' < i) (dstLower : j' < j)
      (src : as[i']? = some a) (dst : bs[j']? = some b) (fits : aligns a b = true)
      (rest : Descends aligns as bs i' j' xs) : Descends aligns as bs i j ((a, b) :: xs)

/-- Pairs below some places are below all later ones. -/
lemma Descends.mono (h : Descends aligns as bs i j xs) (hi : i ≤ i') (hj : j ≤ j') :
    Descends aligns as bs i' j' xs := by
  cases h with
  | nil => exact .nil i' j'
  | cons hi' hj' ha hb hfits hrest =>
    exact .cons (hi'.trans_le hi) (hj'.trans_le hj) ha hb hfits hrest

/-- Without its first pair, an alignment lies in front of the last places. -/
lemma Descends.tail (h : Descends aligns as bs (i + 1) (j + 1) xs) :
    Descends aligns as bs i j xs.tail := by
  cases h with
  | nil => exact .nil i j
  | cons hi hj _ _ _ hrest => exact hrest.mono (Nat.le_of_lt_succ hi) (Nat.le_of_lt_succ hj)

/-- An alignment that does not pair the entries at the last places leaves one of them out. -/
lemma Descends.skip (h : Descends aligns as bs (i + 1) (j + 1) xs)
    (hfits : fits aligns as bs i j = false) :
    Descends aligns as bs i (j + 1) xs ∨ Descends aligns as bs (i + 1) j xs := by
  cases h with
  | nil => exact .inl (.nil i (j + 1))
  | @cons _ _ i' j' a b xs hi hj ha hb hab hrest =>
    rcases (Nat.le_of_lt_succ hi).lt_or_eq with hi' | rfl
    · exact .inl (.cons hi' hj ha hb hab hrest)
    · rcases (Nat.le_of_lt_succ hj).lt_or_eq with hj' | rfl
      · exact .inr (.cons hi hj' ha hb hab hrest)
      · simp [fits, ha, hb, hab] at hfits

/-- The lengths of the alignments of the first `i` and the first `j` entries. -/
def lengthsOf (aligns : α → β → Bool) (as : Array α) (bs : Array β) (i j : ℕ) : Set ℕ :=
  {n | ∃ xs, Descends aligns as bs i j xs ∧ xs.length = n}

/-- If nothing of the first sequence is left, nothing can be aligned. -/
lemma isGreatest_zero_left (j : ℕ) : IsGreatest (lengthsOf aligns as bs 0 j) 0 := by
  refine ⟨⟨[], .nil 0 j, rfl⟩, ?_⟩
  rintro n ⟨xs, hxs, rfl⟩
  cases hxs with
  | nil => exact le_rfl
  | cons hi => omega

/-- If nothing of the second sequence is left, nothing can be aligned. -/
lemma isGreatest_zero_right (i : ℕ) : IsGreatest (lengthsOf aligns as bs i 0) 0 := by
  refine ⟨⟨[], .nil i 0, rfl⟩, ?_⟩
  rintro n ⟨xs, hxs, rfl⟩
  cases hxs with
  | nil => exact le_rfl
  | cons _ hj => omega

/-- If the entries at the last places fit, a longest alignment of what is in front of them and that
pair make a longest alignment. -/
lemma isGreatest_succ_of_fits {n : ℕ} (h : IsGreatest (lengthsOf aligns as bs i j) n)
    (hfits : fits aligns as bs i j = true) :
    IsGreatest (lengthsOf aligns as bs (i + 1) (j + 1)) (n + 1) := by
  constructor
  · obtain ⟨xs, hxs, rfl⟩ := h.1
    unfold fits at hfits
    split at hfits
    · next a b ha hb => exact ⟨_, .cons i.lt_succ_self j.lt_succ_self ha hb hfits hxs, rfl⟩
    · cases hfits
  · rintro m ⟨xs, hxs, rfl⟩
    have htail := h.2 ⟨xs.tail, hxs.tail, rfl⟩
    rw [List.length_tail] at htail
    omega

/-- If they do not, one of them can be left out. -/
lemma isGreatest_succ_of_not_fits {m n : ℕ} (hm : IsGreatest (lengthsOf aligns as bs i (j + 1)) m)
    (hn : IsGreatest (lengthsOf aligns as bs (i + 1) j) n) (hfits : fits aligns as bs i j = false) :
    IsGreatest (lengthsOf aligns as bs (i + 1) (j + 1)) (max m n) := by
  constructor
  · rcases max_choice m n with hmax | hmax
    · obtain ⟨xs, hxs, hlen⟩ := hm.1
      exact ⟨xs, hxs.mono i.le_succ le_rfl, hlen.trans hmax.symm⟩
    · obtain ⟨xs, hxs, hlen⟩ := hn.1
      exact ⟨xs, hxs.mono le_rfl j.le_succ, hlen.trans hmax.symm⟩
  · rintro k ⟨xs, hxs, rfl⟩
    rcases hxs.skip hfits with hxs | hxs
    · exact le_max_of_le_left (hm.2 ⟨xs, hxs, rfl⟩)
    · exact le_max_of_le_right (hn.2 ⟨xs, hxs, rfl⟩)

/-! ### The table and the walk through it -/

/-- **The table contains the lengths of longest alignments** of all beginnings.

**Proof sketch.** Induction along the order in which the table is filled.  At a border there is
nothing to align.  Elsewhere, if the last entries fit, they are aligned and the rest as far as
possible; otherwise one of them is left out, and the better of the two ways is taken. -/
theorem isGreatest_lengths (hi : i ≤ as.size) (hj : j ≤ bs.size) :
    IsGreatest (lengthsOf aligns as bs i j) ((lengths aligns as bs).get i j) := by
  refine Grid.build_induction (P := fun i j n => IsGreatest (lengthsOf aligns as bs i j) n)
    (fun f i j hi hj before => ?_) i (Nat.lt_succ_of_le hi) j (Nat.lt_succ_of_le hj)
  cases i with
  | zero => exact isGreatest_zero_left j
  | succ i =>
    cases j with
    | zero => exact isGreatest_zero_right (i + 1)
    | succ j =>
      dsimp only
      split
      · next hfits =>
        exact isGreatest_succ_of_fits (before i j (by omega) (by omega) (by omega)) hfits
      · next hfits =>
        refine isGreatest_succ_of_not_fits (before i (j + 1) (by omega) hj (by omega))
          (before (i + 1) j hi (by omega) (by omega)) ?_
        exact Bool.eq_false_iff.2 hfits

/-- A cell whose entries fit. -/
lemma get_lengths_of_fits (hi : i < as.size) (hj : j < bs.size)
    (hfits : fits aligns as bs i j = true) :
    (lengths aligns as bs).get (i + 1) (j + 1) = (lengths aligns as bs).get i j + 1 :=
  (isGreatest_lengths hi hj).unique
    (isGreatest_succ_of_fits (isGreatest_lengths hi.le hj.le) hfits)

/-- A cell whose entries do not fit. -/
lemma get_lengths_of_not_fits (hi : i < as.size) (hj : j < bs.size)
    (hfits : fits aligns as bs i j = false) :
    (lengths aligns as bs).get (i + 1) (j + 1) =
      max ((lengths aligns as bs).get i (j + 1)) ((lengths aligns as bs).get (i + 1) j) :=
  (isGreatest_lengths hi hj).unique
    (isGreatest_succ_of_not_fits (isGreatest_lengths hi.le hj) (isGreatest_lengths hi hj.le) hfits)

/-- The walk collects pairs at falling places, whatever the table contains. -/
lemma descends_trace (table : Grid ℕ) (i j : ℕ) :
    Descends aligns as bs i j (trace aligns as bs table i j) := by
  fun_induction trace aligns as bs table i j with
  | case1 j => exact .nil 0 j
  | case2 i => exact .nil i 0
  | case3 i j a b hb ha hcond ih =>
    exact .cons i.lt_succ_self j.lt_succ_self ha hb (Bool.and_eq_true_iff.1 hcond).1 ih
  | case4 i j a b hb ha _ _ ih => exact ih.mono i.le_succ le_rfl
  | case5 i j a b hb ha _ _ ih => exact ih.mono le_rfl j.le_succ
  | case6 i j => exact .nil (i + 1) (j + 1)

/-- Where the walk does not take a pair, the entries do not fit: if they did, the cell would be one
more than the one diagonally before it. -/
lemma not_fits_of_passed {a : α} {b : β} (hi : i < as.size) (hj : j < bs.size)
    (ha : as[i]? = some a) (hb : bs[j]? = some b)
    (hcond : ¬(aligns a b && (lengths aligns as bs).get (i + 1) (j + 1) ==
      (lengths aligns as bs).get i j + 1) = true) : fits aligns as bs i j = false := by
  refine Bool.eq_false_iff.2 fun hfits => hcond ?_
  have hcell := get_lengths_of_fits hi hj hfits
  rw [fits, ha, hb] at hfits
  rw [Bool.and_eq_true, beq_iff_eq]
  exact ⟨hfits, hcell⟩

/-- **The walk through the table of lengths finds as many pairs as the cell it starts from says.**

**Proof sketch.** Induction along the walk.  Where the entries fit, the cell is one more than the
cell diagonally before it, and the walk goes there.  Where they do not, the cell is the larger one
of its two neighbours, and the walk goes to that one, whichever it prefers if they are the same. -/
lemma length_trace_lengths (hi : i ≤ as.size) (hj : j ≤ bs.size) :
    (trace aligns as bs (lengths aligns as bs) i j).length = (lengths aligns as bs).get i j := by
  fun_induction trace aligns as bs (lengths aligns as bs) i j with
  | case1 j => exact (isGreatest_zero_left j).unique (isGreatest_lengths hi hj)
  | case2 i => exact (isGreatest_zero_right i).unique (isGreatest_lengths hi hj)
  | case3 i j a b hb ha hcond ih =>
    rw [List.length_cons, ih (by omega) (by omega)]
    exact (beq_iff_eq.1 (Bool.and_eq_true_iff.1 hcond).2).symm
  | case4 i j a b hb ha hcond hle ih =>
    rw [ih (by omega) hj, get_lengths_of_not_fits hi hj (not_fits_of_passed hi hj ha hb hcond),
      max_eq_left hle]
  | case5 i j a b hb ha hcond hle ih =>
    rw [ih hi (by omega), get_lengths_of_not_fits hi hj (not_fits_of_passed hi hj ha hb hcond),
      max_eq_right (Nat.le_of_not_le hle)]
  | case6 i j hnone =>
    exact absurd (Array.getElem?_eq_getElem hj) (hnone _ _ (Array.getElem?_eq_getElem hi))

end Places

/-! ### Lists without repetitions -/

section Lists

variable [DecidableEq α] [DecidableEq β] {as : List α} {bs : List β} {xs : List (α × β)}

/-- The pairs of the list are entries that fit, and from pair to pair the places in the two lists
become larger. -/
structure IsAlignment (aligns : α → β → Bool) (as : List α) (bs : List β) (xs : List (α × β)) :
    Prop where
  entries : ∀ x ∈ xs, x.1 ∈ as ∧ x.2 ∈ bs
  fits : ∀ x ∈ xs, aligns x.1 x.2 = true
  ascends : xs.Pairwise fun x y => as.idxOf x.1 < as.idxOf y.1 ∧ bs.idxOf x.2 < bs.idxOf y.2

/-- An alignment such that no other one has more pairs. -/
structure IsLongest (aligns : α → β → Bool) (as : List α) (bs : List β) (xs : List (α × β)) : Prop
    extends IsAlignment aligns as bs xs where
  longest : ∀ ys, IsAlignment aligns as bs ys → ys.length ≤ xs.length

/-- An alignment read backwards has falling places. -/
lemma IsAlignment.descends {i j : ℕ} (h : IsAlignment aligns as bs xs.reverse)
    (hxs : ∀ x ∈ xs, as.idxOf x.1 < i ∧ bs.idxOf x.2 < j) :
    Descends aligns as.toArray bs.toArray i j xs := by
  induction xs generalizing i j with
  | nil => exact .nil i j
  | cons x xs ih =>
    have hascends := List.pairwise_cons.1 (List.pairwise_reverse.1 h.ascends)
    obtain ⟨ha, hb⟩ := h.entries x (by simp)
    obtain ⟨hi, hj⟩ := hxs x (List.mem_cons_self ..)
    have hrest : IsAlignment aligns as bs xs.reverse :=
      ⟨fun y hy => h.entries y (by simp_all), fun y hy => h.fits y (by simp_all),
        List.pairwise_reverse.2 hascends.2⟩
    exact .cons hi hj (by simp [List.getElem?_idxOf ha]) (by simp [List.getElem?_idxOf hb])
      (h.fits x (by simp)) (ih hrest hascends.1)

/-- In a list without repetitions the place of an entry is its only one. -/
lemma idxOf_eq_of_getElem? {γ : Type u} [DecidableEq γ] {l : List γ} (hl : l.Nodup) {i : ℕ} {x : γ}
    (h : l.toArray[i]? = some x) : l.idxOf x = i := by
  rw [List.getElem?_toArray] at h
  obtain ⟨hi, rfl⟩ := List.getElem?_eq_some_iff.1 h
  exact hl.idxOf_getElem i hi

/-- Pairs with falling places are an alignment read backwards, if no entry is repeated.

**Proof sketch.** Induction on the list.  Entries are not repeated, so their places are the first
places where they occur.  The first pair has larger places than all others, and so it is the last
one of the reversed list. -/
lemma Descends.isAlignment {i j : ℕ} (h : Descends aligns as.toArray bs.toArray i j xs)
    (has : as.Nodup) (hbs : bs.Nodup) :
    IsAlignment aligns as bs xs.reverse ∧ ∀ x ∈ xs, as.idxOf x.1 < i ∧ bs.idxOf x.2 < j := by
  induction h with
  | nil i j => exact ⟨⟨by simp, by simp, by simp⟩, by simp⟩
  | @cons i j i' j' a b xs hi hj ha hb hab hrest ih =>
    obtain ⟨⟨hentries, hfits, hascends⟩, hlower⟩ := ih
    -- entries do not recur, so an entry stands at the first place where it is found
    have hai := idxOf_eq_of_getElem? has ha
    have hbj := idxOf_eq_of_getElem? hbs hb
    simp only [List.mem_reverse] at hentries hfits
    rw [List.pairwise_reverse] at hascends
    refine ⟨⟨?_, ?_, ?_⟩, ?_⟩
    · simp only [List.mem_reverse, List.forall_mem_cons]
      exact ⟨⟨List.mem_toArray.1 (Array.mem_of_getElem? ha),
        List.mem_toArray.1 (Array.mem_of_getElem? hb)⟩, hentries⟩
    · simp only [List.mem_reverse, List.forall_mem_cons]
      exact ⟨hab, hfits⟩
    · rw [List.pairwise_reverse, List.pairwise_cons, hai, hbj]
      exact ⟨hlower, hascends⟩
    · rw [List.forall_mem_cons, hai, hbj]
      exact ⟨⟨hi, hj⟩, fun x hx => ⟨(hlower x hx).1.trans hi, (hlower x hx).2.trans hj⟩⟩

/-- **The alignment that is found is a longest one**, last pair first.

**Proof sketch.** The trace through the table descends, so that it is an alignment read backwards,
and it has the length that the table holds, which is the greatest one. -/
theorem isLongest_longest (aligns : α → β → Bool) (has : as.Nodup) (hbs : bs.Nodup) :
    IsLongest aligns as bs (longest aligns as bs).reverse := by
  have hgreatest : IsGreatest (lengthsOf aligns as.toArray bs.toArray as.length bs.length)
      (longest aligns as bs).length := by
    rw [longest, length_trace_lengths le_rfl le_rfl]
    exact isGreatest_lengths le_rfl le_rfl
  refine ⟨((descends_trace _ _ _).isAlignment has hbs).1, fun ys hys => ?_⟩
  rw [← ys.reverse_reverse] at hys
  have hdescends := hys.descends fun x hx => by
    obtain ⟨ha, hb⟩ := hys.entries x (List.mem_reverse.2 hx)
    exact ⟨List.idxOf_lt_length_iff.2 ha, List.idxOf_lt_length_iff.2 hb⟩
  have hle := hgreatest.2 ⟨ys.reverse, hdescends, rfl⟩
  rwa [List.length_reverse] at hle ⊢

end Lists

end Alignment

/-- Nodes may be aligned exactly if they are of the same kind and are linked or both free. -/
lemma Realign.aligns_iff {task : Task} {p : Pairing} {a b : NodeId} :
    aligns task p a b = true ↔ task.src.sameKind task.dst a b = true ∧
      (p.dst? a = some b ∨ (p.dst? a = none ∧ p.src? b = none)) := by
  rw [aligns, Bool.and_eq_true, Bool.or_eq_true, Pairing.has_iff, Pairing.bothFree_iff]

/-- **The alignment that is found is a longest one.**  Whatever the two trees, the pairing and the
lists of nodes without repetitions are: the pairs that are found consist of entries of the same kind
that are linked to each other or both free; from pair to pair their places in the two lists fall;
and no sequence of such pairs whose places rise in both lists has more pairs.

**Proof sketch.** The pairs found are a longest alignment read backwards, by `isLongest_longest`.
That two entries may be aligned means that they are of one kind and linked to each other or both
free. -/
theorem longest_alignment_is_longest (task : Task) (p : Pairing) (as bs : List NodeId)
    (has : as.Nodup) (hbs : bs.Nodup) :
    let found := Alignment.longest (Realign.aligns task p) as bs
    let fits (x : NodeId × NodeId) : Prop := x.1 ∈ as ∧ x.2 ∈ bs ∧
      task.src.sameKind task.dst x.1 x.2 = true ∧
      (p.dst? x.1 = some x.2 ∨ (p.dst? x.1 = none ∧ p.src? x.2 = none))
    (∀ x ∈ found, fits x) ∧
      (found.Pairwise fun x y => as.idxOf y.1 < as.idxOf x.1 ∧ bs.idxOf y.2 < bs.idxOf x.2) ∧
      ∀ xs : List (NodeId × NodeId), (∀ x ∈ xs, fits x) →
        (xs.Pairwise fun x y => as.idxOf x.1 < as.idxOf y.1 ∧ bs.idxOf x.2 < bs.idxOf y.2) →
        xs.length ≤ found.length := by
  intro found fits
  obtain ⟨⟨hentries, hfits, hascends⟩, hlongest⟩ :=
    Alignment.isLongest_longest (Realign.aligns task p) has hbs
  refine ⟨fun x hx => ?_, List.pairwise_reverse.1 hascends, fun xs hxs hpairs => ?_⟩
  · obtain ⟨ha, hb⟩ := hentries x (List.mem_reverse.2 hx)
    exact ⟨ha, hb, Realign.aligns_iff.1 (hfits x (List.mem_reverse.2 hx))⟩
  · have hle := hlongest xs ⟨fun x hx => ⟨(hxs x hx).1, (hxs x hx).2.1⟩,
      fun x hx => Realign.aligns_iff.2 (hxs x hx).2.2, hpairs⟩
    rwa [List.length_reverse] at hle

/-- Two trees of six nodes that differ in the order of three leaves.  The last of these in the
source tree is linked to the second in the destination tree, so it is aligned with that one or not
at all; five of the six nodes can be aligned, and so many are. -/
theorem alignment_of_linked_leaf :
    let src : Tree := .ofContents ⟨(⟨0⟩, "r"), .node (⟨1⟩, "a") (.node (⟨2⟩, "1") .nil
      (.node (⟨3⟩, "2") .nil (.leaf (⟨2⟩, "5")))) (.leaf (⟨4⟩, "b"))⟩
    let dst : Tree := .ofContents ⟨(⟨0⟩, "r"), .node (⟨1⟩, "a") (.node (⟨2⟩, "3") .nil
      (.node (⟨2⟩, "6") .nil (.leaf (⟨3⟩, "4")))) (.leaf (⟨4⟩, "b"))⟩
    let task : Task := { src, dst }
    let p := (Pairing.empty.insert 2 2).insert 5 4
    let nodes : List NodeId := [3, 4, 5, 2, 6, 1]
    let found := Alignment.longest (Realign.aligns task p) nodes nodes
    nodes.Nodup ∧ 5 ≤ found.length ∧ ∀ x ∈ found, x.1 = 5 → x.2 = 4 := by
  intro src dst task p nodes found
  have hnodes : nodes.Nodup := by decide
  obtain ⟨hfits, -, hlongest⟩ := longest_alignment_is_longest task p nodes nodes hnodes hnodes
  refine ⟨hnodes, ?_, fun x hx hsrc => ?_⟩
  · exact hlongest [(3, 3), (5, 4), (2, 2), (6, 6), (1, 1)] (by decide +kernel) (by decide +kernel)
  · have hlinked : p.dst? x.1 = some 4 := by
      rw [hsrc]
      decide +kernel
    rcases (hfits x hx).2.2.2 with h | ⟨h, -⟩
    · exact Option.some.inj (h.symm.trans hlinked)
    · rw [hlinked] at h
      cases h

end TreeMatching
