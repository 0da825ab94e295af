import Mathlib.Algebra.BigOperators.Ring.Finset
import Mathlib.Algebra.Order.BigOperators.Group.Finset
import Mathlib.Data.Char
import Mathlib.Data.List.Lex
import Mathlib.Data.Multiset.UnionInter
import Mathlib.Tactic.Linarith
import TreeMatching.Label.Grams
import TreeMatching.Proofs.ExactShares

set_option autoImplicit false

/-!
# How far the pieces of two texts agree

The pieces that two texts have in common are counted by going through the two sorted lists of pieces
side by side.  The count is the size of the intersection of the two multisets of pieces.  So the
similarity of two different texts tells how far these multisets differ: it is one less the share of
the pieces that have no counterpart.

## Main results

* `countCommon_eq_card_inter` — going through two sorted lists counts the common entries.
* `GramMeasure.precedes_iff` — pieces are sorted by the order of lists of characters.
* `GramMeasure.length_grams` — how many pieces a text has.
* `GramMeasure.agreement_eq` — the agreement in terms of the multisets of pieces.
* `two_mul_card_inter_eq_iff`, `sum_abs_count_sub_count` — what two multisets have in common, and
  what they do not.
* `gram_similarity_measures_common_pieces` — the results together.
-/

namespace TreeMatching

/-! ### Common entries of sorted lists -/

/-- What comes before the first entry of a sorted list does not occur in it. -/
lemma notMem_of_lt_head {α : Type} [LinearOrder α] {x y : α} {ys : List α} (hlt : x < y)
    (hys : (y :: ys).Pairwise (· ≤ ·)) : x ∉ y :: ys := by
  intro hmem
  rcases List.mem_cons.1 hmem with rfl | hmem
  · exact lt_irrefl _ hlt
  · exact (hlt.trans_le (List.rel_of_pairwise_cons hys hmem)).false

/-- **Going through two sorted lists side by side counts the common entries**, each as often as it
occurs in both.

**Proof sketch.** Induction along the two lists.  The smaller one of the two heads is smaller than
everything in the other list, so it is not common; two equal heads are a common entry, and are
dropped together. -/
theorem countCommon_eq_card_inter {α : Type} [LinearOrder α] [DecidableEq α] [DecidableLT α]
    {xs ys : List α} (hxs : xs.Pairwise (· ≤ ·)) (hys : ys.Pairwise (· ≤ ·)) :
    countCommon xs ys = ((xs : Multiset α) ∩ ys).card := by
  fun_induction countCommon xs ys with
  | case1 ys => simp
  | case2 xs => simp
  | case3 x xs y ys hlt ih =>
    have hx : x ∉ (↑(y :: ys) : Multiset α) := notMem_of_lt_head hlt hys
    rw [ih hxs.of_cons hys, ← Multiset.cons_coe x xs, Multiset.cons_inter_of_neg _ hx]
  | case4 x xs y ys _ hlt ih =>
    have hy : y ∉ (↑(x :: xs) : Multiset α) := notMem_of_lt_head hlt hxs
    rw [ih hxs hys.of_cons, ← Multiset.cons_coe y ys, Multiset.inter_comm _ (y ::ₘ _),
      Multiset.cons_inter_of_neg _ hy, Multiset.inter_comm]
  | case5 x xs y ys hxy hyx ih =>
    obtain rfl : x = y := le_antisymm (not_lt.1 hyx) (not_lt.1 hxy)
    rw [ih hxs.of_cons hys.of_cons, ← Multiset.cons_coe x xs, ← Multiset.cons_coe x ys,
      Multiset.cons_inter_of_pos _ (Multiset.mem_cons_self x _), Multiset.erase_cons_head,
      Multiset.card_cons]

/-! ### Multisets in common -/

section Multisets

variable {α : Type} [DecidableEq α] (A B : Multiset α)

/-- No more entries are common than there are on either side. -/
lemma two_mul_card_inter_le : 2 * (A ∩ B).card ≤ A.card + B.card := by
  have hA := Multiset.card_le_card (Multiset.inter_le_left : A ∩ B ≤ A)
  have hB := Multiset.card_le_card (Multiset.inter_le_right : A ∩ B ≤ B)
  omega

/-- All entries are common exactly if they are the same on both sides. -/
lemma two_mul_card_inter_eq_iff : 2 * (A ∩ B).card = A.card + B.card ↔ A = B := by
  constructor
  · intro h
    have hA := Multiset.card_le_card (Multiset.inter_le_left : A ∩ B ≤ A)
    have hB := Multiset.card_le_card (Multiset.inter_le_right : A ∩ B ≤ B)
    calc A = A ∩ B := (Multiset.eq_of_le_of_card_le Multiset.inter_le_left (by omega)).symm
      _ = B := Multiset.eq_of_le_of_card_le Multiset.inter_le_right (by omega)
  · rintro rfl
    rw [show A ∩ A = A from inf_idem A]
    omega

/-- **The differences of multiplicities add up to what two multisets do not have in common.**

**Proof sketch.** For each piece, the difference of two multiplicities is their sum less twice the
smaller one.  Multiplicities add up to the number of elements. -/
lemma sum_abs_count_sub_count :
    ∑ g ∈ (A ∪ B).toFinset, |(A.count g : ℚ) - B.count g| =
      A.card + B.card - 2 * (A ∩ B).card := by
  have hsum : ∀ C : Multiset α, C ≤ A ∪ B → ∑ g ∈ (A ∪ B).toFinset, (C.count g : ℚ) = C.card := by
    intro C hC
    rw [← Nat.cast_sum, Multiset.sum_count_eq_card fun g hg =>
      Multiset.mem_toFinset.2 (Multiset.mem_of_le hC hg)]
  -- a difference is the larger multiplicity less the smaller one
  have hterm : ∀ g, |(A.count g : ℚ) - B.count g| =
      A.count g + B.count g - 2 * ((A ∩ B).count g : ℚ) := by
    intro g
    have hdiff := max_sub_min_eq_abs (A.count g : ℚ) (B.count g)
    have htotal := max_add_min (A.count g : ℚ) (B.count g)
    rw [Multiset.count_inter, Nat.cast_min, abs_sub_comm]
    linarith
  have hinter : A ∩ B ≤ A ∪ B := Multiset.inter_le_left.trans Multiset.le_union_left
  rw [Finset.sum_congr rfl fun g _ => hterm g, Finset.sum_sub_distrib, Finset.sum_add_distrib,
    ← Finset.mul_sum, hsum A Multiset.le_union_left, hsum B Multiset.le_union_right, hsum _ hinter]

end Multisets

namespace GramMeasure

variable {m : GramMeasure} {a b : String}

/-! ### Sorted pieces -/

/-- Pieces are sorted by the order of lists of characters. -/
lemma precedes_iff {u v : List Char} : precedes u v = true ↔ ¬ v < u := by
  fun_induction precedes u v with
  | case1 v => simp
  | case2 c u => simp
  | case3 c u d v ih =>
    rw [Bool.or_eq_true, Bool.and_eq_true, decide_eq_true_iff, beq_iff_eq, ih,
      List.cons_lt_cons_iff]
    change c < d ∨ c = d ∧ ¬ v < u ↔ _
    rcases lt_trichotomy c d with h | rfl | h
    · simp [h, h.not_gt, h.ne']
    · simp
    · simp [h, h.not_gt, h.ne']

/-- Sorted pieces are in order. -/
lemma pairwise_sortGrams (gs : List (List Char)) : (sortGrams gs).Pairwise (· ≤ ·) := by
  have hle : ∀ u v, precedes u v = true ↔ u ≤ v := fun u v => precedes_iff.trans not_lt
  have hsorted : (sortGrams gs).Pairwise fun u v => precedes u v = true :=
    List.pairwise_mergeSort
      (fun u v w huv hvw => (hle u w).2 (((hle u v).1 huv).trans ((hle v w).1 hvw)))
      (fun u v => by
        rw [Bool.or_eq_true, hle, hle]
        exact le_total u v) gs
  exact hsorted.imp (hle _ _).1

/-- Sorting keeps the pieces. -/
lemma coe_sortGrams (gs : List (List Char)) : (sortGrams gs : Multiset (List Char)) = gs :=
  Multiset.coe_eq_coe.2 (List.mergeSort_perm ..)

/-- The common pieces are those in the intersection of the two multisets. -/
lemma countCommon_sortGrams (gs hs : List (List Char)) :
    countCommon (sortGrams gs) (sortGrams hs) = ((gs : Multiset (List Char)) ∩ hs).card := by
  rw [← coe_sortGrams gs, ← coe_sortGrams hs]
  exact countCommon_eq_card_inter (pairwise_sortGrams gs) (pairwise_sortGrams hs)

/-! ### The agreement of two texts -/

/-- Every character that is looked at begins a piece, and so do the boundary marks before it. -/
lemma length_grams (m : GramMeasure) (label : String) :
    (m.grams label).length = min m.window label.length + (m.size - 1) := by
  have hsize := m.size_pos
  simp only [grams, runs, padded, List.length_map, List.length_range, List.length_append,
    List.length_replicate, List.length_take, String.length_toList]
  omega

/-- Two different texts have pieces. -/
lemma length_grams_add_pos (m : GramMeasure) (hab : a ≠ b) :
    0 < (m.grams a).length + (m.grams b).length := by
  have hwindow := m.window_pos
  have hlength : 0 < a.length ∨ 0 < b.length := by
    by_contra hempty
    rw [not_or, Nat.not_lt, Nat.not_lt, Nat.le_zero, Nat.le_zero] at hempty
    exact hab ((String.length_eq_zero_iff.1 hempty.1).trans
      (String.length_eq_zero_iff.1 hempty.2).symm)
  rw [length_grams, length_grams]
  omega

/-- The agreement in terms of the multisets of pieces. -/
lemma agreement_eq (m : GramMeasure) (a b : String) :
    m.agreement a b = ⟨2 * ((m.grams a : Multiset (List Char)) ∩ m.grams b).card,
      (m.grams a).length + (m.grams b).length⟩ := by
  rw [agreement, countCommon_sortGrams, sortGrams, sortGrams, List.length_mergeSort,
    List.length_mergeSort]

/-- The agreement of two texts is symmetric. -/
lemma agreement_comm (m : GramMeasure) (a b : String) : m.agreement a b = m.agreement b a := by
  rw [agreement_eq, agreement_eq, Multiset.inter_comm, Nat.add_comm]

end GramMeasure

open GramMeasure in
/-- **The similarity of two different texts measures their common pieces.**  Going through the
sorted pieces counts the intersection of the two multisets of pieces.  There are pieces at all, and
at least twice as many as common ones, so the similarity is a quotient of these two numbers.  As an
exact number it is one less the sum of all differences of multiplicities, divided by the number of
pieces; it does not depend on the order of the texts, lies between zero and one, and is one exactly
if the two texts have the same pieces equally often.

**Proof sketch.** The sorted lists of pieces are merged, which counts the intersection.  Different
texts have pieces, so that the quotient is defined, and the rest is arithmetic of cardinalities: the
intersection has at most as many elements as either multiset, and as many as both only if they are
equal. -/
theorem gram_similarity_measures_common_pieces (m : GramMeasure) {a b : String} (hab : a ≠ b) :
    let A : Multiset (List Char) := m.grams a
    let B : Multiset (List Char) := m.grams b
    let common := countCommon (sortGrams (m.grams a)) (sortGrams (m.grams b))
    let total := (m.grams a).length + (m.grams b).length
    (common = (A ∩ B).card ∧ 0 < total ∧ 2 * common ≤ total) ∧
    (m.similarity a b = (m.agreement a b).value ∧ m.agreement a b = ⟨2 * common, total⟩) ∧
    (m.agreement a b).exact = 2 * common / total ∧
    (m.agreement a b).exact = 1 - (∑ g ∈ (A ∪ B).toFinset, |(A.count g : ℚ) - B.count g|) / total ∧
    (m.agreement a b = m.agreement b a ∧ m.similarity a b = m.similarity b a) ∧
    (0 ≤ (m.agreement a b).exact ∧ (m.agreement a b).exact ≤ 1) ∧
    ((m.agreement a b).exact = 1 ↔ A = B) := by
  intro A B common total
  have hcommon : common = (A ∩ B).card := countCommon_sortGrams ..
  have hpos : 0 < total := m.length_grams_add_pos hab
  have hle : 2 * common ≤ total := hcommon ▸ two_mul_card_inter_le A B
  have hagreement : m.agreement a b = ⟨2 * common, total⟩ := hcommon ▸ m.agreement_eq a b
  have hsimilarity : ∀ {x y : String}, x ≠ y → m.similarity x y = (m.agreement x y).value :=
    fun h => if_neg h
  have hexact : (m.agreement a b).exact = 2 * common / total := by
    rw [hagreement, Share.exact_of_whole_pos hpos]
    push_cast
    rfl
  refine ⟨⟨hcommon, hpos, hle⟩, ⟨hsimilarity hab, hagreement⟩, hexact, ?_,
    ⟨m.agreement_comm a b, ?_⟩, ⟨Share.exact_nonneg, ?_⟩, ?_⟩
  · have htotal : (total : ℚ) = A.card + B.card := Nat.cast_add ..
    have hne : (total : ℚ) ≠ 0 := Nat.cast_ne_zero.2 hpos.ne'
    rw [hexact, sum_abs_count_sub_count, ← htotal, ← hcommon, sub_div, div_self hne]
    exact (sub_sub_cancel _ _).symm
  · rw [hsimilarity hab, hsimilarity hab.symm, m.agreement_comm]
  · rw [hagreement]
    exact Share.exact_le_one hle
  · rw [hagreement, Share.exact_eq_one_iff hpos]
    change 2 * common = total ↔ A = B
    rw [hcommon]
    exact two_mul_card_inter_eq_iff A B

/-- Of `aa` and `aaaa` three pieces are common, with the boundary marks around the texts: the piece
`aa` occurs once in the one text and three times in the other, and counts once. -/
theorem repeated_pieces_count_as_often_as_on_both_sides :
    let m := GramMeasure.bigrams
    let A : Multiset (List Char) := m.grams "aa"
    let B : Multiset (List Char) := m.grams "aaaa"
    "aa" ≠ "aaaa" ∧ (A ∩ B).card = 3 ∧ m.agreement "aa" "aaaa" = ⟨6, 8⟩ ∧
      (m.agreement "aa" "aaaa").exact =
        1 - (∑ g ∈ (A ∪ B).toFinset, |(A.count g : ℚ) - B.count g|) / (8 : ℕ) ∧
      (m.agreement "aa" "aaaa" = m.agreement "aaaa" "aa" ∧ (m.agreement "aa" "aaaa").exact ≤ 1) ∧
      ((m.agreement "aa" "aaaa").exact = 1 ↔ A = B) := by
  intro m A B
  have hne : "aa" ≠ "aaaa" := by decide
  have hcard : (A ∩ B).card = 3 := by decide +kernel
  have htotal : (m.grams "aa").length + (m.grams "aaaa").length = 8 := by decide +kernel
  obtain ⟨⟨hcommon, -⟩, ⟨-, hagreement⟩, -, hexact, ⟨hcomm, -⟩, ⟨-, hone⟩, hequal⟩ :=
    gram_similarity_measures_common_pieces m hne
  rw [hcommon, hcard, htotal] at hagreement
  rw [htotal] at hexact
  exact ⟨hne, hcard, hagreement, hexact, ⟨hcomm, hone⟩, hequal⟩

end TreeMatching
