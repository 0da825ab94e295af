import Mathlib.Algebra.BigOperators.Group.List.Basic
import Mathlib.Algebra.Order.BigOperators.Group.List
import Mathlib.Algebra.Order.Field.Basic
import Mathlib.Algebra.Order.Ring.Rat
import Mathlib.Data.Nat.Cast.Order.Field
import Mathlib.Tactic.Lemma
import Mathlib.Tactic.Linarith
import TreeMatching.Share

set_option autoImplicit false

/-!
# Shares as exact numbers

A share is a part of a whole.  Its floating point value is a rounded quotient; here it is read as
the quotient itself, with the same convention for an empty whole.

## Main definitions

* `Share.exact` — a share as a rational number.
* `Share.exactMean` — the mean of several shares as a rational number.

## Main results

* `Share.exact_le_exact` — shares are compared by multiplying crosswise.
* `Share.exact_eq_one_iff` — a share is one if the part is the whole.
* `Share.exactMean_eq_one_iff`, `Share.exactMean_eq_zero_iff` — when the mean is one, and when it is
  zero.
-/

namespace TreeMatching.Share

variable {s t : Share}

/-- The share as a rational number.  All of nothing counts as everything. -/
def exact (s : Share) : ℚ := if s.whole = 0 then 1 else s.part / s.whole

/-- The share of nothing is one. -/
lemma exact_of_whole_eq_zero (h : s.whole = 0) : s.exact = 1 := if_pos h

/-- The share of something is a quotient. -/
lemma exact_of_whole_pos (h : 0 < s.whole) : s.exact = s.part / s.whole := if_neg h.ne'

/-- Shares are not negative. -/
lemma exact_nonneg : 0 ≤ s.exact := by
  rw [exact]
  split
  · exact zero_le_one
  · exact div_nonneg (Nat.cast_nonneg _) (Nat.cast_nonneg _)

/-- A share is at most one if the part is not larger than the whole. -/
lemma exact_le_one (h : s.part ≤ s.whole) : s.exact ≤ 1 := by
  rw [exact]
  split
  · exact le_rfl
  · exact div_le_one_of_le₀ (Nat.cast_le.2 h) (Nat.cast_nonneg _)

/-- A share of something is one exactly if the part is the whole. -/
lemma exact_eq_one_iff (h : 0 < s.whole) : s.exact = 1 ↔ s.part = s.whole := by
  have hwhole : (s.whole : ℚ) ≠ 0 := Nat.cast_ne_zero.2 h.ne'
  rw [exact_of_whole_pos h, div_eq_one_iff_eq hwhole, Nat.cast_inj]

/-- A share of something is zero exactly if the part is. -/
lemma exact_eq_zero_iff (h : 0 < s.whole) : s.exact = 0 ↔ s.part = 0 := by
  have hwhole : (s.whole : ℚ) ≠ 0 := Nat.cast_ne_zero.2 h.ne'
  rw [exact_of_whole_pos h, div_eq_zero_iff, or_iff_left hwhole, Nat.cast_eq_zero]

/-- **Shares are compared by multiplying crosswise.**  This also holds if the second share is one of
nothing, because no part is larger than its whole. -/
lemma exact_le_exact (hpart : s.part ≤ s.whole) (hwhole : s.whole = 0 → t.whole = 0)
    (hcross : s.part * t.whole ≤ t.part * s.whole) : s.exact ≤ t.exact := by
  rcases Nat.eq_zero_or_pos t.whole with ht | ht
  · rw [exact_of_whole_eq_zero ht]
    exact exact_le_one hpart
  · have hs : 0 < s.whole := Nat.pos_of_ne_zero fun hs => ht.ne' (hwhole hs)
    rw [exact_of_whole_pos hs, exact_of_whole_pos ht,
      div_le_div_iff₀ (Nat.cast_pos.2 hs) (Nat.cast_pos.2 ht)]
    exact_mod_cast hcross

/-! ### Means -/

section Mean

variable {shares shares' : List Share}

/-- The mean of several shares as a rational number.  Without any shares it is one. -/
def exactMean (shares : List Share) : ℚ :=
  if shares.length = 0 then 1 else (shares.map exact).sum / shares.length

/-- The mean does not depend on the order of the shares. -/
lemma exactMean_perm (h : shares.Perm shares') : exactMean shares = exactMean shares' := by
  rw [exactMean, exactMean, h.length_eq, (h.map exact).sum_eq]

/-- The sum of shares is not negative. -/
lemma sum_exact_nonneg (shares : List Share) : 0 ≤ (shares.map exact).sum := by
  refine List.sum_nonneg fun x hx => ?_
  obtain ⟨s, -, rfl⟩ := List.mem_map.1 hx
  exact exact_nonneg

/-- The sum of shares is at most their number. -/
lemma sum_exact_le_length (h : ∀ s ∈ shares, s.part ≤ s.whole) :
    (shares.map exact).sum ≤ shares.length := by
  induction shares with
  | nil => exact le_rfl
  | cons s shares ih =>
    obtain ⟨hs, hshares⟩ := List.forall_mem_cons.1 h
    rw [List.map_cons, List.sum_cons, List.length_cons, Nat.cast_succ, add_comm]
    exact add_le_add (ih hshares) (exact_le_one hs)

/-- The sum of shares is zero exactly if all of them are. -/
lemma sum_exact_eq_zero_iff (hpos : ∀ s ∈ shares, 0 < s.whole) :
    (shares.map exact).sum = 0 ↔ ∀ s ∈ shares, s.part = 0 := by
  induction shares with
  | nil => simp
  | cons s shares ih =>
    obtain ⟨hs, hshares⟩ := List.forall_mem_cons.1 hpos
    rw [List.forall_mem_cons, ← ih hshares, ← exact_eq_zero_iff hs, List.map_cons, List.sum_cons,
      add_eq_zero_iff_of_nonneg exact_nonneg (sum_exact_nonneg shares)]

/-- The sum of shares is their number exactly if all of them are one.  A share below one cannot be
made up for by the others. -/
lemma sum_exact_eq_length_iff (hpos : ∀ s ∈ shares, 0 < s.whole)
    (hle : ∀ s ∈ shares, s.part ≤ s.whole) :
    (shares.map exact).sum = shares.length ↔ ∀ s ∈ shares, s.part = s.whole := by
  induction shares with
  | nil => simp
  | cons s shares ih =>
    obtain ⟨hs, hshares⟩ := List.forall_mem_cons.1 hpos
    obtain ⟨hs', hshares'⟩ := List.forall_mem_cons.1 hle
    have hle₁ := exact_le_one hs'
    have hle₂ := sum_exact_le_length hshares'
    rw [List.forall_mem_cons, ← ih hshares hshares', ← exact_eq_one_iff hs, List.map_cons,
      List.sum_cons, List.length_cons, Nat.cast_succ]
    constructor
    · intro h
      constructor <;> linarith
    · rintro ⟨h₁, h₂⟩
      linarith

/-- The mean of shares is not negative. -/
lemma exactMean_nonneg : 0 ≤ exactMean shares := by
  rw [exactMean]
  split
  · exact zero_le_one
  · exact div_nonneg (sum_exact_nonneg shares) (Nat.cast_nonneg _)

/-- The mean of shares is at most one. -/
lemma exactMean_le_one (h : ∀ s ∈ shares, s.part ≤ s.whole) : exactMean shares ≤ 1 := by
  rw [exactMean]
  split
  · exact le_rfl
  · exact div_le_one_of_le₀ (sum_exact_le_length h) (Nat.cast_nonneg _)

/-- **The mean is one exactly if all shares are.** -/
lemma exactMean_eq_one_iff (hpos : ∀ s ∈ shares, 0 < s.whole)
    (hle : ∀ s ∈ shares, s.part ≤ s.whole) :
    exactMean shares = 1 ↔ ∀ s ∈ shares, s.part = s.whole := by
  rw [exactMean]
  split
  · next hnil =>
    rw [List.eq_nil_of_length_eq_zero hnil]
    simp
  · next hnil =>
    rw [div_eq_one_iff_eq (Nat.cast_ne_zero.2 hnil), sum_exact_eq_length_iff hpos hle]

/-- **The mean is zero exactly if all shares are**, provided that there are any. -/
lemma exactMean_eq_zero_iff (hne : shares ≠ []) (hpos : ∀ s ∈ shares, 0 < s.whole) :
    exactMean shares = 0 ↔ ∀ s ∈ shares, s.part = 0 := by
  have hlength : shares.length ≠ 0 := fun h => hne (List.eq_nil_of_length_eq_zero h)
  rw [exactMean, if_neg hlength, div_eq_zero_iff, or_iff_left (Nat.cast_ne_zero.2 hlength),
    sum_exact_eq_zero_iff hpos]

end Mean

end TreeMatching.Share
