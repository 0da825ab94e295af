import Mathlib.Data.List.Basic
import Mathlib.Tactic.Lemma
import TreeMatching.Grid

set_option autoImplicit false

/-!
# Tables of dynamic programs

A table is filled cell by cell, each cell from cells filled before it.  Whatever follows for a cell
from the same for the cells before it therefore holds for all cells.

## Main definitions

* `Grid.HasShape` — the table has the given numbers of rows and columns.

## Main results

* `Grid.HasShape.get_set` — changing a cell changes that cell only.
* `Grid.build_induction` — induction along the order in which a table is filled.
* `Grid.build_congr` — a table depends on what is computed for its own cells.
* `Grid.HasShape.get_foldl_foldl_set` — changing some cells of some rows.
-/

namespace TreeMatching

universe u v

/-! ### Loops -/

/-- What every round of a counting loop carries on holds after the loop. -/
lemma foldl_range_induction {σ : Type u} {I : ℕ → σ → Prop} {f : σ → ℕ → σ} {n : ℕ} {s : σ}
    (hs : I 0 s) (step : ∀ k < n, ∀ s, I k s → I (k + 1) (f s k)) :
    I n ((List.range n).foldl f s) := by
  induction n with
  | zero => exact hs
  | succ n ih =>
    rw [List.range_succ, List.foldl_append]
    exact step n (Nat.lt_succ_self n) _ (ih fun k hk => step k (Nat.lt_succ_of_lt hk))

/-- What every round of a loop carries on, knowing the items before and behind its own, holds after
the loop. -/
lemma foldl_prefix_induction {α : Type u} {σ : Type v} {I : List α → σ → Prop} {f : σ → α → σ}
    {items : List α} {s : σ} (hs : I [] s)
    (step : ∀ done x rest s, items = done ++ x :: rest → I done s → I (done ++ [x]) (f s x)) :
    I items (items.foldl f s) := by
  have hrun : ∀ rest done s, items = done ++ rest → I done s → I items (rest.foldl f s) := by
    intro rest
    induction rest with
    | nil =>
      rintro done s hsplit hdone
      rwa [hsplit, List.append_nil]
    | cons x rest ih =>
      intro done s hsplit hdone
      exact ih (done ++ [x]) (f s x) (by rw [hsplit, List.append_assoc]; rfl)
        (step done x rest s hsplit hdone)
  exact hrun items [] s rfl hs

namespace Grid

variable {κ : Type u} {g : Grid κ} {rows width i j : ℕ} {x : κ}

/-- The table has the given numbers of rows and columns. -/
structure HasShape (g : Grid κ) (rows width : ℕ) : Prop where
  width_eq : g.width = width
  size_eq : g.cells.size = rows * width

/-- A grid that is filled has the given shape. -/
lemma hasShape_fill (rows width : ℕ) (blank : κ) : (fill rows width blank).HasShape rows width :=
  ⟨rfl, by simp [fill]⟩

/-- Writing a cell does not change the shape. -/
lemma HasShape.set (h : g.HasShape rows width) : (g.set i j x).HasShape rows width := by
  unfold Grid.set
  split
  · exact ⟨h.width_eq, by simp [h.size_eq]⟩
  · exact h

/-- The place of a cell determines its row and column. -/
lemma index_inj {w i j i' j' : ℕ} (hj : j < w) (hj' : j' < w)
    (h : i * w + j = i' * w + j') : i = i' ∧ j = j' := by
  have hw : 0 < w := Nat.zero_lt_of_lt hj
  have hdiv := congrArg (· / w) h
  have hmod := congrArg (· % w) h
  simp only [Nat.mul_comm _ w, Nat.mul_add_div hw, Nat.div_eq_of_lt hj, Nat.div_eq_of_lt hj',
    Nat.add_zero, Nat.mul_add_mod, Nat.mod_eq_of_lt hj, Nat.mod_eq_of_lt hj'] at hdiv hmod
  exact ⟨hdiv, hmod⟩

/-- **Changing a cell changes that cell only.**

**Proof sketch.** The cell is stored at the index `i * width + j`, which is within bounds, and two
places within the width have the same index only if they are equal. -/
lemma HasShape.get_set (h : g.HasShape rows width) (hi : i < rows) (hj : j < width) (i' j' : ℕ) :
    (g.set i j x).get i' j' = if i' = i ∧ j' = j then x else g.get i' j' := by
  have hin : i * width + j < g.cells.size := by
    rw [h.size_eq]
    calc i * width + j < i * width + width := Nat.add_lt_add_left hj _
      _ = (i + 1) * width := (Nat.succ_mul i width).symm
      _ ≤ rows * width := Nat.mul_le_mul_right width hi
  simp only [Grid.set, Grid.get, h.width_eq, hj, ↓reduceIte]
  by_cases hj' : j' < width
  · simp only [hj', ↓reduceIte, Array.getD_eq_getD_getElem?]
    by_cases hsame : i' = i ∧ j' = j
    · rw [if_pos hsame, hsame.1, hsame.2, Array.getElem?_setIfInBounds_self, if_pos hin,
        Option.getD_some]
    · rw [if_neg hsame, Array.getElem?_setIfInBounds_ne]
      intro hindex
      obtain ⟨h1, h2⟩ := index_inj hj hj' hindex
      exact hsame ⟨h1.symm, h2.symm⟩
  · have hne : ¬(i' = i ∧ j' = j) := fun hsame => hj' (hsame.2 ▸ hj)
    simp only [hj', ↓reduceIte, hne]

/-- **Induction along the order in which a table is filled.**  If a cell has a property whenever the
cells before it, in its own row or in rows above, have it, then all cells of the table have it.

**Proof sketch.** Row by row, and within a row from left to right.  When a cell is filled, the rows
above and the cells to the left have the property, so `step` applies; filling it changes no other
cell. -/
theorem build_induction {blank : κ} {cell : (ℕ → ℕ → κ) → ℕ → ℕ → κ} {P : ℕ → ℕ → κ → Prop}
    (step : ∀ f i j, i < rows → j < width →
      (∀ i' j', i' < rows → j' < width → i' < i ∨ i' = i ∧ j' < j → P i' j' (f i' j')) →
      P i j (cell f i j)) :
    ∀ i < rows, ∀ j < width, P i j ((build rows width blank cell).get i j) := by
  have hall : (build rows width blank cell).HasShape rows width ∧
      ∀ i < rows, ∀ j < width, P i j ((build rows width blank cell).get i j) := by
    refine foldl_range_induction (I := fun k (g : Grid κ) => g.HasShape rows width ∧
      ∀ i < k, ∀ j < width, P i j (g.get i j)) ⟨hasShape_fill .., by simp⟩ ?_
    rintro k hk g ⟨hshape, habove⟩
    -- the row `k` is filled from left to right, and the rows above are left alone
    have hrow := foldl_range_induction (n := width) (f := fun g j => g.set k j (cell g.get k j))
      (I := fun m (g : Grid κ) => g.HasShape rows width ∧
        (∀ i < k, ∀ j < width, P i j (g.get i j)) ∧ ∀ j < m, P k j (g.get k j)) (s := g)
      ⟨hshape, habove, by simp⟩ ?_
    · refine ⟨hrow.1, fun i hi j hj => ?_⟩
      rcases Nat.lt_succ_iff_lt_or_eq.1 hi with hi | rfl
      · exact hrow.2.1 i hi j hj
      · exact hrow.2.2 j hj
    · rintro m hm g ⟨hshape, habove, hleft⟩
      refine ⟨hshape.set, fun i hi j hj => ?_, fun j hj => ?_⟩
      · rw [hshape.get_set hk hm, if_neg (by omega)]
        exact habove i hi j hj
      · rw [hshape.get_set hk hm]
        rcases Nat.lt_succ_iff_lt_or_eq.1 hj with hj | rfl
        · rw [if_neg (by omega)]
          exact hleft j hj
        · rw [if_pos ⟨rfl, rfl⟩]
          refine step _ k j hk hm fun i' j' _ hj' hearlier => ?_
          rcases hearlier with hi' | ⟨rfl, hlt⟩
          · exact habove i' hi' j' hj'
          · exact hleft j' hlt
  exact hall.2

/-- A table depends on what is computed for its own cells. -/
lemma build_congr {blank : κ} {cell cell' : (ℕ → ℕ → κ) → ℕ → ℕ → κ}
    (h : ∀ f i j, i < rows → j < width → cell' f i j = cell f i j) :
    build rows width blank cell' = build rows width blank cell := by
  refine List.foldl_ext _ _ _ fun g i hi => List.foldl_ext _ _ _ fun g j hj => ?_
  rw [h _ i j (List.mem_range.1 hi) (List.mem_range.1 hj)]

/-- Changing some cells of a row, each to a value of its own.

**Proof sketch.** Induction on the columns; each of them changes one cell or none, by `get_set`. -/
lemma HasShape.get_foldl_set (h : g.HasShape rows width) (hi : i < rows) (q : ℕ → Prop)
    [DecidablePred q] (value : ℕ → κ) {cols : List ℕ} (hcols : ∀ j ∈ cols, j < width) :
    let changed := cols.foldl (fun g j => if q j then g.set i j (value j) else g) g
    changed.HasShape rows width ∧ ∀ i' j', changed.get i' j' =
      if i' = i ∧ j' ∈ cols ∧ q j' then value j' else g.get i' j' := by
  induction cols generalizing g with
  | nil => exact ⟨h, by simp⟩
  | cons k cols ih =>
    have hcols' : ∀ j ∈ cols, j < width := fun j hj => hcols j (List.mem_cons_of_mem k hj)
    by_cases hk : q k
    · obtain ⟨hshape, hget⟩ := ih h.set hcols'
      simp only [List.foldl_cons, hk, ↓reduceIte]
      refine ⟨hshape, fun i' j' => ?_⟩
      rw [hget, h.get_set hi (hcols k (List.mem_cons_self ..))]
      by_cases hj : j' = k
      · subst hj
        by_cases hi' : i' = i <;> simp [hi', hk]
      · simp [hj]
    · obtain ⟨hshape, hget⟩ := ih h hcols'
      simp only [List.foldl_cons, hk, ↓reduceIte]
      refine ⟨hshape, fun i' j' => ?_⟩
      rw [hget]
      by_cases hj : j' = k
      · subst hj
        simp [hk]
      · simp [hj]

/-- Changing some cells of some rows, each to a value of its own.

**Proof sketch.** Induction on the rows; each of them is changed as `get_foldl_set` says, or not at
all. -/
lemma HasShape.get_foldl_foldl_set (h : g.HasShape rows width) (p q : ℕ → Prop) [DecidablePred p]
    [DecidablePred q] (value : ℕ → ℕ → κ) {lines cols : List ℕ} (hlines : ∀ i ∈ lines, i < rows)
    (hcols : ∀ j ∈ cols, j < width) :
    let changed := lines.foldl (fun g i => if p i then
      cols.foldl (fun g j => if q j then g.set i j (value i j) else g) g else g) g
    changed.HasShape rows width ∧ ∀ i j, changed.get i j =
      if (i ∈ lines ∧ p i) ∧ j ∈ cols ∧ q j then value i j else g.get i j := by
  induction lines generalizing g with
  | nil => exact ⟨h, by simp⟩
  | cons k lines ih =>
    have hlines' : ∀ i ∈ lines, i < rows := fun i hi => hlines i (List.mem_cons_of_mem k hi)
    by_cases hk : p k
    · obtain ⟨hrow, hgetRow⟩ :=
        h.get_foldl_set (hlines k (List.mem_cons_self ..)) q (value k) hcols
      obtain ⟨hshape, hget⟩ := ih hrow hlines'
      simp only [List.foldl_cons, hk, ↓reduceIte]
      refine ⟨hshape, fun i j => ?_⟩
      rw [hget, hgetRow]
      by_cases hi : i = k
      · subst hi
        by_cases hj : j ∈ cols ∧ q j <;> simp [hj, hk]
      · simp [hi]
    · obtain ⟨hshape, hget⟩ := ih h hlines'
      simp only [List.foldl_cons, hk, ↓reduceIte]
      refine ⟨hshape, fun i j => ?_⟩
      rw [hget]
      by_cases hi : i = k
      · subst hi
        simp [hk]
      · simp [hi]

end Grid

end TreeMatching
