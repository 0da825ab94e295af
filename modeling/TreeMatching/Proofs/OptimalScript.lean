import Mathlib.Data.List.Forall2
import Mathlib.Data.List.Nodup
import Mathlib.Tactic.Linarith
import Mathlib.Tactic.NormNum
import TreeMatching.EditDistance.Script
import TreeMatching.Proofs.EditMapping

set_option autoImplicit false

/-!
# Edit scripts read off the tables

The pairs of an edit script are found by walking back through the tables of the edit distance.  Each
move of the walk explains the least cost of two forests by that of smaller ones.  Whatever the cost
of relabelling, the pairs that are found form an edit mapping.  Costs are compared up to a small
error; if that error is smaller than any difference of costs, every move is right and the edit
mapping is one of least cost.

## Main definitions

* `Script.Sharp` — costs that are the same up to the error are equal.
* `Script.Explains` — what a move says about the least costs of forests.
* `Script.Solves` — a list of pairs aligns two forests, and at least cost if costs are sharp.
* `Script.Splits` — pairs, and problems put aside, that solve two forests once the problems are
  solved.

## Main results

* `Script.explains_move` — every move explains the least cost of two forests.
* `Script.splits_walk` — what a walk through a table finds.
* `Script.solves_resolve` — all problems are solved before the limit is reached.
* `Script.sharp_of_isMultiple` — costs are sharp if they are multiples of a unit above the error.
* `mapping_is_optimal_edit_mapping` — an edit script is an edit mapping of least cost.
-/

namespace TreeMatching

namespace Script

variable (a b : Numbering) (cost : WithTop ℚ)

/-- Costs of forests that differ by one up to the error differ by one exactly. -/
def Sharp : Prop :=
  ∀ l l' x y x' y' v w, v ∈ a.forestCosts b cost l l' x y → w ∈ a.forestCosts b cost l l' x' y' →
    Cost.same (v + 1) w = true → v + 1 = w

/-- What a move from the forests that end with the numbers `i` and `j`, and begin with `l` and `l'`,
says about least costs.  Deleting and inserting are found out up to the error; if neither explains
the cost, the other two do so exactly. -/
inductive Explains (l l' i j : ℕ) : Move → Prop
  | delete {v w : WithTop ℚ} (hi : l ≤ i)
      (hv : IsLeast (a.forestCosts b cost l l' i (j + 1)) v)
      (hw : IsLeast (a.forestCosts b cost l l' (i + 1) (j + 1)) w)
      (hsame : Cost.same (v + 1) w = true) : Explains l l' i j .delete
  | insert {v w : WithTop ℚ} (hj : l' ≤ j)
      (hv : IsLeast (a.forestCosts b cost l l' (i + 1) j) v)
      (hw : IsLeast (a.forestCosts b cost l l' (i + 1) (j + 1)) w)
      (hsame : Cost.same (v + 1) w = true) : Explains l l' i j .insert
  | align {z : WithTop ℚ} (hi : a.first i = l) (hj : b.first j = l')
      (hkind : (a.node i).kind = (b.node j).kind)
      (hz : IsLeast (a.forestCosts b cost l l' i j) z)
      (hw : IsLeast (a.forestCosts b cost l l' (i + 1) (j + 1))
        (z + EditDistance.relabel a b cost i j)) : Explains l l' i j .align
  | putAside {z t : WithTop ℚ} (hi : l ≤ a.first i) (hj : l' ≤ b.first j)
      (hpart : ¬(a.first i = l ∧ b.first j = l'))
      (hz : IsLeast (a.forestCosts b cost l l' (a.first i) (b.first j)) z)
      (ht : EditDistance.IsTreeDistance a b cost i j t)
      (hw : IsLeast (a.forestCosts b cost l l' (i + 1) (j + 1)) (z + t)) :
      Explains l l' i j .putAside

variable {a b cost} {l l' x y i j : ℕ}

/-! ### Moves -/

/-- A finite cost is the same as itself. -/
lemma same_self {v : WithTop ℚ} (hv : v ≠ ⊤) : Cost.same v v = true := by
  obtain ⟨v, rfl⟩ := WithTop.ne_top_iff_exists.1 hv
  refine decide_eq_true ?_
  rw [sub_self, abs_zero]
  norm_num

/-- The least cost of two forests is finite: nothing needs to be aligned. -/
lemma ne_top_of_isLeast {v : WithTop ℚ} (h : IsLeast (a.forestCosts b cost l l' x y) v) :
    v ≠ ⊤ := by
  refine ne_top_of_le_ne_top ?_ (h.2 ⟨∅, .empty, rfl⟩)
  simp [Numbering.alignmentCost, Numbering.pairingCost]

/-- If the one forest is empty, inserting explains the cost. -/
lemma same_of_empty_left {v w : WithTop ℚ} (hx : x = l)
    (hv : IsLeast (a.forestCosts b cost l l' x j) v)
    (hw : IsLeast (a.forestCosts b cost l l' x (j + 1)) w) : Cost.same (v + 1) w = true := by
  subst hx
  have heq : w = v + 1 :=
    hw.unique (Numbering.forestCosts_succ_right ▸ Numbering.isLeast_add_one hv)
  exact heq ▸ same_self (ne_top_of_isLeast hw)

/-- If the other forest is empty, deleting explains the cost. -/
lemma same_of_empty_right {v w : WithTop ℚ} (hy : y = l')
    (hv : IsLeast (a.forestCosts b cost l l' i y) v)
    (hw : IsLeast (a.forestCosts b cost l l' (i + 1) y) w) : Cost.same (v + 1) w = true := by
  subst hy
  have heq : w = v + 1 :=
    hw.unique (Numbering.forestCosts_succ_left ▸ Numbering.isLeast_add_one hv)
  exact heq ▸ same_self (ne_top_of_isLeast hw)

/-- The least of three costs is the third one, if it is the same as neither of the others. -/
lemma eq_of_isLeast_min {p q z w : WithTop ℚ} {costs : Set (WithTop ℚ)} (hw : IsLeast costs w)
    (hmin : IsLeast costs (min (min p q) z)) (hfinite : w ≠ ⊤) (hp : ¬Cost.same p w = true)
    (hq : ¬Cost.same q w = true) : w = z := by
  -- a finite cost is the same as itself, so neither of the others is equal to it
  have hpw : p ≠ w := fun h => hp (h.symm ▸ same_self hfinite)
  have hqw : q ≠ w := fun h => hq (h.symm ▸ same_self hfinite)
  have heq := hw.unique hmin
  rcases min_choice (min p q) z with h | h
  · rcases min_choice p q with h' | h'
    · exact absurd (h'.symm.trans (h.symm.trans heq.symm)) hpw
    · exact absurd (h'.symm.trans (h.symm.trans heq.symm)) hqw
  · exact heq.trans h

/-- Every pair of subtrees has a distance. -/
lemma exists_isTreeDistance (ha : a.Laminar) (hb : b.Laminar) (h : a.InRange b (i, j)) :
    ∃ t, EditDistance.IsTreeDistance a b cost i j t :=
  ⟨_, (EditDistance.isTreeTable_solve ha hb).distance i j h.1.1 h.1.2 h.2.1 h.2.2⟩

/-- If neither deleting nor inserting explains the cost of whole trees, their roots are
partners, and so they have the same kind. -/
lemma explains_align {v v' z w : WithTop ℚ} (hi : a.first i = l) (hj : b.first j = l')
    (hv : IsLeast (a.forestCosts b cost l l' i (j + 1)) v)
    (hv' : IsLeast (a.forestCosts b cost l l' (i + 1) j) v')
    (hz : IsLeast (a.forestCosts b cost l l' i j) z)
    (hw : IsLeast (a.forestCosts b cost l l' (i + 1) (j + 1)) w)
    (hdelete : ¬Cost.same (v + 1) w = true) (hinsert : ¬Cost.same (v' + 1) w = true) :
    Explains a b cost l l' i j .align := by
  have hfinite := ne_top_of_isLeast hw
  have heq := eq_of_isLeast_min hw (Numbering.isLeast_succ_whole hi hj hv hv' hz) hfinite hdelete
    hinsert
  have hkind : (a.node i).kind = (b.node j).kind := by
    by_contra hkind
    rw [Numbering.relabel_of_kind_ne hkind, add_top] at heq
    exact hfinite heq
  exact .align hi hj hkind hz (heq ▸ hw)

/-- If neither deleting nor inserting explains the cost of forests, their last trees are aligned
with each other. -/
lemma explains_putAside (ha : a.Laminar) (hb : b.Laminar) (hq : a.InRange b (i, j))
    {v v' z w : WithTop ℚ} (hi : l ≤ a.first i) (hj : l' ≤ b.first j)
    (hpart : ¬(a.first i = l ∧ b.first j = l'))
    (hv : IsLeast (a.forestCosts b cost l l' i (j + 1)) v)
    (hv' : IsLeast (a.forestCosts b cost l l' (i + 1) j) v')
    (hz : IsLeast (a.forestCosts b cost l l' (a.first i) (b.first j)) z)
    (hw : IsLeast (a.forestCosts b cost l l' (i + 1) (j + 1)) w)
    (hdelete : ¬Cost.same (v + 1) w = true) (hinsert : ¬Cost.same (v' + 1) w = true) :
    Explains a b cost l l' i j .putAside := by
  obtain ⟨t, ht⟩ := exists_isTreeDistance ha hb hq
  have hmin := Numbering.isLeast_succ_split ha hb hq.1 hq.2 hi hj hv hv' hz ht
  have heq := eq_of_isLeast_min hw hmin (ne_top_of_isLeast hw) hdelete hinsert
  exact .putAside hi hj hpart hz ht (heq ▸ hw)

/-- **Every move explains the least cost of two forests.**

**Proof sketch.** If one of the forests is empty, deleting or inserting explains the cost.
Otherwise the least cost is the least of three, and if it is neither that of deleting nor that of
inserting, then it is the third one. -/
theorem explains_move (ha : a.Laminar) (hb : b.Laminar) {top top' : ℕ}
    (hq : a.InRange b (top, top')) {table : Grid (WithTop ℚ)}
    (htable : EditDistance.IsForestTable a b cost top top' table)
    (hi : a.first top ≤ i + 1 ∧ i ≤ top) (hj : b.first top' ≤ j + 1 ∧ j ≤ top')
    (hne : a.first top - 1 < i ∨ b.first top' - 1 < j) :
    Explains a b cost (a.first top) (b.first top') i j (move a b table top top' i j) := by
  have hl := ha.first_pos top hq.1.1 hq.1.2
  have hl' := hb.first_pos top' hq.2.1 hq.2.2
  have hcell : ∀ x y, a.first top ≤ x → x ≤ top + 1 → b.first top' ≤ y → y ≤ top' + 1 →
      IsLeast (a.forestCosts b cost (a.first top) (b.first top') x y)
        (table.get (x - 1 - (a.first top - 1)) (y - 1 - (b.first top' - 1))) := by
    intro x y hx hx' hy hy'
    have h := htable x y hx hx' hy hy'
    rwa [show x - a.first top = x - 1 - (a.first top - 1) by omega,
      show y - b.first top' = y - 1 - (b.first top' - 1) by omega] at h
  have hw := hcell (i + 1) (j + 1) (by omega) (by omega) (by omega) (by omega)
  rw [Nat.add_sub_cancel, Nat.add_sub_cancel] at hw
  rw [move]
  dsimp only
  split
  · next hdelete =>
    have hv := hcell i (j + 1) (by omega) (by omega) (by omega) (by omega)
    exact .delete (by omega) hv hw hdelete.2
  · next hdelete =>
    split
    · next hinsert =>
      have hv := hcell (i + 1) j (by omega) (by omega) (by omega) (by omega)
      exact .insert (by omega) hv hw hinsert.2
    · next hinsert =>
      -- on the border of the table one of the two tests succeeds, so this is no cell of the border
      obtain ⟨hli, hlj⟩ : a.first top ≤ i ∧ b.first top' ≤ j := by
        refine ⟨Nat.le_of_not_lt fun hlt => ?_, Nat.le_of_not_lt fun hlt => ?_⟩
        · have hv := hcell (i + 1) j (by omega) (by omega) (by omega) (by omega)
          exact hinsert ⟨by omega, same_of_empty_left (by omega) hv hw⟩
        · have hv := hcell i (j + 1) (by omega) (by omega) (by omega) (by omega)
          exact hdelete ⟨by omega, same_of_empty_right (by omega) hv hw⟩
      have hv := hcell i (j + 1) (by omega) (by omega) (by omega) (by omega)
      have hv' := hcell (i + 1) j (by omega) (by omega) (by omega) (by omega)
      have hnd := fun h => hdelete ⟨by omega, h⟩
      have hni := fun h => hinsert ⟨by omega, h⟩
      split
      · next hwhole =>
        have hz := hcell i j (by omega) (by omega) (by omega) (by omega)
        exact explains_align hwhole.1 hwhole.2 hv hv' hz hw hnd hni
      · next hpart =>
        obtain ⟨⟨-, hsize⟩, -, hsize'⟩ := hq
        have hfi := ha.nested top i hsize hli hi.2 (by omega)
        have hfj := hb.nested top' j hsize' hlj hj.2 (by omega)
        have hile := a.first_le i
        have hjle := b.first_le j
        have hz := hcell (a.first i) (b.first j) hfi (by omega) hfj (by omega)
        exact explains_putAside ha hb ⟨⟨by omega, by omega⟩, by omega, by omega⟩ hfi hfj hpart hv
          hv' hz hw hnd hni

/-! ### Solutions -/

variable (a b cost) in
/-- The pairs of a list align two forests, and at least cost if costs are sharp. -/
structure Solves (l l' x y : ℕ) (found : List (ℕ × ℕ)) : Prop where
  /-- No pair occurs twice. -/
  nodup : found.Nodup
  /-- The pairs align the forests. -/
  aligned : a.Aligned b l l' x y found.toFinset
  /-- Partners have the same kind. -/
  kinds : a.SameKinds b found.toFinset
  /-- No alignment costs less. -/
  least : Sharp a b cost → IsLeast (a.forestCosts b cost l l' x y)
    (a.alignmentCost b cost l l' x y found.toFinset)

variable (a b cost) in
/-- The pairs of a list align the subtrees at two numbers. -/
def SolvesTrees (found : List (ℕ × ℕ)) (q : ℕ × ℕ) : Prop :=
  Solves a b cost (a.first q.1) (b.first q.2) (q.1 + 1) (q.2 + 1) found

namespace Solves

variable {found : List (ℕ × ℕ)} {v w z t : WithTop ℚ}

/-- Nothing is left to do with empty forests. -/
lemma empty : Solves a b cost l l' l l' [] where
  nodup := .nil
  aligned := .empty
  kinds := by simp [Numbering.SameKinds]
  least _ := by
    have hcost : a.alignmentCost b cost l l' l l' ∅ = 0 := by
      simp [Numbering.alignmentCost, Numbering.pairingCost, Numbering.extent]
    exact hcost ▸ Numbering.isLeast_forestCosts_empty

/-- A last number of the one forest without a partner. -/
lemma delete (h : Solves a b cost l l' i y found)
    (hv : IsLeast (a.forestCosts b cost l l' i y) v)
    (hw : IsLeast (a.forestCosts b cost l l' (i + 1) y) w) (hsame : Cost.same (v + 1) w = true) :
    Solves a b cost l l' (i + 1) y found where
  nodup := h.nodup
  aligned := h.aligned.restrict subset_rfl fun u hu => by
    have := h.aligned.range u hu
    omega
  kinds := h.kinds
  least hsharp := by
    rw [Numbering.alignmentCost_succ_left, (h.least hsharp).unique hv,
      hsharp _ _ _ _ _ _ _ _ hv.1 hw.1 hsame]
    exact hw

/-- A last number of the other forest without a partner. -/
lemma insert (h : Solves a b cost l l' x j found)
    (hv : IsLeast (a.forestCosts b cost l l' x j) v)
    (hw : IsLeast (a.forestCosts b cost l l' x (j + 1)) w) (hsame : Cost.same (v + 1) w = true) :
    Solves a b cost l l' x (j + 1) found where
  nodup := h.nodup
  aligned := h.aligned.restrict subset_rfl fun u hu => by
    have := h.aligned.range u hu
    omega
  kinds := h.kinds
  least hsharp := by
    rw [Numbering.alignmentCost_succ_right, (h.least hsharp).unique hv,
      hsharp _ _ _ _ _ _ _ _ hv.1 hw.1 hsame]
    exact hw

/-- The roots of whole trees as partners.

**Proof sketch.** The pair of the two roots is new since both have the largest number.  It can be
inserted into an alignment of what is below, and adds the cost of relabelling. -/
lemma align (h : Solves a b cost l l' i j found) (hi : a.first i = l) (hj : b.first j = l')
    (hkind : (a.node i).kind = (b.node j).kind)
    (hz : IsLeast (a.forestCosts b cost l l' i j) z)
    (hw : IsLeast (a.forestCosts b cost l l' (i + 1) (j + 1))
      (z + EditDistance.relabel a b cost i j)) :
    Solves a b cost l l' (i + 1) (j + 1) ((i, j) :: found) := by
  have hnew : (i, j) ∉ found.toFinset := fun hmem => by
    have := (h.aligned.range _ hmem).1.2
    exact lt_irrefl _ this
  refine ⟨List.nodup_cons.2 ⟨fun hmem => hnew (List.mem_toFinset.2 hmem), h.nodup⟩, ?_, ?_, ?_⟩
  · rw [List.toFinset_cons]
    exact h.aligned.insert_roots hi hj
  · intro u hu
    rw [List.toFinset_cons, Finset.mem_insert] at hu
    rcases hu with rfl | hu
    · exact hkind
    · exact h.kinds u hu
  · intro hsharp
    rw [List.toFinset_cons, Numbering.alignmentCost_insert hnew, (h.least hsharp).unique hz]
    exact hw

/-- Solutions of two forests and of the trees behind them.

**Proof sketch.** The pairs of the trees lie behind those of the forests, so the two lists are
disjoint, their union is an alignment, and its cost is the sum. -/
lemma append (ha : a.Laminar) (hb : b.Laminar) (hq : a.InRange b (i, j)) {last : List (ℕ × ℕ)}
    (h : Solves a b cost l l' (a.first i) (b.first j) found)
    (hlast : SolvesTrees a b cost last (i, j)) (hi : l ≤ a.first i) (hj : l' ≤ b.first j)
    (hz : IsLeast (a.forestCosts b cost l l' (a.first i) (b.first j)) z)
    (ht : EditDistance.IsTreeDistance a b cost i j t)
    (hw : IsLeast (a.forestCosts b cost l l' (i + 1) (j + 1)) (z + t)) :
    Solves a b cost l l' (i + 1) (j + 1) (found ++ last) := by
  have hdisjoint : Disjoint found.toFinset last.toFinset := by
    rw [Finset.disjoint_left]
    intro u hu hu'
    have h1 := (h.aligned.range u hu).1.2
    have h2 := (hlast.aligned.range u hu').1.1
    exact absurd h1 (Nat.not_lt.2 h2)
  refine ⟨List.nodup_append'.2 ⟨h.nodup, hlast.nodup, ?_⟩, ?_, ?_, ?_⟩
  · exact List.disjoint_toFinset_iff_disjoint.1 hdisjoint
  · rw [List.toFinset_append]
    exact h.aligned.union_last ha hb hq.1 hq.2 hi hj hlast.aligned
  · intro u hu
    rw [List.toFinset_append, Finset.mem_union] at hu
    exact hu.elim (h.kinds u) (hlast.kinds u)
  · intro hsharp
    rw [List.toFinset_append, Numbering.alignmentCost_union hdisjoint, (h.least hsharp).unique hz,
      (hlast.least hsharp).unique ht]
    exact hw

end Solves

/-! ### One walk -/

variable (a b) in
/-- The number of nodes of the subtrees at two numbers, less one. -/
def burden (q : ℕ × ℕ) : ℕ := (q.1 - a.first q.1) + (q.2 - b.first q.2) + 1

variable (a b cost) in
/-- The pairs `found` and solutions of the problems `pending` make up a solution of two forests.
The problems are smaller than the forests, also when taken together. -/
structure Splits (l l' x y : ℕ) (found pending : List (ℕ × ℕ)) : Prop where
  /-- The problems are pairs of subtrees. -/
  inRange : ∀ q ∈ pending, a.InRange b q
  /-- Together the problems are smaller than the forests. -/
  smaller : (pending.map (burden a b)).sum ≤ (x - l) + (y - l') - 2
  /-- With solutions of all problems, the forests are solved. -/
  solves : ∀ solutions, List.Forall₂ (SolvesTrees a b cost) solutions pending →
    Solves a b cost l l' x y (found ++ solutions.flatten)

/-- Solutions of two lists of problems are those of the one, followed by those of the other. -/
lemma exists_append_of_solutions {solutions : List (List (ℕ × ℕ))} {pending rest : List (ℕ × ℕ)}
    (h : List.Forall₂ (SolvesTrees a b cost) solutions (pending ++ rest)) :
    ∃ first last, solutions = first ++ last ∧
      List.Forall₂ (SolvesTrees a b cost) first pending ∧
      List.Forall₂ (SolvesTrees a b cost) last rest :=
  ⟨_, _, (List.take_append_drop pending.length solutions).symm,
    List.forall₂_take_append _ _ _ h, List.forall₂_drop_append _ _ _ h⟩

namespace Splits

variable {found pending : List (ℕ × ℕ)}

/-- Two empty forests are solved without any pairs. -/
lemma empty : Splits a b cost l l' l l' [] [] where
  inRange := by simp
  smaller := by simp
  solves solutions h := by
    obtain rfl := List.forall₂_nil_right_iff.1 h
    exact .empty

/-- If it costs the least to delete the last node, the remaining problems solve the longer forest as
well. -/
lemma delete {v w : WithTop ℚ} (h : Splits a b cost l l' i y found pending)
    (hv : IsLeast (a.forestCosts b cost l l' i y) v)
    (hw : IsLeast (a.forestCosts b cost l l' (i + 1) y) w) (hsame : Cost.same (v + 1) w = true) :
    Splits a b cost l l' (i + 1) y found pending where
  inRange := h.inRange
  smaller := h.smaller.trans (by omega)
  solves solutions hs := (h.solves solutions hs).delete hv hw hsame

/-- If it costs the least to insert the last node, the remaining problems solve the longer forest as
well. -/
lemma insert {v w : WithTop ℚ} (h : Splits a b cost l l' x j found pending)
    (hv : IsLeast (a.forestCosts b cost l l' x j) v)
    (hw : IsLeast (a.forestCosts b cost l l' x (j + 1)) w) (hsame : Cost.same (v + 1) w = true) :
    Splits a b cost l l' x (j + 1) found pending where
  inRange := h.inRange
  smaller := h.smaller.trans (by omega)
  solves solutions hs := (h.solves solutions hs).insert hv hw hsame

/-- If it costs the least to align two subtrees at their roots, the roots are a pair of the
solution. -/
lemma align {z : WithTop ℚ} (h : Splits a b cost l l' i j found pending) (hi : a.first i = l)
    (hj : b.first j = l') (hkind : (a.node i).kind = (b.node j).kind)
    (hz : IsLeast (a.forestCosts b cost l l' i j) z)
    (hw : IsLeast (a.forestCosts b cost l l' (i + 1) (j + 1))
      (z + EditDistance.relabel a b cost i j)) :
    Splits a b cost l l' (i + 1) (j + 1) ((i, j) :: found) pending where
  inRange := h.inRange
  smaller := h.smaller.trans (by omega)
  solves solutions hs := (h.solves solutions hs).align hi hj hkind hz hw

/-- A problem that is put aside is smaller than the forests, which leaves room for the others.

**Proof sketch.** The trees at `i` and `j` begin behind the start of at least one of the forests, so
their burden fits into what is left.  A list of solutions ends with the solution for the problem put
aside, and `Solves.append` joins it to the others. -/
lemma putAside {z t : WithTop ℚ} (ha : a.Laminar) (hb : b.Laminar) (hq : a.InRange b (i, j))
    (h : Splits a b cost l l' (a.first i) (b.first j) found pending)
    (hi : l ≤ a.first i) (hj : l' ≤ b.first j) (hpart : ¬(a.first i = l ∧ b.first j = l'))
    (hz : IsLeast (a.forestCosts b cost l l' (a.first i) (b.first j)) z)
    (ht : EditDistance.IsTreeDistance a b cost i j t)
    (hw : IsLeast (a.forestCosts b cost l l' (i + 1) (j + 1)) (z + t)) :
    Splits a b cost l l' (i + 1) (j + 1) found (pending ++ [(i, j)]) where
  inRange q hmem := by
    rcases List.mem_append.1 hmem with hmem | hmem
    · exact h.inRange q hmem
    · exact List.mem_singleton.1 hmem ▸ hq
  smaller := by
    -- one of the trees begins behind the start of its forest, so there is a node to spare
    have hsmaller := h.smaller
    have hfi := a.first_le i
    have hfj := b.first_le j
    rw [List.map_append, List.sum_append, List.map_singleton, List.sum_singleton, burden]
    dsimp only
    omega
  solves solutions hs := by
    obtain ⟨first, last, rfl, hfirst, hlast⟩ := exists_append_of_solutions hs
    obtain ⟨solution, none, hsolution, hnone, rfl⟩ := List.forall₂_cons_right_iff.1 hlast
    obtain rfl := List.forall₂_nil_right_iff.1 hnone
    rw [List.flatten_append, List.flatten_singleton, ← List.append_assoc]
    exact (h.solves first hfirst).append ha hb hq hsolution hi hj hz ht hw

end Splits

/-- **What a walk through a table finds** is a solution of the two forests, once the problems that
it puts aside are solved.

**Proof sketch.** Induction along the walk.  Each move explains the least cost of the forests, and
so says how a solution of smaller forests is to be extended. -/
theorem splits_walk (ha : a.Laminar) (hb : b.Laminar) {top top' : ℕ}
    (hq : a.InRange b (top, top')) {table : Grid (WithTop ℚ)}
    (htable : EditDistance.IsForestTable a b cost top top' table)
    (hi : a.first top ≤ i + 1 ∧ i ≤ top) (hj : b.first top' ≤ j + 1 ∧ j ≤ top')
    (start : Findings) :
    ∃ found pending, Splits a b cost (a.first top) (b.first top') (i + 1) (j + 1) found pending ∧
      walk a b table top top' i j start =
        ⟨start.pairs ++ (found.map (a.nodesAt b)).toArray, pending ++ start.pending⟩ := by
  have hl := ha.first_pos top hq.1.1 hq.1.2
  have hl' := hb.first_pos top' hq.2.1 hq.2.2
  fun_induction walk a b table top top' i j start with
  | case1 i j start hne hm ih =>
    cases hm ▸ explains_move ha hb hq htable hi hj hne with
    | delete hli hv hw hsame =>
      obtain ⟨found, pending, hsplits, heq⟩ := ih (by omega) hj
      rw [Nat.sub_add_cancel (hl.trans hli)] at hsplits
      exact ⟨found, pending, hsplits.delete hv hw hsame, heq⟩
  | case2 i j start hne hm ih =>
    cases hm ▸ explains_move ha hb hq htable hi hj hne with
    | insert hlj hv hw hsame =>
      obtain ⟨found, pending, hsplits, heq⟩ := ih hi (by omega)
      rw [Nat.sub_add_cancel (hl'.trans hlj)] at hsplits
      exact ⟨found, pending, hsplits.insert hv hw hsame, heq⟩
  | case3 i j start hne hm ih =>
    cases hm ▸ explains_move ha hb hq htable hi hj hne with
    | align hfi hfj hkind hz hw =>
      have hli := a.first_le i
      have hlj := b.first_le j
      obtain ⟨found, pending, hsplits, heq⟩ := ih (by omega) (by omega)
      rw [Nat.sub_add_cancel (by omega), Nat.sub_add_cancel (by omega)] at hsplits
      refine ⟨(i, j) :: found, pending, hsplits.align hfi hfj hkind hz hw, heq.trans ?_⟩
      simp [Numbering.nodesAt]
  | case4 i j start hne hm ih =>
    cases hm ▸ explains_move ha hb hq htable hi hj hne with
    | putAside hfi hfj hpart hz ht hw =>
      have hli := a.first_le i
      have hlj := b.first_le j
      obtain ⟨hq1, hq2⟩ := hq
      obtain ⟨found, pending, hsplits, heq⟩ := ih (by omega) (by omega)
      rw [Nat.sub_add_cancel (by omega), Nat.sub_add_cancel (by omega)] at hsplits
      refine ⟨found, pending ++ [(i, j)], hsplits.putAside ha hb ⟨⟨by omega, by omega⟩, by omega,
        by omega⟩ hfi hfj hpart hz ht hw, heq.trans ?_⟩
      simp
  | case5 i j start hne =>
    obtain ⟨rfl, rfl⟩ : i = a.first top - 1 ∧ j = b.first top' - 1 := by omega
    refine ⟨[], [], ?_, by simp⟩
    rw [Nat.sub_add_cancel hl, Nat.sub_add_cancel hl']
    exact .empty

/-! ### All problems -/

/-- **All problems are solved before the limit is reached.**

**Proof sketch.** Induction on the limit.  A problem is replaced by the problems that its walk puts
aside, and these are together smaller than the problem. -/
theorem solves_resolve (ha : a.Laminar) (hb : b.Laminar) {limit : ℕ} {trees : Grid (WithTop ℚ)}
    (htrees : EditDistance.IsTreeTable a b cost trees) (pairs : Array (NodeId × NodeId))
    {pending : List (ℕ × ℕ)} (hpending : ∀ q ∈ pending, a.InRange b q)
    (hlimit : (pending.map (burden a b)).sum ≤ limit) :
    ∃ solutions, List.Forall₂ (SolvesTrees a b cost) solutions pending ∧
      resolve a b cost limit trees ⟨pairs, pending⟩ =
        pairs ++ (solutions.flatten.map (a.nodesAt b)).toArray := by
  induction limit generalizing trees pairs pending with
  | zero =>
    cases pending with
    | nil => exact ⟨[], .nil, by simp [resolve]⟩
    | cons q pending =>
      rw [List.map_cons, List.sum_cons, burden] at hlimit
      omega
  | succ limit ih =>
    cases pending with
    | nil => exact ⟨[], .nil, by simp [resolve]⟩
    | cons q pending =>
      obtain ⟨i, j⟩ := q
      have hq := hpending (i, j) (List.mem_cons_self ..)
      have hfi := a.first_le i
      have hfj := b.first_le j
      have htable := htrees.forestTable ha hb hq.1 hq.2
      have htrees' := htrees.record hq.1.2 hq.2.2 htable
      -- the problems put aside by the walk come first, then those that are pending already
      obtain ⟨found, parts, hsplits, hwalk⟩ := splits_walk (i := i) (j := j) ha hb hq htable
        ⟨by omega, le_rfl⟩ ⟨by omega, le_rfl⟩ ⟨pairs, pending⟩
      have hsmaller := hsplits.smaller
      rw [List.map_cons, List.sum_cons, burden] at hlimit
      dsimp only at hlimit
      have hparts : ∀ q ∈ parts ++ pending, a.InRange b q := by
        intro q hmem
        rcases List.mem_append.1 hmem with hmem | hmem
        · exact hsplits.inRange q hmem
        · exact hpending q (List.mem_cons_of_mem _ hmem)
      obtain ⟨solutions, hsolutions, heq⟩ := ih htrees'
        (pairs ++ (found.map (a.nodesAt b)).toArray) hparts
        (by rw [List.map_append, List.sum_append]; omega)
      obtain ⟨first, last, rfl, hfirst, hlast⟩ := exists_append_of_solutions hsolutions
      refine ⟨(found ++ first.flatten) :: last, .cons (hsplits.solves first hfirst) hlast, ?_⟩
      rw [resolve]
      dsimp only
      rw [hwalk, heq]
      simp

/-- **The pairs of an edit script align the two trees**, and at least cost if costs are sharp.

**Proof sketch.** The loop that resolves pending problems begins with the two whole trees.  Their
burden is within the limit, so that it ends with a solution, which is the solution for the forests
of all nodes. -/
theorem exists_solves_mapping (ha : a.Laminar) (hb : b.Laminar) (cost : WithTop ℚ) :
    ∃ found, Solves a b cost 1 1 (a.size + 1) (b.size + 1) found ∧
      mapping a b cost = found.map (a.nodesAt b) := by
  have hfirst := ha.root
  have hfirst' := hb.root
  have hpending : ∀ q ∈ [(a.size, b.size)], a.InRange b q := fun q hq =>
    List.mem_singleton.1 hq ▸ ⟨⟨ha.pos, le_rfl⟩, hb.pos, le_rfl⟩
  have hlimit : ([(a.size, b.size)].map (burden a b)).sum ≤ a.size + b.size := by
    rw [List.map_singleton, List.sum_singleton, burden]
    dsimp only
    have := ha.pos
    have := hb.pos
    omega
  have htrees : EditDistance.IsTreeTable a b cost _ := EditDistance.isTreeTable_solve ha hb
  obtain ⟨solutions, hsolutions, heq⟩ := solves_resolve ha hb htrees #[] hpending hlimit
  obtain ⟨found, none, hfound, hnone, rfl⟩ := List.forall₂_cons_right_iff.1 hsolutions
  obtain rfl := List.forall₂_nil_right_iff.1 hnone
  rw [SolvesTrees, hfirst, hfirst'] at hfound
  refine ⟨found, hfound, ?_⟩
  rw [mapping, heq]
  simp

/-! ### Sharp costs -/

/-- A cost is infinite or an integer multiple of a unit. -/
def IsMultiple (unit : ℚ) (v : WithTop ℚ) : Prop :=
  v = ⊤ ∨ ∃ n : ℤ, v = ((n * unit : ℚ) : WithTop ℚ)

namespace IsMultiple

variable {unit : ℚ} {v w : WithTop ℚ}

/-- Sums of multiples are multiples. -/
lemma add (hv : IsMultiple unit v) (hw : IsMultiple unit w) : IsMultiple unit (v + w) := by
  rcases hv with rfl | ⟨n, rfl⟩
  · exact .inl (top_add _)
  · rcases hw with rfl | ⟨m, rfl⟩
    · exact .inl (add_top _)
    · exact .inr ⟨n + m, by rw [← WithTop.coe_add, Int.cast_add, add_mul]⟩

/-- If one is a multiple, so is every integer. -/
lemma intCast (h : IsMultiple unit 1) (m : ℤ) : IsMultiple unit ((m : ℚ) : WithTop ℚ) := by
  rcases h with h | ⟨n, h⟩
  · exact absurd h (WithTop.coe_ne_top (a := (1 : ℚ)))
  · have hn : (1 : ℚ) = n * unit := WithTop.coe_inj.1 h
    exact .inr ⟨m * n, by rw [Int.cast_mul, mul_assoc, ← hn, mul_one]⟩

/-- Two multiples of a unit above the error that are the same up to the error are equal.

**Proof sketch.** The distance of two multiples is an integer times the unit.  It is below the
error, hence below the unit, so the integer is zero. -/
lemma eq_of_same (hunit : 1 / 1000000000 ≤ unit) (hv : IsMultiple unit v) (hw : IsMultiple unit w)
    (hsame : Cost.same v w = true) : v = w := by
  rcases hv with rfl | ⟨n, rfl⟩
  · cases hsame
  · rcases hw with rfl | ⟨m, rfl⟩
    · cases hsame
    · have hlt : |(n * unit - m * unit : ℚ)| < 1 / 1000000000 := of_decide_eq_true hsame
      have hpos : 0 < unit := lt_of_lt_of_le (by norm_num) hunit
      rw [← sub_mul, abs_mul, abs_of_pos hpos] at hlt
      -- two different multiples are at least one unit apart
      have hone : |((n - m : ℤ) : ℚ)| < 1 := by
        by_contra hge
        have := mul_le_mul_of_nonneg_right (not_lt.1 hge) hpos.le
        push_cast at this
        linarith
      have hzero : n - m = 0 := Int.abs_lt_one_iff.1 (by exact_mod_cast hone)
      rw [sub_eq_zero.1 hzero]

end IsMultiple

/-- **Costs are sharp** if one and the cost of relabelling are multiples of a unit above the
error: all costs of forests then are multiples of it.

**Proof sketch.** The cost of an alignment is the extent of the two forests, an integer, plus costs
of relabelling less two for each pair; all of these are multiples of the unit.  Two multiples that
are the same up to the error are equal. -/
theorem sharp_of_isMultiple {unit : ℚ} (hunit : 1 / 1000000000 ≤ unit) (hone : IsMultiple unit 1)
    (hcost : IsMultiple unit cost) : Sharp a b cost := by
  have hrelabel : ∀ i j, IsMultiple unit (EditDistance.relabel a b cost i j) := by
    intro i j
    rw [EditDistance.relabel]
    split
    · exact .inl rfl
    · split
      · exact hone.intCast 0
      · exact hcost
  have hcosts : ∀ l l' x y v, v ∈ a.forestCosts b cost l l' x y → IsMultiple unit v := by
    rintro l l' x y _ ⟨pairs, -, rfl⟩
    have hextent : Numbering.extent l l' x y = (((x - l) + (y - l') : ℤ) : ℚ) := by
      rw [Numbering.extent]
      push_cast
      rfl
    refine .add (hextent ▸ hone.intCast _) ?_
    refine Finset.sum_induction _ (IsMultiple unit) (fun _ _ => .add) (hone.intCast 0) ?_
    intro u _
    exact (hrelabel u.1 u.2).add (hone.intCast (-2))
  intro l l' x y x' y' v w hv hw hsame
  exact ((hcosts l l' x y v hv).add hone).eq_of_same hunit (hcosts l l' x' y' w hw) hsame

end Script

/-! ### Edit scripts -/

namespace Script

variable {a b : Numbering} {src dst : Tree} {mirrored : Bool} {place place' : Entry → Nat}

/-- The pairs of nodes of a list of places. -/
lemma toFinset_map_nodesAt (found : List (ℕ × ℕ)) :
    (found.map (a.nodesAt b)).toFinset = found.toFinset.image (a.nodesAt b) :=
  Multiset.toFinset_map (a.nodesAt b) found

/-- **Whatever the cost of relabelling, an edit script is an edit mapping.** -/
theorem isEditMapping_mapping (ha : a.Describes src mirrored place)
    (hb : b.Describes dst mirrored place') (cost : WithTop ℚ) :
    (mapping a b cost).Nodup ∧ IsEditMapping src dst (mapping a b cost).toFinset := by
  obtain ⟨found, hsolves, heq⟩ := exists_solves_mapping ha.laminar hb.laminar cost
  have hr := hsolves.aligned.inRange
  rw [heq]
  constructor
  · refine hsolves.nodup.map_on fun u hu v hv huv => ?_
    exact Numbering.injOn_nodesAt ha hb hr (List.mem_toFinset.2 hu) (List.mem_toFinset.2 hv) huv
  · rw [toFinset_map_nodesAt]
    exact (Numbering.isEditMapping_image_iff ha hb hr).2 ⟨hsolves.aligned, hsolves.kinds⟩

/-- **If costs are sharp, the cost of an edit script is the distance.** -/
theorem editCost_mapping (ha : a.Describes src mirrored place)
    (hb : b.Describes dst mirrored place') {r : ℚ} (hsharp : Sharp a b (r : WithTop ℚ)) :
    ((editCost src dst r (mapping a b (r : WithTop ℚ)).toFinset : ℚ) : WithTop ℚ) =
      EditDistance.distance a b (r : WithTop ℚ) := by
  obtain ⟨found, hsolves, heq⟩ := exists_solves_mapping ha.laminar hb.laminar (r : WithTop ℚ)
  rw [heq, toFinset_map_nodesAt, ← Numbering.alignmentCost_eq_editCost ha hb
    hsolves.aligned.inRange hsolves.kinds]
  exact (hsolves.least hsharp).unique (EditDistance.isLeast_distance ha.laminar hb.laminar)

variable (a b src dst) in
/-- The edit script of two numberings is an edit mapping of least cost, and its cost is the
distance. -/
structure IsOptimal (r : ℚ) : Prop where
  /-- No pair occurs twice. -/
  nodup : (mapping a b (r : WithTop ℚ)).Nodup
  /-- The pairs form an edit mapping. -/
  isEditMapping : IsEditMapping src dst (mapping a b (r : WithTop ℚ)).toFinset
  /-- The cost is the distance. -/
  cost : ((editCost src dst r (mapping a b (r : WithTop ℚ)).toFinset : ℚ) : WithTop ℚ) =
    EditDistance.distance a b (r : WithTop ℚ)
  /-- No edit mapping costs less. -/
  least : ∀ M, IsEditMapping src dst M →
    editCost src dst r (mapping a b (r : WithTop ℚ)).toFinset ≤ editCost src dst r M

/-- **If costs are sharp, an edit script is an optimal edit mapping.** -/
lemma isOptimal_of_sharp (ha : a.Describes src mirrored place)
    (hb : b.Describes dst mirrored place') {r : ℚ} (hsharp : Sharp a b (r : WithTop ℚ)) :
    IsOptimal a b src dst r := by
  obtain ⟨hnodup, hmapping⟩ := isEditMapping_mapping ha hb (r : WithTop ℚ)
  have hcost := editCost_mapping ha hb hsharp
  obtain ⟨d, hd, hleast⟩ := Numbering.isLeast_editCosts_distance ha hb r
  refine ⟨hnodup, hmapping, hcost, fun M hM => ?_⟩
  rw [WithTop.coe_inj.1 (hcost.trans hd)]
  exact hleast.2 ⟨M, hM, rfl⟩

end Script

/-- **An edit script is an edit mapping of least cost**, if the cost of relabelling is a multiple of
`2⁻²⁰`.  This holds for trees numbered from the left and for trees numbered from the right, hence
for the numberings that are chosen.

**Proof sketch.** One and the cost of relabelling are multiples of `2⁻²⁰`, a unit above the error
with which costs are compared.  So costs are sharp, and the script is optimal for every numbering
that describes the trees. -/
theorem mapping_is_optimal_edit_mapping (src dst : Tree) (k limit : ℕ)
    (hlimit : src.count * dst.count ≤ limit) :
    Script.IsOptimal (.ofTree src.shape) (.ofTree dst.shape) src dst (k / 2 ^ 20) ∧
      Script.IsOptimal (.ofTree src.shape.flip) (.ofTree dst.shape.flip) src dst (k / 2 ^ 20) ∧
      ∃ a b, EditDistance.prepare src dst limit = .ok (a, b) ∧
        Script.IsOptimal a b src dst (k / 2 ^ 20) := by
  have hone : Script.IsMultiple (1 / 2 ^ 20) 1 := .inr ⟨2 ^ 20, by norm_num⟩
  have hcost : Script.IsMultiple (1 / 2 ^ 20) ((k / 2 ^ 20 : ℚ) : WithTop ℚ) :=
    .inr ⟨k, by rw [Int.cast_natCast, mul_one_div]⟩
  have hsharp : ∀ a b, Script.Sharp a b ((k / 2 ^ 20 : ℚ) : WithTop ℚ) := fun a b =>
    Script.sharp_of_isMultiple (by norm_num) hone hcost
  refine ⟨Script.isOptimal_of_sharp (Numbering.describes_ofTree src)
    (Numbering.describes_ofTree dst) (hsharp _ _), Script.isOptimal_of_sharp
    (Numbering.describes_ofTree_flip src) (Numbering.describes_ofTree_flip dst) (hsharp _ _), ?_⟩
  rcases EditDistance.prepare_cases src dst limit with ⟨h, -⟩ | ⟨-, a, b, m, p, p', hp, ha, hb⟩
  · omega
  · exact ⟨a, b, hp, Script.isOptimal_of_sharp ha hb (hsharp a b)⟩

/-- The root is relabelled at half the cost of a deletion, one node is deleted and the leaves are
kept. -/
theorem optimal_script_with_relabelled_root :
    let src : Tree := .ofContents
      ⟨(⟨0⟩, "f"), .node (⟨1⟩, "x") .nil (.node (⟨0⟩, "y") (.leaf (⟨1⟩, "z")) .nil)⟩
    let dst : Tree := .ofContents ⟨(⟨0⟩, "g"), .node (⟨1⟩, "x") .nil (.leaf (⟨1⟩, "z"))⟩
    let script := Script.mapping (.ofTree src.shape) (.ofTree dst.shape) ((1 / 2 : ℚ) : WithTop ℚ)
    src.count * dst.count ≤ 12 ∧ script.Nodup ∧ IsEditMapping src dst script.toFinset ∧
      editCost src dst (1 / 2) script.toFinset = 3 / 2 ∧
      ∃ a b, EditDistance.prepare src dst 12 = .ok (a, b) ∧
        Script.IsOptimal a b src dst (1 / 2) := by
  intro src dst script
  have h := mapping_is_optimal_edit_mapping src dst (2 ^ 19) 12 (by decide)
  rw [show (((2 ^ 19 : ℕ) : ℚ) / 2 ^ 20) = 1 / 2 by norm_num] at h
  have hdistance : EditDistance.distance (.ofTree src.shape) (.ofTree dst.shape)
      ((1 / 2 : ℚ) : WithTop ℚ) = ((3 / 2 : ℚ) : WithTop ℚ) := by
    decide +kernel
  exact ⟨by decide, h.1.nodup, h.1.isEditMapping, WithTop.coe_inj.1 (h.1.cost.trans hdistance),
    h.2.2⟩

end TreeMatching
