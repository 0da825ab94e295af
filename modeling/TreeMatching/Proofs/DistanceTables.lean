import Mathlib.Data.Nat.Find
import TreeMatching.Proofs.ForestCosts
import TreeMatching.Proofs.Grids

set_option autoImplicit false

/-!
# The tables of the edit distance

The table of two subtrees holds the least costs of aligning the forests that begin where the
subtrees begin.  It is computed from the distances of smaller subtrees, and these are at hand
because the keyroots are taken in increasing order.

## Main definitions

* `EditDistance.IsTreeDistance` — a number is the least cost of aligning two subtrees.
* `EditDistance.IsForestTable`, `EditDistance.IsTreeTable` — the table of two subtrees, and the
  table of the distances of all subtrees, are right.

## Main results

* `EditDistance.isForestTable_forestTable` — the table of two subtrees is right if the distances
  of smaller subtrees are.
* `EditDistance.get_record` — what is copied from a table.
* `Numbering.mem_keyroots_iff`, `Numbering.pairwise_keyroots` — the keyroots and their order.
* `EditDistance.isTreeTable_solve` — in the end the distances of all subtrees are right.
* `EditDistance.isLeast_distance` — the distance is the least cost of aligning the two trees.
-/

namespace TreeMatching

namespace EditDistance

variable (a b : Numbering) (cost : WithTop ℚ)

/-- The number is the least cost of aligning the subtrees at `s` and `d`. -/
def IsTreeDistance (s d : ℕ) (v : WithTop ℚ) : Prop :=
  IsLeast (a.forestCosts b cost (a.first s) (b.first d) (s + 1) (d + 1)) v

/-- The table holds the least costs of aligning the forests within the subtrees at `i` and `j` that
begin where the subtrees begin. -/
def IsForestTable (i j : ℕ) (table : Grid (WithTop ℚ)) : Prop :=
  ∀ x y, a.first i ≤ x → x ≤ i + 1 → b.first j ≤ y → y ≤ j + 1 →
    IsLeast (a.forestCosts b cost (a.first i) (b.first j) x y)
      (table.get (x - a.first i) (y - b.first j))

/-- The table holds the distances of all pairs of subtrees. -/
structure IsTreeTable (trees : Grid (WithTop ℚ)) : Prop where
  /-- There is a cell for every pair. -/
  shape : trees.HasShape (a.size + 1) (b.size + 1)
  /-- The cells hold the distances. -/
  distance : ∀ s d, 1 ≤ s → s ≤ a.size → 1 ≤ d → d ≤ b.size →
    IsTreeDistance a b cost s d (trees.get s d)

variable {a b cost} {i j : ℕ}

/-! ### One table -/

/-- **The table of two subtrees is right if the distances of smaller subtrees are.**

**Proof sketch.** Induction along the order in which the table is filled.  In the first row and
column one forest is empty.  Elsewhere the recurrence is the one for whole trees, if the subtrees of
the last numbers are the whole forests, and the one for forests otherwise. -/
theorem isForestTable_forestTable (ha : a.Laminar) (hb : b.Laminar) (hi : 1 ≤ i ∧ i ≤ a.size)
    (hj : 1 ≤ j ∧ j ≤ b.size) {trees : Grid (WithTop ℚ)}
    (htrees : ∀ s d, a.first i ≤ s → s ≤ i → b.first j ≤ d → d ≤ j →
      ¬(a.first s = a.first i ∧ b.first d = b.first j) →
      IsTreeDistance a b cost s d (trees.get s d)) :
    IsForestTable a b cost i j (forestTable a b cost trees i j) := by
  have hfi := a.first_le i
  have hfj := b.first_le j
  have hi1 := ha.first_pos i hi.1 hi.2
  have hj1 := hb.first_pos j hj.1 hj.2
  have htable : ∀ m < i - a.first i + 2, ∀ n < j - b.first j + 2,
      IsLeast (a.forestCosts b cost (a.first i) (b.first j) (a.first i + m) (b.first j + n))
        ((forestTable a b cost trees i j).get m n) := by
    refine Grid.build_induction (P := fun m n v => IsLeast
      (a.forestCosts b cost (a.first i) (b.first j) (a.first i + m) (b.first j + n)) v) ?_
    intro f m n hm hn hprev
    match m, n with
    | 0, 0 => exact Numbering.isLeast_forestCosts_empty
    | m + 1, 0 =>
      have h := Numbering.isLeast_add_one (hprev m 0 (by omega) (by omega) (.inl (by omega)))
      exact Numbering.forestCosts_succ_left (s := a.first i + m) ▸ h
    | 0, n + 1 =>
      have h := Numbering.isLeast_add_one (hprev 0 n (by omega) (by omega) (.inr ⟨rfl, by omega⟩))
      exact Numbering.forestCosts_succ_right (d := b.first j + n) ▸ h
    | m + 1, n + 1 =>
      have hs : a.first i ≤ a.first (a.first i + m) :=
        ha.nested i (a.first i + m) hi.2 (by omega) (by omega) (by omega)
      have hd : b.first j ≤ b.first (b.first j + n) :=
        hb.nested j (b.first j + n) hj.2 (by omega) (by omega) (by omega)
      have hdelete := hprev m (n + 1) (by omega) hn (.inl (by omega))
      have hinsert := hprev (m + 1) n hm (by omega) (.inr ⟨rfl, by omega⟩)
      dsimp only
      split
      · next hwhole =>
        have hboth := hprev m n (by omega) (by omega) (.inl (by omega))
        exact Numbering.isLeast_succ_whole hwhole.1 hwhole.2 hdelete hinsert hboth
      · next hpart =>
        have hfs := a.first_le (a.first i + m)
        have hfd := b.first_le (b.first j + n)
        have hleft := hprev (a.first (a.first i + m) - a.first i)
          (b.first (b.first j + n) - b.first j) (by omega) (by omega) (.inl (by omega))
        rw [Nat.add_sub_cancel' hs, Nat.add_sub_cancel' hd] at hleft
        have hlast := htrees (a.first i + m) (b.first j + n) (by omega) (by omega) (by omega)
          (by omega) hpart
        exact Numbering.isLeast_succ_split ha hb ⟨by omega, by omega⟩ ⟨by omega, by omega⟩ hs hd
          hdelete hinsert hleft hlast
  intro x y hx hxi hy hyj
  have h := htable (x - a.first i) (by omega) (y - b.first j) (by omega)
  rwa [Nat.add_sub_cancel' hx, Nat.add_sub_cancel' hy] at h

/-! ### Copying distances -/

/-- The subtree at `s` lies within the one at `i` and begins where that one begins. -/
def OnSpine (a : Numbering) (i s : ℕ) : Prop := a.first i ≤ s ∧ s ≤ i ∧ a.first s = a.first i

/-- Whether a subtree begins where another one does can be decided. -/
instance (a : Numbering) (i s : ℕ) : Decidable (OnSpine a i s) :=
  inferInstanceAs (Decidable (_ ∧ _ ∧ _))

/-- **What is copied from a table** are the distances of the subtrees that begin where the two given
ones begin; nothing else changes.

**Proof sketch.** The two loops change the cells of the given rows and columns that satisfy both
tests, by `get_foldl_foldl_set`.  These are the numbers on the two spines. -/
theorem get_record {κ : Type} {table trees : Grid κ}
    (h : trees.HasShape (a.size + 1) (b.size + 1)) (hi : i ≤ a.size) (hj : j ≤ b.size) :
    (record a b table trees i j).HasShape (a.size + 1) (b.size + 1) ∧
      ∀ s d, (record a b table trees i j).get s d =
        if OnSpine a i s ∧ OnSpine b j d then table.get (s + 1 - a.first i) (d + 1 - b.first j)
        else trees.get s d := by
  have hfi := a.first_le i
  have hfj := b.first_le j
  have hlines : ∀ s ∈ List.range' (a.first i) (i + 1 - a.first i), s < a.size + 1 := by
    intro s hs
    have := List.mem_range'_1.1 hs
    omega
  have hcols : ∀ d ∈ List.range' (b.first j) (j + 1 - b.first j), d < b.size + 1 := by
    intro d hd
    have := List.mem_range'_1.1 hd
    omega
  obtain ⟨hshape, hget⟩ := h.get_foldl_foldl_set (a.first · = a.first i) (b.first · = b.first j)
    (fun s d => table.get (s + 1 - a.first i) (d + 1 - b.first j))
    hlines hcols
  refine ⟨hshape, fun s d => (hget s d).trans (if_congr ?_ rfl rfl)⟩
  rw [List.mem_range'_1, List.mem_range'_1, OnSpine, OnSpine]
  omega

/-- Copying from a table that is right keeps distances right, and makes those right that it
copies. -/
lemma isTreeDistance_get_record {table trees : Grid (WithTop ℚ)}
    (h : trees.HasShape (a.size + 1) (b.size + 1)) (hi : i ≤ a.size) (hj : j ≤ b.size)
    (htable : IsForestTable a b cost i j table) {s d : ℕ}
    (hsd : IsTreeDistance a b cost s d (trees.get s d) ∨ OnSpine a i s ∧ OnSpine b j d) :
    IsTreeDistance a b cost s d ((record a b table trees i j).get s d) := by
  rw [(get_record h hi hj).2]
  split
  · next hspine =>
    obtain ⟨⟨h1, h2, h3⟩, h4, h5, h6⟩ := hspine
    rw [IsTreeDistance, h3, h6]
    exact htable (s + 1) (d + 1) (by omega) (by omega) (by omega) (by omega)
  · next hspine => exact hsd.resolve_right hspine

/-- If all distances are right, so is the table of any pair of subtrees. -/
lemma IsTreeTable.forestTable {trees : Grid (WithTop ℚ)} (h : IsTreeTable a b cost trees)
    (ha : a.Laminar) (hb : b.Laminar) (hi : 1 ≤ i ∧ i ≤ a.size) (hj : 1 ≤ j ∧ j ≤ b.size) :
    IsForestTable a b cost i j (forestTable a b cost trees i j) := by
  refine isForestTable_forestTable ha hb hi hj fun s d hs hsi hd hdj _ => ?_
  have hfi := ha.first_pos i hi.1 hi.2
  have hfj := hb.first_pos j hj.1 hj.2
  exact h.distance s d (by omega) (by omega) (by omega) (by omega)

/-- Copying from a table that is right keeps all distances right. -/
lemma IsTreeTable.record {table trees : Grid (WithTop ℚ)} (h : IsTreeTable a b cost trees)
    (hi : i ≤ a.size) (hj : j ≤ b.size) (htable : IsForestTable a b cost i j table) :
    IsTreeTable a b cost (record a b table trees i j) where
  shape := (get_record h.shape hi hj).1
  distance s d hs hs' hd hd' :=
    isTreeDistance_get_record h.shape hi hj htable (.inl (h.distance s d hs hs' hd hd'))

end EditDistance

/-! ### Keyroots -/

namespace Numbering

variable {a : Numbering}

/-- What is collected are the numbers that are the last ones with their value of `first`.

**Proof sketch.** Induction on `i`, which runs downwards.  The number `i + 1` is the last one with
its value of `first`, unless this value has been seen; what is collected below it must have another
value. -/
lemma mem_collectKeyroots_iff {i k : ℕ} {seen found : List ℕ} :
    k ∈ a.collectKeyroots i seen found ↔ k ∈ found ∨
      1 ≤ k ∧ k ≤ i ∧ a.first k ∉ seen ∧ ∀ k', k < k' → k' ≤ i → a.first k' ≠ a.first k := by
  induction i generalizing seen found with
  | zero =>
    rw [collectKeyroots]
    exact ⟨.inl, fun h => h.resolve_right fun h => by omega⟩
  | succ i ih =>
    rw [collectKeyroots]
    -- the number `i + 1` is the last one with its value of `first`, unless that has been seen
    have hlast : ∀ {k : ℕ}, k ≤ i → ((∀ k', k < k' → k' ≤ i + 1 → a.first k' ≠ a.first k) ↔
        a.first (i + 1) ≠ a.first k ∧ ∀ k', k < k' → k' ≤ i → a.first k' ≠ a.first k) := by
      intro k hk
      refine ⟨fun h => ⟨h (i + 1) (by omega) le_rfl, fun k' h1 h2 => h k' h1 (by omega)⟩, ?_⟩
      rintro ⟨hne, h⟩ k' h1 h2
      rcases Nat.lt_succ_iff_lt_or_eq.1 (Nat.lt_succ_of_le h2) with h2 | rfl
      · exact h k' h1 (by omega)
      · exact hne
    split
    · next hseen =>
      rw [List.contains_iff_mem] at hseen
      rw [ih]
      refine or_congr_right ⟨?_, ?_⟩
      · rintro ⟨h1, h2, h3, h4⟩
        exact ⟨h1, by omega, h3, (hlast h2).2 ⟨fun e => h3 (e ▸ hseen), h4⟩⟩
      · rintro ⟨h1, h2, h3, h4⟩
        have hne : k ≠ i + 1 := fun e => h3 (e ▸ hseen)
        have hle : k ≤ i := by omega
        exact ⟨h1, hle, h3, ((hlast hle).1 h4).2⟩
    · next hseen =>
      rw [List.contains_iff_mem] at hseen
      rw [ih, List.mem_cons, List.mem_cons, not_or]
      constructor
      · rintro ((rfl | h) | ⟨h1, h2, ⟨h3, h4⟩, h5⟩)
        · exact .inr ⟨by omega, le_rfl, hseen, fun k' h1 h2 => by omega⟩
        · exact .inl h
        · exact .inr ⟨h1, by omega, h4, (hlast h2).2 ⟨Ne.symm h3, h5⟩⟩
      · rintro (h | ⟨h1, h2, h3, h4⟩)
        · exact .inl (.inr h)
        · rcases Nat.lt_succ_iff_lt_or_eq.1 (Nat.lt_succ_of_le h2) with h2 | rfl
          · have hle : k ≤ i := by omega
            obtain ⟨hne, h5⟩ := (hlast hle).1 h4
            exact .inr ⟨h1, hle, ⟨Ne.symm hne, h3⟩, h5⟩
          · exact .inl (.inl rfl)

/-- **The keyroots are the numbers that are the last ones with their value of `first`.** -/
lemma mem_keyroots_iff {k : ℕ} : k ∈ a.keyroots ↔
    1 ≤ k ∧ k ≤ a.size ∧ ∀ k', k < k' → k' ≤ a.size → a.first k' ≠ a.first k := by
  rw [keyroots, mem_collectKeyroots_iff]
  simp

/-- The keyroots are in increasing order.

**Proof sketch.** Numbers are collected downwards, and each one is put in front of larger ones. -/
lemma pairwise_keyroots : a.keyroots.Pairwise (· < ·) := by
  have hcollect : ∀ (i : ℕ) (seen found : List ℕ), found.Pairwise (· < ·) →
      (∀ k ∈ found, i < k) → (a.collectKeyroots i seen found).Pairwise (· < ·) := by
    intro i
    induction i with
    | zero => exact fun seen found hsorted _ => hsorted
    | succ i ih =>
      intro seen found hsorted hlt
      rw [collectKeyroots]
      split
      · exact ih seen found hsorted fun k hk => Nat.lt_of_succ_lt (hlt k hk)
      · refine ih _ _ (List.pairwise_cons.2 ⟨hlt, hsorted⟩) fun k hk => ?_
        rcases List.mem_cons.1 hk with rfl | hk
        · exact Nat.lt_succ_self i
        · exact Nat.lt_of_succ_lt (hlt k hk)
  exact hcollect a.size [] [] .nil (by simp)

/-- Every number belongs to a keyroot: the last number with the same value of `first`. -/
lemma exists_keyroot {s : ℕ} (hs : 1 ≤ s) (hs' : s ≤ a.size) :
    ∃ k ∈ a.keyroots, s ≤ k ∧ a.first s = a.first k := by
  refine ⟨Nat.findGreatest (fun k => a.first k = a.first s) a.size, ?_,
    Nat.le_findGreatest hs' rfl, (Nat.findGreatest_spec (P := fun k => a.first k = a.first s)
      hs' rfl).symm⟩
  have hspec := Nat.findGreatest_spec (P := fun k => a.first k = a.first s) hs' rfl
  refine mem_keyroots_iff.2 ⟨hs.trans (Nat.le_findGreatest hs' rfl), Nat.findGreatest_le _, ?_⟩
  intro k' hlt hle heq
  exact Nat.findGreatest_is_greatest hlt hle (heq.trans hspec)

/-- The keyroot of a number within the subtree of a keyroot is not larger. -/
lemma Laminar.keyroot_le (ha : a.Laminar) {i k s : ℕ} (hi : i ∈ a.keyroots) (hk : k ∈ a.keyroots)
    (hs : a.first i ≤ s) (hs' : s ≤ i) (hfirst : a.first s = a.first k) : k ≤ i := by
  obtain ⟨hi1, hi2, hlast⟩ := mem_keyroots_iff.1 hi
  obtain ⟨-, hk2, -⟩ := mem_keyroots_iff.1 hk
  by_contra hlt
  have hpos := ha.first_pos i hi1 hi2
  have hfs := a.first_le s
  have h1 := ha.nested i s hi2 hs hs' (by omega)
  have h2 := ha.nested k i hk2 (by omega) (by omega) hi1
  exact hlast k (by omega) hk2 (by omega)

end Numbering

/-! ### All tables -/

namespace EditDistance

variable {a b : Numbering} {cost : WithTop ℚ}

/-- One of the given keyroots is that of the number. -/
def Covered (a : Numbering) (keyroots : List ℕ) (s : ℕ) : Prop :=
  ∃ k ∈ keyroots, s ≤ k ∧ a.first s = a.first k

variable (a b cost) in
/-- The distances of the subtrees that belong to the given keyroots are right. -/
def RightFor (trees : Grid (WithTop ℚ)) (rows cols : List ℕ) : Prop :=
  ∀ s d, 1 ≤ s → 1 ≤ d → Covered a rows s → Covered b cols d →
    IsTreeDistance a b cost s d (trees.get s d)

/-- For no rows there is nothing to be right. -/
lemma rightFor_nil_left {trees : Grid (WithTop ℚ)} {cols : List ℕ} :
    RightFor a b cost trees [] cols := by
  rintro s d - - ⟨k, hk, -⟩
  cases hk

/-- For no columns there is nothing to be right. -/
lemma rightFor_nil_right {trees : Grid (WithTop ℚ)} {rows : List ℕ} :
    RightFor a b cost trees rows [] := by
  rintro s d - - - ⟨k, hk, -⟩
  cases hk

/-- What is right for two lists of rows is right for both together. -/
lemma RightFor.append {trees : Grid (WithTop ℚ)} {rows rows' cols : List ℕ}
    (h : RightFor a b cost trees rows cols) (h' : RightFor a b cost trees rows' cols) :
    RightFor a b cost trees (rows ++ rows') cols := by
  rintro s d hs hd ⟨k, hk, hsk⟩ hcd
  rcases List.mem_append.1 hk with hk | hk
  · exact h s d hs hd ⟨k, hk, hsk⟩ hcd
  · exact h' s d hs hd ⟨k, hk, hsk⟩ hcd

/-- The keyroot of a number within the subtree of a keyroot is that keyroot or one before it.

**Proof sketch.** The keyroot of the number is not larger than `i`, because subtrees are nested, and
keyroots are in increasing order. -/
lemma covered_of_split (ha : a.Laminar) {done rest : List ℕ} {i s : ℕ}
    (hsplit : a.keyroots = done ++ i :: rest) (hs : a.first i ≤ s) (hs' : s ≤ i) (hs1 : 1 ≤ s) :
    Covered a done s ∨ a.first s = a.first i := by
  have hi : i ∈ a.keyroots := hsplit ▸ List.mem_append_right _ (List.mem_cons_self ..)
  have hsize := (Numbering.mem_keyroots_iff.1 hi).2.1
  obtain ⟨k, hk, hsk, hfirst⟩ := Numbering.exists_keyroot hs1 (hs'.trans hsize)
  have hle := ha.keyroot_le hi hk hs hs' hfirst
  have hsorted := a.pairwise_keyroots
  rw [hsplit] at hk hsorted
  rcases List.mem_append.1 hk with hk | hk
  · exact .inl ⟨k, hk, hsk, hfirst⟩
  · rcases List.mem_cons.1 hk with rfl | hk
    · exact .inr hfirst
    · have hlt := (List.pairwise_cons.1 (List.pairwise_append.1 hsorted).2.1).1 k hk
      omega

variable (a b cost) in
/-- The distances are right for all keyroots in `done` and, together with `i`, for those in
`done'`. -/
structure RowProgress (done : List ℕ) (i : ℕ) (done' : List ℕ) (trees : Grid (WithTop ℚ)) :
    Prop where
  shape : trees.HasShape (a.size + 1) (b.size + 1)
  rows : RightFor a b cost trees done b.keyroots
  row : RightFor a b cost trees [i] done'

/-- **The turn of one pair of keyroots.**

**Proof sketch.** The table of the two subtrees is filled from distances of pairs of which the
keyroots are not larger and not both the same; these are right. -/
lemma RowProgress.step (ha : a.Laminar) (hb : b.Laminar) {done rest done' rest' : List ℕ} {i j : ℕ}
    (hsplit : a.keyroots = done ++ i :: rest) (hsplit' : b.keyroots = done' ++ j :: rest')
    {trees : Grid (WithTop ℚ)} (h : RowProgress a b cost done i done' trees) :
    RowProgress a b cost done i (done' ++ [j])
      (record a b (forestTable a b cost trees i j) trees i j) := by
  have hi : i ∈ a.keyroots := hsplit ▸ List.mem_append_right _ (List.mem_cons_self ..)
  have hj : j ∈ b.keyroots := hsplit' ▸ List.mem_append_right _ (List.mem_cons_self ..)
  obtain ⟨hi1, hi2, -⟩ := Numbering.mem_keyroots_iff.1 hi
  obtain ⟨hj1, hj2, -⟩ := Numbering.mem_keyroots_iff.1 hj
  have hfi := ha.first_pos i hi1 hi2
  have hfj := hb.first_pos j hj1 hj2
  have hsmaller : ∀ s d, a.first i ≤ s → s ≤ i → b.first j ≤ d → d ≤ j →
      ¬(a.first s = a.first i ∧ b.first d = b.first j) →
      IsTreeDistance a b cost s d (trees.get s d) := by
    intro s d hs hsi hd hdj hpart
    have hs1 : 1 ≤ s := by omega
    have hd1 : 1 ≤ d := by omega
    rcases covered_of_split ha hsplit hs hsi hs1 with hcs | hfs
    · exact h.rows s d hs1 hd1 hcs (Numbering.exists_keyroot hd1 (hdj.trans hj2))
    · rcases covered_of_split hb hsplit' hd hdj hd1 with hcd | hfd
      · exact h.row s d hs1 hd1 ⟨i, List.mem_singleton_self i, hsi, hfs⟩ hcd
      · exact absurd ⟨hfs, hfd⟩ hpart
  have hkeep := fun s d => isTreeDistance_get_record (s := s) (d := d) h.shape hi2 hj2
    (isForestTable_forestTable ha hb ⟨hi1, hi2⟩ ⟨hj1, hj2⟩ hsmaller)
  refine ⟨(get_record h.shape hi2 hj2).1, ?_, ?_⟩
  · intro s d hs hd hcs hcd
    exact hkeep s d (.inl (h.rows s d hs hd hcs hcd))
  · rintro s d hs hd hcs ⟨k, hk, hdk, hfd⟩
    rcases List.mem_append.1 hk with hk | hk
    · exact hkeep s d (.inl (h.row s d hs hd hcs ⟨k, hk, hdk, hfd⟩))
    · obtain rfl := List.mem_singleton.1 hk
      obtain ⟨k', hk', hsk, hfs⟩ := hcs
      obtain rfl := List.mem_singleton.1 hk'
      have hfs' := a.first_le s
      have hfd' := b.first_le d
      exact hkeep s d (.inr ⟨⟨by omega, hsk, hfs⟩, by omega, hdk, hfd⟩)

/-- **In the end the distances of all subtrees are right.**

**Proof sketch.** The keyroots are taken in increasing order, so that induction along both loops
applies: the inner loop keeps what is right for the keyroots before `i` and fills the row of
`i`. -/
theorem isTreeTable_solve (ha : a.Laminar) (hb : b.Laminar) :
    IsTreeTable a b cost (solve a b cost (blank a b)) := by
  have hsolve : (solve a b cost (blank a b)).HasShape (a.size + 1) (b.size + 1) ∧
      RightFor a b cost (solve a b cost (blank a b)) a.keyroots b.keyroots := by
    refine foldl_prefix_induction (I := fun done (trees : Grid (WithTop ℚ)) =>
      trees.HasShape (a.size + 1) (b.size + 1) ∧ RightFor a b cost trees done b.keyroots)
      ⟨Grid.hasShape_fill .., rightFor_nil_left⟩ ?_
    rintro done i rest trees hsplit ⟨hshape, hdone⟩
    have hrow : RowProgress a b cost done i b.keyroots (b.keyroots.foldl
        (fun trees j => record a b (forestTable a b cost trees i j) trees i j) trees) :=
      foldl_prefix_induction (I := fun done' trees => RowProgress a b cost done i done' trees)
        ⟨hshape, hdone, rightFor_nil_right⟩
        fun _ _ _ _ hsplit' h => h.step ha hb hsplit hsplit'
    exact ⟨hrow.shape, hrow.rows.append hrow.row⟩
  refine ⟨hsolve.1, fun s d hs hs' hd hd' => ?_⟩
  exact hsolve.2 s d hs hd (Numbering.exists_keyroot hs hs') (Numbering.exists_keyroot hd hd')

/-- **The distance is the least cost of aligning the two trees.** -/
theorem isLeast_distance (ha : a.Laminar) (hb : b.Laminar) :
    IsLeast (a.forestCosts b cost 1 1 (a.size + 1) (b.size + 1)) (distance a b cost) := by
  have h : IsTreeDistance a b cost a.size b.size (distance a b cost) :=
    (isTreeTable_solve ha hb).distance a.size b.size ha.pos le_rfl hb.pos le_rfl
  rwa [IsTreeDistance, ha.root, hb.root] at h

end EditDistance

end TreeMatching
