import Mathlib.Data.List.Nodup
import TreeMatching.Proofs.Backtracking

set_option autoImplicit false

/-!
# Distances are written before they are read

The distances of pairs of subtrees are kept in one table, which is blank at first.  The table of two
subtrees is filled from some of its cells, and then some other cells are written.  This module
follows the cells through the two loops over the keyroots and through the search for an edit script.
Whatever the arithmetic, a cell is never read while it is blank, and writing it again changes
nothing.

## Main definitions

* `EditDistance.Reads`, `EditDistance.Writes` — the cells that are read and written for two
  subtrees.
* `EditDistance.turn`, `EditDistance.turns` — dealing with two subtrees, and the pairs of subtrees
  that the loops over the keyroots deal with.
* `EditDistance.Agree` — two tables hold the same distances.
* `EditDistance.forestCell` — a cell of the table of two subtrees, by recursion and without a table.
* `EditDistance.FillsInOrder`, `Script.FindsFilled` — what is true of the loops, and of the search.

## Main results

* `EditDistance.forestTable_congr` — only the cells that are read matter for a table.
* `EditDistance.exists_writes_before` — what is read in a turn is written in an earlier one.
* `EditDistance.get_foldl_turn_congr` — the distances do not depend on what the cells hold at first.
* `EditDistance.get_turn_of_agree` — a turn of any two subtrees, taken later, changes nothing.
* `distances_are_written_before_they_are_read` — the results together, for trees numbered from the
  left and from the right.
-/

namespace TreeMatching

namespace EditDistance

section Cells

variable (a b : Numbering)

/-- The table of the subtrees at the numbers of `c` is filled from the distance of the subtrees at
`s` and `d`: these lie within the two, and do not both begin where the two begin. -/
def Reads (c : ℕ × ℕ) (s d : ℕ) : Prop :=
  (a.first c.1 ≤ s ∧ s ≤ c.1) ∧ (b.first c.2 ≤ d ∧ d ≤ c.2) ∧
    ¬(a.first s = a.first c.1 ∧ b.first d = b.first c.2)

/-- The distance of the subtrees at `s` and `d` is copied from the table of the subtrees at the
numbers of `c`: these lie within the two and begin where the two begin. -/
def Writes (c : ℕ × ℕ) (s d : ℕ) : Prop := OnSpine a c.1 s ∧ OnSpine b c.2 d

/-- The pairs of keyroots in the order in which they are dealt with. -/
def turns : List (ℕ × ℕ) := a.keyroots.flatMap fun i => b.keyroots.map fun j => (i, j)

/-- The two tables hold the same distances of subtrees. -/
def Agree {κ : Type} (trees trees' : Grid κ) : Prop :=
  ∀ s d, 1 ≤ s → s ≤ a.size → 1 ≤ d → d ≤ b.size → trees.get s d = trees'.get s d

variable {κ : Type} [Cost κ] (cost : κ)

/-- Fills the table of two subtrees and copies distances from it. -/
def turn (trees : Grid κ) (c : ℕ × ℕ) : Grid κ :=
  record a b (forestTable a b cost trees c.1 c.2) trees c.1 c.2

end Cells

/-- A cell of the table of two subtrees that begin with the numbers `l` and `l'`.  It does not
matter where the subtrees end. -/
def forestCell {κ : Type} [Cost κ] (a b : Numbering) (cost : κ) (trees : Grid κ) (l l' : ℕ) :
    ℕ → ℕ → κ
  | 0, 0 => Cost.zero
  | x + 1, 0 => Cost.add (forestCell a b cost trees l l' x 0) Cost.one
  | 0, y + 1 => Cost.add (forestCell a b cost trees l l' 0 y) Cost.one
  | x + 1, y + 1 =>
    Cost.least
      (Cost.least (Cost.add (forestCell a b cost trees l l' x (y + 1)) Cost.one)
        (Cost.add (forestCell a b cost trees l l' (x + 1) y) Cost.one))
      (if a.first (l + x) = l ∧ b.first (l' + y) = l' then
        Cost.add (forestCell a b cost trees l l' x y) (relabel a b cost (l + x) (l' + y))
      else
        Cost.add (forestCell a b cost trees l l' (a.first (l + x) - l) (b.first (l' + y) - l'))
          (trees.get (l + x) (l' + y)))
termination_by x y => x + y
decreasing_by
  all_goals try omega
  have := a.first_le (l + x)
  have := b.first_le (l' + y)
  omega

variable {κ : Type} [Cost κ] {a b : Numbering} {cost : κ} {c : ℕ × ℕ} {s d i j : ℕ}

/-! ### One turn -/

/-- **Only the cells that are read matter for a table.**

**Proof sketch.** Cell by cell.  Only a cell that is not on the border and whose forests are not
both whole trees reads a distance, at the place of its last nodes. -/
lemma forestTable_congr {trees trees' : Grid κ}
    (h : ∀ s d, Reads a b (i, j) s d → trees.get s d = trees'.get s d) :
    forestTable a b cost trees i j = forestTable a b cost trees' i j := by
  have hfi := a.first_le i
  have hfj := b.first_le j
  unfold forestTable
  refine Grid.build_congr fun f x y hx hy => ?_
  match x, y with
  | 0, 0 | _ + 1, 0 | 0, _ + 1 => rfl
  | x + 1, y + 1 =>
    dsimp only
    split
    · rfl
    · -- the only case in which a distance is read
      next hpart =>
      have hs : a.first i + x ≤ i := by omega
      have hd : b.first j + y ≤ j := by omega
      rw [h (a.first i + x) (b.first j + y)
        ⟨⟨Nat.le_add_right _ _, hs⟩, ⟨Nat.le_add_right _ _, hd⟩, hpart⟩]

/-- **The cells of a table satisfy their recursive equations.**

**Proof sketch.** Induction along the order in which the table is filled.  Each equation refers to
cells that come earlier: above, to the left, and at the starts of the last trees. -/
lemma get_forestTable (trees : Grid κ) {x y : ℕ} (hx : x < i - a.first i + 2)
    (hy : y < j - b.first j + 2) :
    (forestTable a b cost trees i j).get x y =
      forestCell a b cost trees (a.first i) (b.first j) x y := by
  refine Grid.build_induction (P := fun x y v =>
    v = forestCell a b cost trees (a.first i) (b.first j) x y) ?_ x hx y hy
  intro f x y hx hy hprev
  match x, y with
  | 0, 0 => rw [forestCell]
  | x + 1, 0 => rw [forestCell, ← hprev x 0 (by omega) hy (.inl (by omega))]
  | 0, y + 1 => rw [forestCell, ← hprev 0 y hx (by omega) (.inr ⟨rfl, by omega⟩)]
  | x + 1, y + 1 =>
    have hs := a.first_le (a.first i + x)
    have hd := b.first_le (b.first j + y)
    rw [forestCell, ← hprev x (y + 1) (by omega) hy (.inl (by omega)),
      ← hprev (x + 1) y hx (by omega) (.inr ⟨rfl, by omega⟩),
      ← hprev x y (by omega) (by omega) (.inl (by omega)),
      ← hprev (a.first (a.first i + x) - a.first i) (b.first (b.first j + y) - b.first j)
        (by omega) (by omega) (.inl (by omega))]

/-- A turn does not change the shape of the table. -/
lemma hasShape_turn {trees : Grid κ} (h : trees.HasShape (a.size + 1) (b.size + 1))
    (hc : a.InRange b c) : (turn a b cost trees c).HasShape (a.size + 1) (b.size + 1) :=
  (get_record h hc.1.2 hc.2.2).1

/-- What a turn writes is copied from its table. -/
lemma get_turn_of_writes {trees : Grid κ} (h : trees.HasShape (a.size + 1) (b.size + 1))
    (hc : a.InRange b c) (hw : Writes a b c s d) :
    (turn a b cost trees c).get s d =
      (forestTable a b cost trees c.1 c.2).get (s + 1 - a.first c.1) (d + 1 - b.first c.2) :=
  ((get_record h hc.1.2 hc.2.2).2 s d).trans (if_pos hw)

/-- A turn leaves the cells alone that it does not write. -/
lemma get_turn_of_not_writes {trees : Grid κ} (h : trees.HasShape (a.size + 1) (b.size + 1))
    (hc : a.InRange b c) (hw : ¬Writes a b c s d) :
    (turn a b cost trees c).get s d = trees.get s d :=
  ((get_record h hc.1.2 hc.2.2).2 s d).trans (if_neg hw)

/-- A cell holds the same after a turn if the cells that are read did before, and the cell itself,
unless it is written. -/
lemma get_turn_congr {trees trees' : Grid κ} (h : trees.HasShape (a.size + 1) (b.size + 1))
    (h' : trees'.HasShape (a.size + 1) (b.size + 1)) (hc : a.InRange b c)
    (hread : ∀ s d, Reads a b c s d → trees.get s d = trees'.get s d)
    (hkeep : ¬Writes a b c s d → trees.get s d = trees'.get s d) :
    (turn a b cost trees c).get s d = (turn a b cost trees' c).get s d := by
  by_cases hw : Writes a b c s d
  · rw [get_turn_of_writes h hc hw, get_turn_of_writes h' hc hw, forestTable_congr hread]
  · rw [get_turn_of_not_writes h hc hw, get_turn_of_not_writes h' hc hw, hkeep hw]

/-! ### The order of the turns -/

/-- There is a turn for every two keyroots. -/
lemma mem_turns_iff : c ∈ turns a b ↔ c.1 ∈ a.keyroots ∧ c.2 ∈ b.keyroots := by
  obtain ⟨i, j⟩ := c
  simp [turns]

/-- All turns are for subtrees of the two trees. -/
lemma inRange_of_mem_turns (h : c ∈ turns a b) : a.InRange b c := by
  obtain ⟨hi, hj⟩ := mem_turns_iff.1 h
  obtain ⟨hi1, hi2, -⟩ := Numbering.mem_keyroots_iff.1 hi
  obtain ⟨hj1, hj2, -⟩ := Numbering.mem_keyroots_iff.1 hj
  exact ⟨⟨hi1, hi2⟩, hj1, hj2⟩

variable (a b cost) in
/-- The two loops over the keyroots take one turn after the other. -/
lemma solve_eq_foldl_turn (trees : Grid κ) :
    solve a b cost trees = (turns a b).foldl (turn a b cost) trees := by
  rw [turns, List.foldl_flatMap]
  simp only [List.foldl_map]
  rfl

variable (a b) in
/-- The turns are in lexicographic order. -/
lemma pairwise_turns :
    (turns a b).Pairwise fun c c' => c.1 < c'.1 ∨ c.1 = c'.1 ∧ c.2 < c'.2 := by
  rw [turns, List.pairwise_flatMap]
  constructor
  · intro i _
    rw [List.pairwise_map]
    exact b.pairwise_keyroots.imp fun hlt => .inr ⟨rfl, hlt⟩
  · refine a.pairwise_keyroots.imp fun {i i'} hlt c hc c' hc' => .inl ?_
    obtain ⟨j, -, rfl⟩ := List.mem_map.1 hc
    obtain ⟨j', -, rfl⟩ := List.mem_map.1 hc'
    exact hlt

/-- No turn is taken twice. -/
lemma nodup_turns : (turns a b).Nodup :=
  (pairwise_turns a b).imp fun {c c'} h heq => by
    subst heq
    omega

/-- The numbers whose distances are read in a turn are numbers of nodes. -/
lemma Reads.bounds (ha : a.Laminar) (hb : b.Laminar) (hc : a.InRange b c)
    (h : Reads a b c s d) : (1 ≤ s ∧ s ≤ a.size) ∧ 1 ≤ d ∧ d ≤ b.size := by
  obtain ⟨⟨h1, h2⟩, ⟨h3, h4⟩, -⟩ := h
  have hi := ha.first_pos c.1 hc.1.1 hc.1.2
  have hj := hb.first_pos c.2 hc.2.1 hc.2.2
  exact ⟨⟨by omega, h2.trans hc.1.2⟩, by omega, h4.trans hc.2.2⟩

/-- A number belongs to the spine of its keyroot. -/
lemma exists_keyroot_onSpine (hs : 1 ≤ s) (hs' : s ≤ a.size) :
    ∃ k ∈ a.keyroots, OnSpine a k s := by
  obtain ⟨k, hk, hle, hfirst⟩ := Numbering.exists_keyroot hs hs'
  exact ⟨k, hk, hfirst ▸ a.first_le s, hle, hfirst⟩

/-- Every cell is written in one of the turns. -/
lemma exists_mem_turns_writes (hs : 1 ≤ s) (hs' : s ≤ a.size) (hd : 1 ≤ d) (hd' : d ≤ b.size) :
    ∃ c ∈ turns a b, Writes a b c s d := by
  obtain ⟨k, hk, hsk⟩ := exists_keyroot_onSpine hs hs'
  obtain ⟨l, hl, hdl⟩ := exists_keyroot_onSpine hd hd'
  exact ⟨(k, l), mem_turns_iff.2 ⟨hk, hl⟩, hsk, hdl⟩

/-- A number belongs to the spine of one keyroot only. -/
lemma keyroot_unique {k k' : ℕ} (hk : k ∈ a.keyroots) (hk' : k' ∈ a.keyroots) (h : OnSpine a k s)
    (h' : OnSpine a k' s) : k = k' := by
  obtain ⟨-, hle, hlast⟩ := Numbering.mem_keyroots_iff.1 hk
  obtain ⟨-, hle', hlast'⟩ := Numbering.mem_keyroots_iff.1 hk'
  have hfirst : a.first k = a.first k' := h.2.2.symm.trans h'.2.2
  rcases lt_trichotomy k k' with hlt | heq | hlt
  · exact absurd hfirst.symm (hlast k' hlt hle')
  · exact heq
  · exact absurd hfirst (hlast' k hlt hle)

/-- No cell is written in two turns. -/
lemma writes_unique {c c' : ℕ × ℕ} (hc : c ∈ turns a b) (hc' : c' ∈ turns a b)
    (h : Writes a b c s d) (h' : Writes a b c' s d) : c = c' := by
  obtain ⟨hi, hj⟩ := mem_turns_iff.1 hc
  obtain ⟨hi', hj'⟩ := mem_turns_iff.1 hc'
  exact Prod.ext (keyroot_unique hi hi' h.1 h'.1) (keyroot_unique hj hj' h.2 h'.2)

/-- **What is read in a turn is written in an earlier one.**

**Proof sketch.** The keyroots of two numbers within the subtrees of two keyroots are not larger
than these, and not both the same, since otherwise both subtrees would begin where those of the
keyroots begin.  So their turn comes first. -/
theorem exists_writes_before (ha : a.Laminar) (hb : b.Laminar) {done rest : List (ℕ × ℕ)}
    (hsplit : turns a b = done ++ c :: rest) (hread : Reads a b c s d) :
    ∃ c' ∈ done, Writes a b c' s d := by
  have hc : c ∈ turns a b := hsplit ▸ List.mem_append_right _ (List.mem_cons_self ..)
  obtain ⟨hi, hj⟩ := mem_turns_iff.1 hc
  obtain ⟨⟨hs, hs'⟩, hd, hd'⟩ := hread.bounds ha hb (inRange_of_mem_turns hc)
  obtain ⟨⟨k, l⟩, hkl, hwrite⟩ := exists_mem_turns_writes hs hs' hd hd'
  obtain ⟨hk, hl⟩ := mem_turns_iff.1 hkl
  have hki := ha.keyroot_le hi hk hread.1.1 hread.1.2 hwrite.1.2.2
  have hlj := hb.keyroot_le hj hl hread.2.1.1 hread.2.1.2 hwrite.2.2.2
  have horder := pairwise_turns a b
  rw [hsplit] at hkl horder
  rcases List.mem_append.1 hkl with hkl | hkl
  · exact ⟨(k, l), hkl, hwrite⟩
  · rcases List.mem_cons.1 hkl with heq | hkl
    · subst heq
      exact absurd ⟨hwrite.1.2.2, hwrite.2.2.2⟩ hread.2.2
    · have hlater := (List.pairwise_cons.1 (List.pairwise_append.1 horder).2.1).1 _ hkl
      dsimp only at hlater
      omega

/-! ### All turns -/

/-- However many turns are taken, the table keeps its shape. -/
lemma hasShape_foldl_turn {trees : Grid κ} (h : trees.HasShape (a.size + 1) (b.size + 1))
    {cs : List (ℕ × ℕ)} (hcs : ∀ c ∈ cs, a.InRange b c) :
    (cs.foldl (turn a b cost) trees).HasShape (a.size + 1) (b.size + 1) := by
  induction cs generalizing trees with
  | nil => exact h
  | cons c cs ih =>
    obtain ⟨hc, hcs⟩ := List.forall_mem_cons.1 hcs
    exact ih (hasShape_turn h hc) hcs

/-- Turns that do not write a cell leave it alone. -/
lemma get_foldl_turn_of_not_writes {trees : Grid κ}
    (h : trees.HasShape (a.size + 1) (b.size + 1)) {cs : List (ℕ × ℕ)}
    (hcs : ∀ c ∈ cs, a.InRange b c) (hnot : ∀ c ∈ cs, ¬Writes a b c s d) :
    (cs.foldl (turn a b cost) trees).get s d = trees.get s d := by
  induction cs generalizing trees with
  | nil => rfl
  | cons c cs ih =>
    obtain ⟨hc, hcs⟩ := List.forall_mem_cons.1 hcs
    obtain ⟨hc', hnot⟩ := List.forall_mem_cons.1 hnot
    exact (ih (hasShape_turn h hc) hcs hnot).trans (get_turn_of_not_writes h hc hc')

/-- What has been written in a turn is not written again in a later one. -/
lemma get_solve_of_written {trees : Grid κ} (h : trees.HasShape (a.size + 1) (b.size + 1))
    {done rest : List (ℕ × ℕ)} (hsplit : turns a b = done ++ rest)
    (hwritten : ∃ c ∈ done, Writes a b c s d) :
    (solve a b cost trees).get s d = (done.foldl (turn a b cost) trees).get s d := by
  obtain ⟨c, hc, hwrite⟩ := hwritten
  have hmem : ∀ c' ∈ done ++ rest, a.InRange b c' := fun c' hc' =>
    inRange_of_mem_turns (hsplit ▸ hc')
  obtain ⟨hdone, hrest⟩ := List.forall_mem_append.1 hmem
  rw [solve_eq_foldl_turn, hsplit, List.foldl_append]
  refine get_foldl_turn_of_not_writes (hasShape_foldl_turn h hdone) hrest fun c' hc' hwrite' => ?_
  have hnodup := nodup_turns (a := a) (b := b)
  obtain rfl : c = c' := writes_unique (hsplit ▸ List.mem_append_left _ hc)
    (hsplit ▸ List.mem_append_right _ hc') hwrite hwrite'
  rw [hsplit] at hnodup
  exact List.disjoint_of_nodup_append hnodup hc hc'

/-- **The distances do not depend on what the cells hold at first.**

**Proof sketch.** Induction on the turns taken so far, all of whose cells agree.  The next turn
reads such cells only, so it fills the same table from both and writes the same distances. -/
theorem get_foldl_turn_congr (ha : a.Laminar) (hb : b.Laminar) {trees trees' : Grid κ}
    (h : trees.HasShape (a.size + 1) (b.size + 1)) (h' : trees'.HasShape (a.size + 1) (b.size + 1))
    {done rest : List (ℕ × ℕ)} (hsplit : turns a b = done ++ rest)
    (hwritten : ∃ c ∈ done, Writes a b c s d) :
    (done.foldl (turn a b cost) trees).get s d = (done.foldl (turn a b cost) trees').get s d := by
  induction done using List.reverseRecOn generalizing rest s d with
  | nil =>
    obtain ⟨c, hc, -⟩ := hwritten
    cases hc
  | append_singleton done c ih =>
    rw [List.append_assoc, List.singleton_append] at hsplit
    have hmem : ∀ c' ∈ done ++ c :: rest, a.InRange b c' := fun c' hc' =>
      inRange_of_mem_turns (hsplit ▸ hc')
    obtain ⟨hdone, hrest⟩ := List.forall_mem_append.1 hmem
    rw [List.foldl_append, List.foldl_append, List.foldl_cons, List.foldl_cons, List.foldl_nil,
      List.foldl_nil]
    refine get_turn_congr (hasShape_foldl_turn h hdone) (hasShape_foldl_turn h' hdone)
      (hrest c (List.mem_cons_self ..))
      (fun s d hread => ih hsplit (exists_writes_before ha hb hsplit hread)) fun hw => ?_
    obtain ⟨c', hc', hw'⟩ := hwritten
    rcases List.mem_append.1 hc' with hc' | hc'
    · exact ih hsplit ⟨c', hc', hw'⟩
    · obtain rfl := List.mem_singleton.1 hc'
      exact absurd hw' hw

/-- **The result does not depend on what the table held at the beginning**: every cell for two
subtrees has been written by some turn. -/
lemma agree_solve (ha : a.Laminar) (hb : b.Laminar) {trees trees' : Grid κ}
    (h : trees.HasShape (a.size + 1) (b.size + 1))
    (h' : trees'.HasShape (a.size + 1) (b.size + 1)) :
    Agree a b (solve a b cost trees) (solve a b cost trees') := by
  intro s d hs hs' hd hd'
  rw [solve_eq_foldl_turn, solve_eq_foldl_turn]
  exact get_foldl_turn_congr ha hb h h' (List.append_nil _).symm
    (exists_mem_turns_writes hs hs' hd hd')

omit [Cost κ] in
/-- Tables that agree do so in the cells that are read. -/
lemma Agree.of_reads (ha : a.Laminar) (hb : b.Laminar) {trees trees' : Grid κ}
    (h : Agree a b trees trees') (hc : a.InRange b c) (hread : Reads a b c s d) :
    trees.get s d = trees'.get s d := by
  obtain ⟨⟨hs, hs'⟩, hd, hd'⟩ := hread.bounds ha hb hc
  exact h s d hs hs' hd hd'

/-- Tables that agree do so after the same turn. -/
lemma Agree.turn (ha : a.Laminar) (hb : b.Laminar) {trees trees' : Grid κ}
    (h : Agree a b trees trees') (hshape : trees.HasShape (a.size + 1) (b.size + 1))
    (hshape' : trees'.HasShape (a.size + 1) (b.size + 1)) (hc : a.InRange b c) :
    Agree a b (turn a b cost trees c) (turn a b cost trees' c) := fun s d hs hs' hd hd' =>
  get_turn_congr hshape hshape' hc (fun _ _ => h.of_reads ha hb hc) fun _ => h s d hs hs' hd hd'

/-- A distance that is copied in a turn is, in the end, that in the table of the turn.

**Proof sketch.** What the turn reads has been written before, so that the table of the turn is the
one computed from the finished grid.  What it writes is not changed later. -/
lemma get_solve_of_writes (ha : a.Laminar) (hb : b.Laminar) {start : Grid κ}
    (h : start.HasShape (a.size + 1) (b.size + 1)) (hc : c ∈ turns a b) (hw : Writes a b c s d) :
    (solve a b cost start).get s d =
      (forestTable a b cost (solve a b cost start) c.1 c.2).get (s + 1 - a.first c.1)
        (d + 1 - b.first c.2) := by
  obtain ⟨done, rest, hsplit⟩ := List.append_of_mem hc
  have hdone : ∀ c' ∈ done, a.InRange b c' := fun c' hc' =>
    inRange_of_mem_turns (hsplit ▸ List.mem_append_left _ hc')
  -- all that the turn reads is final when it comes
  have htable : forestTable a b cost (solve a b cost start) c.1 c.2 =
      forestTable a b cost (done.foldl (turn a b cost) start) c.1 c.2 :=
    forestTable_congr fun s d hread =>
      get_solve_of_written h hsplit (exists_writes_before ha hb hsplit hread)
  have hwritten : (solve a b cost start).get s d =
      ((done ++ [c]).foldl (turn a b cost) start).get s d :=
    get_solve_of_written h (hsplit.trans (List.append_cons done c rest))
      ⟨c, List.mem_append_right _ (List.mem_singleton_self c), hw⟩
  rw [hwritten, htable, List.foldl_append]
  exact get_turn_of_writes (hasShape_foldl_turn h hdone) (inRange_of_mem_turns hc) hw

/-- The table of two subtrees is a part of that of two larger ones that begin with the same
numbers. -/
lemma get_forestTable_of_first_eq {trees : Grid κ} {k l x y : ℕ} (hk : a.first i = a.first k)
    (hik : i ≤ k) (hl : b.first j = b.first l) (hjl : j ≤ l) (hx : x < i - a.first i + 2)
    (hy : y < j - b.first j + 2) :
    (forestTable a b cost trees i j).get x y = (forestTable a b cost trees k l).get x y := by
  rw [get_forestTable trees hx hy, get_forestTable trees (by omega) (by omega), hk, hl]

/-- **A later turn of any two subtrees changes nothing.**

**Proof sketch.** The cells that it writes belong to a pair of keyroots whose subtrees begin where
the two subtrees begin.  They were copied from the table of the keyroots, which was filled from the
same distances; and the table of the two subtrees is a part of it. -/
theorem get_turn_of_agree (ha : a.Laminar) (hb : b.Laminar) {start trees : Grid κ}
    (hstart : start.HasShape (a.size + 1) (b.size + 1))
    (htrees : trees.HasShape (a.size + 1) (b.size + 1))
    (hagree : Agree a b trees (solve a b cost start)) (hc : a.InRange b c) (s d : ℕ) :
    (turn a b cost trees c).get s d = trees.get s d := by
  by_cases hw : Writes a b c s d
  · obtain ⟨⟨hs, hsi, hsf⟩, hd, hdj, hdf⟩ := id hw
    have hi := ha.first_pos c.1 hc.1.1 hc.1.2
    have hj := hb.first_pos c.2 hc.2.1 hc.2.2
    obtain ⟨k, hk, -, hik, hfk⟩ := exists_keyroot_onSpine hc.1.1 hc.1.2
    obtain ⟨l, hl, -, hjl, hfl⟩ := exists_keyroot_onSpine hc.2.1 hc.2.2
    have hkeyroots : Writes a b (k, l) s d :=
      ⟨⟨hfk ▸ hs, hsi.trans hik, hsf.trans hfk⟩, hfl ▸ hd, hdj.trans hjl, hdf.trans hfl⟩
    calc (turn a b cost trees c).get s d
        = (forestTable a b cost trees c.1 c.2).get (s + 1 - a.first c.1) (d + 1 - b.first c.2) :=
          get_turn_of_writes htrees hc hw
      _ = (forestTable a b cost (solve a b cost start) c.1 c.2).get (s + 1 - a.first c.1)
            (d + 1 - b.first c.2) := by
          rw [forestTable_congr fun _ _ => hagree.of_reads ha hb hc]
      _ = (forestTable a b cost (solve a b cost start) k l).get (s + 1 - a.first k)
            (d + 1 - b.first l) := by
          rw [get_forestTable_of_first_eq hfk hik hfl hjl (by omega) (by omega), hfk, hfl]
      _ = (solve a b cost start).get s d :=
          (get_solve_of_writes ha hb hstart (mem_turns_iff.2 ⟨hk, hl⟩) hkeyroots).symm
      _ = trees.get s d :=
          (hagree s d (by omega) (hsi.trans hc.1.2) (by omega) (hdj.trans hc.2.2)).symm
  · exact get_turn_of_not_writes htrees hc hw

variable (a b cost) in
/-- The loops over the keyroots write every distance before it is read, whatever the arithmetic. -/
structure FillsInOrder : Prop where
  /-- The loops take one turn after the other. -/
  solve_eq : ∀ trees, solve a b cost trees = (turns a b).foldl (turn a b cost) trees
  /-- Only the cells that are read matter for the table of a turn. -/
  reads : ∀ c trees trees', (∀ s d, Reads a b c s d → trees.get s d = trees'.get s d) →
    forestTable a b cost trees c.1 c.2 = forestTable a b cost trees' c.1 c.2
  /-- A cell that is written in a turn receives what stands in the table of the turn. -/
  receives : ∀ c trees s d, a.InRange b c → trees.HasShape (a.size + 1) (b.size + 1) →
    Writes a b c s d → (turn a b cost trees c).get s d =
      (forestTable a b cost trees c.1 c.2).get (s + 1 - a.first c.1) (d + 1 - b.first c.2)
  /-- Only the cells that are written change in a turn; none of them is read. -/
  writes : ∀ c trees s d, a.InRange b c → trees.HasShape (a.size + 1) (b.size + 1) →
    ((turn a b cost trees c).get s d ≠ trees.get s d → Writes a b c s d) ∧
      ¬(Reads a b c s d ∧ Writes a b c s d)
  /-- Every distance is written in exactly one turn. -/
  once : (turns a b).Nodup ∧ ∀ s d, a.InRange b (s, d) → ∃! c, c ∈ turns a b ∧ Writes a b c s d
  /-- What is read in a turn has been written in an earlier one. -/
  before : ∀ done c rest, turns a b = done ++ c :: rest → ∀ s d, Reads a b c s d →
    ∃ c' ∈ done, Writes a b c' s d
  /-- It makes no difference what the table holds at first. -/
  start : ∀ trees trees' : Grid κ, trees.HasShape (a.size + 1) (b.size + 1) →
    trees'.HasShape (a.size + 1) (b.size + 1) →
      Agree a b (solve a b cost trees) (solve a b cost trees')
  /-- Dealing with two subtrees again, be they those of keyroots or not, changes nothing. -/
  again : ∀ c trees, a.InRange b c → trees.HasShape (a.size + 1) (b.size + 1) →
    Agree a b trees (solve a b cost (blank a b)) →
      ∀ s d, (turn a b cost trees c).get s d = trees.get s d

/-- **The loops over the keyroots write every distance before it is read.**

**Proof sketch.** The turns are one per pair of keyroots, and each field is one of the lemmas on
turns above.  What a turn writes and what it reads are told apart by whether both starts are those
of the keyroots. -/
theorem fillsInOrder (ha : a.Laminar) (hb : b.Laminar) : FillsInOrder a b cost where
  solve_eq := solve_eq_foldl_turn a b cost
  reads _ _ _ := forestTable_congr
  receives _ _ _ _ hc h := get_turn_of_writes h hc
  writes c trees s d hc h := by
    refine ⟨fun hne => ?_, fun hboth => hboth.1.2.2 ⟨hboth.2.1.2.2, hboth.2.2.2.2⟩⟩
    by_contra hw
    exact hne (get_turn_of_not_writes h hc hw)
  once := by
    refine ⟨nodup_turns, fun s d hsd => ?_⟩
    obtain ⟨c, hc, hw⟩ := exists_mem_turns_writes hsd.1.1 hsd.1.2 hsd.2.1 hsd.2.2
    exact ⟨c, ⟨hc, hw⟩, fun c' hc' => writes_unique hc'.1 hc hc'.2 hw⟩
  before _ _ _ hsplit _ _ := exists_writes_before ha hb hsplit
  start _ _ := agree_solve ha hb
  again _ _ hc h hagree := get_turn_of_agree ha hb (Grid.hasShape_fill ..) h hagree hc

end EditDistance

/-! ### The search for an edit script -/

namespace Script

open EditDistance

variable {a b : Numbering} {cost : WithTop ℚ}

/-- At every station between two problems the table holds the distances that the loops have left
there. -/
lemma Reached.agree (ha : a.Laminar) (hb : b.Laminar) {trees : Grid (WithTop ℚ)} {found : Findings}
    (h : Reached a b cost (.between trees found)) :
    Agree a b trees (solve a b cost (blank a b)) := by
  intro s d hs hs' hd hd'
  exact ((h.valid ha hb).1.distance s d hs hs' hd hd').unique
    ((isTreeTable_solve ha hb).distance s d hs hs' hd hd')

/-- **The search does not depend on what the table held before the loops.**

**Proof sketch.** Induction on the limit.  From tables that agree the same table of subtrees is
filled, so the same pairs are found and the same problems are put aside; and after the turn the
tables still agree. -/
lemma resolve_congr (ha : a.Laminar) (hb : b.Laminar) {limit : ℕ} {trees trees' : Grid (WithTop ℚ)}
    (htrees : IsTreeTable a b cost trees) (h' : trees'.HasShape (a.size + 1) (b.size + 1))
    (hagree : Agree a b trees' trees) (pairs : Array (NodeId × NodeId)) {pending : List (ℕ × ℕ)}
    (hpending : ∀ q ∈ pending, a.InRange b q) :
    resolve a b cost limit trees' ⟨pairs, pending⟩ =
      resolve a b cost limit trees ⟨pairs, pending⟩ := by
  induction limit generalizing trees trees' pairs pending with
  | zero => rfl
  | succ limit ih =>
    cases pending with
    | nil => rfl
    | cons q pending =>
      obtain ⟨i, j⟩ := q
      obtain ⟨hq, hpending⟩ := List.forall_mem_cons.1 hpending
      have hfi := a.first_le i
      have hfj := b.first_le j
      have htable := htrees.forestTable ha hb hq.1 hq.2
      have hsame : EditDistance.forestTable a b cost trees' i j =
          EditDistance.forestTable a b cost trees i j :=
        forestTable_congr fun _ _ => hagree.of_reads ha hb hq
      obtain ⟨found, parts, hsplits, hwalk⟩ := splits_walk (i := i) (j := j) ha hb hq htable
        ⟨by omega, le_rfl⟩ ⟨by omega, le_rfl⟩ ⟨pairs, pending⟩
      change resolve a b cost limit (turn a b cost trees' (i, j))
          (walk a b (forestTable a b cost trees' i j) i j i j ⟨pairs, pending⟩) =
        resolve a b cost limit (turn a b cost trees (i, j))
          (walk a b (forestTable a b cost trees i j) i j i j ⟨pairs, pending⟩)
      rw [hsame, hwalk]
      exact ih (htrees.record hq.1.2 hq.2.2 htable) (hasShape_turn h' hq)
        (hagree.turn ha hb h' htrees.shape hq) _
        (List.forall_mem_append.2 ⟨hsplits.inRange, hpending⟩)

variable (a b cost) in
/-- The search for an edit script reads no distance that the loops over the keyroots have not
written. -/
structure FindsFilled : Prop where
  /-- What is read for a problem has been written by the loops. -/
  before : ∀ trees pairs c pending, Reached a b cost (.between trees ⟨pairs, c :: pending⟩) →
    ∀ s d, Reads a b c s d → ∃ c' ∈ turns a b, Writes a b c' s d
  /-- What is written for a problem is what the table holds already. -/
  again : ∀ trees pairs c pending, Reached a b cost (.between trees ⟨pairs, c :: pending⟩) →
    ∀ s d, (turn a b cost trees c).get s d = trees.get s d
  /-- The distances stay as the loops have left them. -/
  kept : ∀ trees found, Reached a b cost (.between trees found) →
    Agree a b trees (solve a b cost (blank a b))
  /-- It makes no difference what the table holds before the loops. -/
  start : ∀ trees : Grid (WithTop ℚ), trees.HasShape (a.size + 1) (b.size + 1) →
    (resolve a b cost (a.size + b.size) (solve a b cost trees) ⟨#[], [(a.size, b.size)]⟩).toList =
      mapping a b cost

/-- **The search for an edit script reads nothing that is blank.**

**Proof sketch.** A station of the search is valid and its grid agrees with the finished one, so
that its reads are within bounds and give finished values.  The search itself begins with a solved
grid, and grids that agree are resolved alike. -/
theorem findsFilled (ha : a.Laminar) (hb : b.Laminar) : FindsFilled a b cost where
  before trees pairs c pending h s d hread := by
    have hc := (h.valid ha hb).2 c (List.mem_cons_self ..)
    obtain ⟨⟨hs, hs'⟩, hd, hd'⟩ := hread.bounds ha hb hc
    exact exists_mem_turns_writes hs hs' hd hd'
  again trees pairs c pending h := by
    obtain ⟨htrees, hpending⟩ := h.valid ha hb
    exact get_turn_of_agree ha hb (Grid.hasShape_fill ..) htrees.shape (h.agree ha hb)
      (hpending c (List.mem_cons_self ..))
  kept trees found h := h.agree ha hb
  start trees h := by
    have hstart : (Station.start a b cost).Valid a b cost := Station.valid_start ha hb
    have hshape : (solve a b cost trees).HasShape (a.size + 1) (b.size + 1) := by
      rw [solve_eq_foldl_turn]
      exact hasShape_foldl_turn h fun c => inRange_of_mem_turns
    exact congrArg Array.toList (resolve_congr ha hb hstart.1 hshape
      (agree_solve ha hb h (Grid.hasShape_fill ..)) #[] hstart.2)

end Script

/-- **Distances of subtrees are written before they are read.**  In whatever arithmetic the distance
of two trees is computed, the table of a pair of subtrees is filled only from distances that an
earlier turn of the loops over the keyroots has written; every distance is written in one turn, and
writing it again later does not change it.  In exact arithmetic the same is true of the search for
an edit script, which deals with other pairs of subtrees as well.  So what the table holds at first
is never used.  This holds for trees numbered from the left and for trees numbered from the
right.

**Proof sketch.** The numberings from either side describe the trees, hence their runs are nested,
and this is all that `fillsInOrder` and `findsFilled` need. -/
theorem distances_are_written_before_they_are_read (src dst : Tree) (mirrored : Bool) :
    let a := Numbering.ofTree (if mirrored then src.shape.flip else src.shape)
    let b := Numbering.ofTree (if mirrored then dst.shape.flip else dst.shape)
    (∀ (κ : Type) [Cost κ] (cost : κ), EditDistance.FillsInOrder a b cost) ∧
      ∀ r : ℚ, Script.FindsFilled a b (r : WithTop ℚ) := by
  have hlaminar : ∀ t : Tree,
      (Numbering.ofTree (if mirrored then t.shape.flip else t.shape)).Laminar := by
    intro t
    cases mirrored with
    | false => exact (Numbering.describes_ofTree t).laminar
    | true => exact (Numbering.describes_ofTree_flip t).laminar
  exact ⟨fun κ _ cost => EditDistance.fillsInOrder (hlaminar src) (hlaminar dst),
    fun r => Script.findsFilled (hlaminar src) (hlaminar dst)⟩

end TreeMatching
