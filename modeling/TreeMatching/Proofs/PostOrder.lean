import Mathlib.Data.List.Nodup
import Mathlib.Data.List.Perm.Basic
import TreeMatching.EditDistance.Distance
import TreeMatching.Proofs.TreeTables

set_option autoImplicit false

/-!
# Trees numbered in post-order

The edit distance works on the numbers of a post-order, either of the tree or of the flipped tree.
In both cases a number stands for a node, the subtree of a node consists of consecutive numbers that
end with it, and the numbers decide which of two nodes is above or beside the other.

## Main definitions

* `Forest.postSteps`, `Forest.preSteps` — the nodes of a forest in the two depth-first orders, each
  with the number of its descendants.
* `Tree.isLeftOf` — whether one node lies to the left of another.
* `Numbering.Describes` — the numbering is one of the nodes of a tree, from the left or from the
  right.
* `Numbering.Laminar` — the subtrees are runs of numbers that are nested or apart.
* `Numbering.SeparatesRuns` — places of nodes that keep subtrees together and apart.

## Main results

* `Numbering.SeparatesRuns.above_iff`, `Numbering.SeparatesRuns.beside_iff` — places that keep
  subtrees apart tell how nodes lie to each other.
* `Numbering.describes_ofTree`, `Numbering.describes_ofTree_flip` — both numberings describe the
  tree.
* `Numbering.Describes.laminar` — hence subtrees are runs of numbers.
* `EditDistance.prepare_cases` — two trees are numbered in the same direction, unless they are too
  large.
-/

namespace TreeMatching

namespace Forest

/-! ### Steps in both orders -/

/-- The nodes in post-order, each with the number of its descendants. -/
def postSteps : Forest Node → List Step
  | .nil => []
  | .node n below next => below.postSteps ++ ⟨n, below.size⟩ :: next.postSteps

/-- The nodes in pre-order, each with the number of its descendants. -/
def preSteps : Forest Node → List Step
  | .nil => []
  | .node n below next => ⟨n, below.size⟩ :: (below.preSteps ++ next.preSteps)

/-- The walk that collects the steps finds them in post-order, after those found before. -/
lemma steps_eq (f : Forest Node) (found : Array Step) :
    f.steps found = (found ++ f.postSteps.toArray, f.size) := by
  induction f generalizing found with
  | nil => simp [steps, postSteps, size]
  | node n below next ihb ihn => simp [steps, postSteps, size, ihb, ihn]

/-- The steps in post-order are those of the entries. -/
lemma postSteps_eq_map_entries (f : Forest Node) (parent : Option NodeId)
    (depth position pre : Nat) :
    f.postSteps = (f.entries parent depth position pre).map fun e => ⟨e.node, e.size - 1⟩ := by
  induction f generalizing parent depth position pre with
  | nil => rfl
  | node n below next ihb ihn =>
    rw [postSteps, entries, List.map_append, List.map_cons, ← ihb, ← ihn]
    rfl

/-- There is a step for each node. -/
@[simp]
lemma length_preSteps (f : Forest Node) : f.preSteps.length = f.size := by
  induction f with
  | nil => rfl
  | node n below next ihb ihn => simp [preSteps, size, ihb, ihn]; omega

/-- The pre-order index of an entry tells where its step stands in pre-order.

**Proof sketch.** Induction on the forest.  The steps of a forest are that of the first root, those
below it, and those of the rest, and the indices of the entries are offset accordingly. -/
lemma getElem?_preSteps_of_mem_entries {f : Forest Node} {parent : Option NodeId}
    {depth position pre : Nat} {e : Entry} (he : e ∈ f.entries parent depth position pre) :
    f.preSteps[e.pre - pre]? = some ⟨e.node, e.size - 1⟩ := by
  induction f generalizing parent depth position pre with
  | nil => simp [entries] at he
  | node n below next ihb ihn =>
    simp only [entries, List.mem_append, List.mem_cons] at he
    simp only [preSteps]
    rcases he with he | rfl | he
    · have hb := bounds_of_mem_entries he
      have hs := size_of_mem_entries he
      rw [show e.pre - pre = (e.pre - (pre + 1)) + 1 by omega, List.getElem?_cons_succ,
        List.getElem?_append_left (by rw [length_preSteps]; omega)]
      exact ihb he
    · simp [rootEntry]
    · have hb := bounds_of_mem_entries he
      rw [show e.pre - pre = (e.pre - (pre + (below.size + 1)) + below.size) + 1 by omega,
        List.getElem?_cons_succ, List.getElem?_append_right (by simp), length_preSteps,
        Nat.add_sub_cancel]
      exact ihn he

/-- Flipping keeps the number of nodes. -/
lemma size_flipOnto (f acc : Forest Node) : (f.flipOnto acc).size = f.size + acc.size := by
  induction f generalizing acc with
  | nil => simp [flipOnto, size]
  | node n below next ihb ihn =>
    simp only [flipOnto, ihn, size, ihb]
    omega

/-- **The post-order of a flipped forest is its pre-order backwards.** -/
lemma postSteps_flipOnto (f acc : Forest Node) :
    (f.flipOnto acc).postSteps = f.preSteps.reverse ++ acc.postSteps := by
  induction f generalizing acc with
  | nil => rfl
  | node n below next ihb ihn =>
    rw [flipOnto, ihn, postSteps, ihb, size_flipOnto]
    simp [preSteps, postSteps, size]

end Forest

/-! ### Left and right -/

/-- Whether node `a` lies to the left of node `b`: it comes first in pre-order and is not above
it. -/
def Tree.isLeftOf (t : Tree) (a b : NodeId) : Bool :=
  t.preIndex a < t.preIndex b && !t.isDescendant a b

/-- Two nodes lie beside each other if their runs are apart.

**Proof sketch.** Of the five ways in which two entries can lie to each other, the inequality of the
indices leaves two, and that the second is not below the first excludes one of these. -/
lemma Tree.isLeftOf_iff_leftOf {t : Tree} {e u : Entry} (he : e ∈ t.entries)
    (hu : u ∈ t.entries) : t.isLeftOf e.node.id u.node.id = true ↔ e.LeftOf u := by
  have hse := size_pos_of_mem_entries he
  have hsu := size_pos_of_mem_entries hu
  simp only [isLeftOf, Bool.and_eq_true, Bool.not_eq_true', decide_eq_true_eq,
    ← Bool.not_eq_true (t.isDescendant _ _), isDescendant_iff_above he hu, preIndex,
    entry_of_mem_entries he, entry_of_mem_entries hu]
  constructor
  · rintro ⟨h1, h2⟩
    rcases placement he hu with rfl | h | h | h | h
    · omega
    · exact absurd h h2
    · have := h.pre
      omega
    · exact h
    · have := h.pre
      omega
  · intro h
    have h1 := h.pre
    refine ⟨by omega, fun h2 => ?_⟩
    have := h2.preRun
    omega

/-- Node `e` comes beside and before node `u` if nodes are taken from the left, or from the right if
`mirrored`. -/
def Entry.Beside (mirrored : Bool) (e u : Entry) : Prop :=
  if mirrored then u.LeftOf e else e.LeftOf u

/-- Of two nodes one lies above the other, or beside and before it, whichever side one begins
with. -/
lemma Tree.placement_beside {t : Tree} (mirrored : Bool) {e u : Entry} (he : e ∈ t.entries)
    (hu : u ∈ t.entries) :
    e = u ∨ e.Above u ∨ u.Above e ∨ e.Beside mirrored u ∨ u.Beside mirrored e := by
  have hplace := placement he hu
  cases mirrored with
  | false => exact hplace
  | true =>
    -- from the right the two sides are exchanged
    exact hplace.imp_right fun h => h.imp_right fun h => h.imp_right Or.symm

namespace Numbering

/-- The numbering `a` numbers the nodes of the tree `t`, from the left or, if `mirrored`, from the
right, each at the place given by its entry.  A subtree is the run of numbers that ends with its
root. -/
structure Describes (a : Numbering) (t : Tree) (mirrored : Bool) (place : Entry → Nat) : Prop where
  /-- There are as many numbers as nodes. -/
  size : a.size = t.count
  /-- Every node has room for its run before it. -/
  range : ∀ e ∈ t.entries, e.size ≤ place e ∧ place e ≤ t.count
  /-- Every number is the place of a node. -/
  onto : ∀ i, 1 ≤ i → i ≤ t.count → ∃ e ∈ t.entries, place e = i
  /-- The numbering knows the node and its number of descendants. -/
  step : ∀ e ∈ t.entries, a.step (place e) = ⟨e.node, e.size - 1⟩
  /-- What lies below a node has the numbers of its run before it. -/
  above : ∀ e ∈ t.entries, ∀ u ∈ t.entries,
    e.Above u ↔ place u < place e ∧ place e < place u + e.size
  /-- What lies beside a node, and before it, has numbers before its run. -/
  beside : ∀ e ∈ t.entries, ∀ u ∈ t.entries, e.Beside mirrored u ↔ place e + u.size ≤ place u

/-- Subtrees are runs of numbers that are nested or apart, and the last number is the root of
all. -/
structure Laminar (a : Numbering) : Prop where
  /-- There is a node. -/
  pos : 1 ≤ a.size
  /-- A run starts with a number. -/
  first_pos : ∀ i, 1 ≤ i → i ≤ a.size → 1 ≤ a.first i
  /-- The run of a number within a run lies within it. -/
  nested : ∀ i j, i ≤ a.size → a.first i ≤ j → j ≤ i → 1 ≤ j → a.first i ≤ a.first j
  /-- The run of the last number contains all numbers. -/
  root : a.first a.size = 1

variable {a : Numbering} {t : Tree} {mirrored : Bool} {place : Entry → Nat}

/-- The node at the place of an entry. -/
lemma Describes.node (h : a.Describes t mirrored place) {e : Entry} (he : e ∈ t.entries) :
    a.node (place e) = e.node := by
  rw [Numbering.node, h.step e he]

/-- The run of an entry ends with its place and has as many numbers as its subtree has nodes. -/
lemma Describes.first_add_size (h : a.Describes t mirrored place) {e : Entry}
    (he : e ∈ t.entries) : a.first (place e) + e.size = place e + 1 := by
  have hr := h.range e he
  have hs := Tree.size_pos_of_mem_entries he
  rw [first, h.step e he]
  change place e - (e.size - 1) + e.size = place e + 1
  omega

/-- Different nodes have different places. -/
lemma Describes.place_inj (h : a.Describes t mirrored place) {e u : Entry} (he : e ∈ t.entries)
    (hu : u ∈ t.entries) (hp : place e = place u) : e = u := by
  apply Tree.entry_ext he hu
  rw [← h.node he, ← h.node hu, hp]

/-- **Subtrees are runs of numbers.**

**Proof sketch.** If the run of `j`, which lies in the run of `i`, would start earlier than that of
`i`, then the number just before the run of `i` would belong to a node below `j` and hence below
`i`.  The root has a run as long as the tree, which therefore ends with the last number. -/
lemma Describes.laminar (h : a.Describes t mirrored place) : a.Laminar := by
  have hcount : 1 ≤ t.count := by
    rw [Tree.count, Rooted.size]
    omega
  refine ⟨h.size ▸ hcount, ?_, ?_, ?_⟩
  · intro i h1 h2
    obtain ⟨e, he, rfl⟩ := h.onto i h1 (h.size ▸ h2)
    have := h.first_add_size he
    have := h.range e he
    omega
  · intro i j hi hij hji hj
    obtain ⟨e, he, rfl⟩ := h.onto i (by omega) (h.size ▸ hi)
    obtain ⟨u, hu, rfl⟩ := h.onto j hj (by rw [← h.size]; omega)
    have hre := h.range e he
    have hru := h.range u hu
    have hfe := h.first_add_size he
    have hfu := h.first_add_size hu
    have hsu := Tree.size_pos_of_mem_entries hu
    by_contra hlt
    -- the node just before the run of `e`
    obtain ⟨w, hw, hpw⟩ := h.onto (place e - e.size) (by omega) (by omega)
    have hwu : u.Above w := (h.above u hu w hw).2 ⟨by omega, by omega⟩
    have hwe : e.Above w := by
      rcases hji.eq_or_lt with heq | hlt'
      · rwa [← h.place_inj hu he heq]
      · exact ((h.above e he u hu).2 ⟨hlt', by omega⟩).trans hwu
    have := (h.above e he w hw).1 hwe
    omega
  · obtain ⟨e, he, hs⟩ := t.exists_entry_size_eq_count
    have hr := h.range e he
    have hf := h.first_add_size he
    obtain hp : place e = a.size := by rw [h.size]; omega
    rw [hp, h.size] at hf
    rw [h.size]
    omega

/-! ### Places that keep subtrees apart -/

/-- Places of nodes that keep subtrees together and apart: what lies below a node is placed before
it, within its run, and what comes beside and before a node is placed before its run. -/
structure SeparatesRuns (t : Tree) (mirrored : Bool) (place : Entry → Nat) : Prop where
  below : ∀ e ∈ t.entries, ∀ u ∈ t.entries, e.Above u →
    place u < place e ∧ place e < place u + e.size
  before : ∀ e ∈ t.entries, ∀ u ∈ t.entries, e.Beside mirrored u → place e + u.size ≤ place u

/-- Such places tell which nodes lie below a node.

**Proof sketch.** Of the five ways in which two nodes can lie to each other, four put the second
node outside the run of the first. -/
lemma SeparatesRuns.above_iff (h : SeparatesRuns t mirrored place) {e u : Entry}
    (he : e ∈ t.entries) (hu : u ∈ t.entries) :
    e.Above u ↔ place u < place e ∧ place e < place u + e.size := by
  refine ⟨h.below e he u hu, fun ⟨hlt, hrun⟩ => ?_⟩
  rcases Tree.placement_beside mirrored he hu with rfl | habove | hbelow | hbeside | hbeside
  · omega
  · exact habove
  · have := h.below u hu e he hbelow
    omega
  · have := h.before e he u hu hbeside
    omega
  · have := h.before u hu e he hbeside
    omega

/-- Such places tell which nodes come beside and before a node.

**Proof sketch.** Of the five ways in which two nodes can lie to each other, four put the first node
into the run of the second or behind it. -/
lemma SeparatesRuns.beside_iff (h : SeparatesRuns t mirrored place) {e u : Entry}
    (he : e ∈ t.entries) (hu : u ∈ t.entries) :
    e.Beside mirrored u ↔ place e + u.size ≤ place u := by
  refine ⟨h.before e he u hu, fun hle => ?_⟩
  have hsize := Tree.size_pos_of_mem_entries hu
  rcases Tree.placement_beside mirrored he hu with rfl | habove | hbelow | hbeside | hbeside
  · omega
  · have := h.below e he u hu habove
    omega
  · have := h.below u hu e he hbelow
    omega
  · exact hbeside
  · have := h.before u hu e he hbeside
    omega

/-! ### The two numberings of a tree -/

/-- The numbers of a tree run through the steps of its post-order. -/
lemma steps_ofTree (s : Rooted Node) : (ofTree s).steps = s.toForest.postSteps.toArray := by
  simp [ofTree, Forest.steps_eq]

/-- Places in post-order keep subtrees apart, from the left. -/
lemma separatesRuns_post (t : Tree) : SeparatesRuns t false fun e => e.post + 1 where
  below e _ u hu h := by
    have := h.post
    have := h.postRun
    have := Tree.size_pos_of_mem_entries hu
    omega
  before e _ u hu h := by
    have hleft : e.LeftOf u := h
    have := hleft.post
    have := Tree.size_pos_of_mem_entries hu
    omega

/-- The subtree at a node ends in pre-order before the tree does. -/
lemma pre_add_size_le_count {t : Tree} {e : Entry} (he : e ∈ t.entries) :
    e.pre + e.size ≤ t.count := by
  have := (Forest.bounds_of_mem_entries he).2
  rw [Tree.size_toForest] at this
  omega

/-- Places in pre-order, counted backwards, keep subtrees apart, from the right.

**Proof sketch.** An entry below another has the larger index and ends within its run; an entry to
the left has its run in front.  Counting backwards turns both around. -/
lemma separatesRuns_pre (t : Tree) : SeparatesRuns t true fun e => t.count - e.pre where
  below e he u hu h := by
    have := h.pre
    have := h.preRun
    have := pre_add_size_le_count he
    have := Tree.size_pos_of_mem_entries hu
    omega
  before e he u hu h := by
    have hleft : u.LeftOf e := h
    have := hleft.pre
    have := pre_add_size_le_count he
    have := Tree.size_pos_of_mem_entries he
    omega

/-- **Numbering in post-order describes a tree from the left.**

**Proof sketch.** The entries of a tree are listed in post-order, so the step with the number
`e.post + 1` is that of the entry `e`, and every number belongs to an entry.  Post-order separates
runs, which gives the last two fields. -/
theorem describes_ofTree (t : Tree) :
    (ofTree t.shape).Describes t false fun e => e.post + 1 where
  size := by
    rw [size, steps_ofTree, List.size_toArray, Forest.postSteps_eq_map_entries _ none 0 0 0,
      List.length_map, Forest.length_entries, Tree.size_toForest]
  range := by
    intro e he
    have := Forest.post_bounds_of_mem_entries le_rfl he
    rw [Tree.size_toForest] at this
    omega
  onto := by
    intro i h1 h2
    have hmem : i - 1 ∈ t.entries.map Entry.post := by
      rw [t.map_post_entries, List.mem_range'_1]
      omega
    obtain ⟨e, he, hp⟩ := List.mem_map.1 hmem
    exact ⟨e, he, by omega⟩
  step := by
    intro e he
    rw [step, steps_ofTree, Forest.postSteps_eq_map_entries _ none 0 0 0, Nat.add_sub_cancel]
    simp only [Array.getD_eq_getD_getElem?, List.getElem?_toArray, List.getElem?_map]
    change (Option.map _ t.entries[e.post]?).getD default = _
    rw [Tree.getElem?_entries_post he]
    rfl
  above _ he _ hu := (separatesRuns_post t).above_iff he hu
  beside _ he _ hu := (separatesRuns_post t).beside_iff he hu

/-- The numbers of the flipped tree run through the steps of the pre-order backwards. -/
lemma steps_ofTree_flip (t : Tree) :
    (ofTree t.shape.flip).steps = t.shape.toForest.preSteps.reverse.toArray := by
  have hflip := Forest.postSteps_flipOnto t.shape.toForest .nil
  rw [Forest.postSteps, List.append_nil] at hflip
  rw [steps_ofTree, ← hflip]
  rfl

/-- **Numbering the flipped tree in post-order describes a tree from the right.**  The numbers run
through the pre-order of the tree backwards.

**Proof sketch.** The steps of the flipped tree are those of pre-order backwards.  So the step with
the number `t.count - e.pre` is that of the entry `e`, and every number belongs to an entry.
Pre-order separates runs, too, and this gives the last two fields. -/
theorem describes_ofTree_flip (t : Tree) :
    (ofTree t.shape.flip).Describes t true fun e => t.count - e.pre where
  size := by
    rw [size, steps_ofTree_flip, List.size_toArray, List.length_reverse, Forest.length_preSteps,
      Tree.size_toForest]
  range := by
    intro e he
    have := pre_add_size_le_count he
    omega
  onto := by
    intro i h1 h2
    have hperm := Forest.map_pre_entries_perm t.shape.toForest none 0 0 0
    have hmem : t.count - i ∈ t.entries.map Entry.pre := by
      rw [Tree.entries, hperm.mem_iff, List.mem_range'_1, Tree.size_toForest]
      omega
    obtain ⟨e, he, hp⟩ := List.mem_map.1 hmem
    exact ⟨e, he, by omega⟩
  step := by
    intro e he
    have hbound := pre_add_size_le_count he
    have hsize := Tree.size_pos_of_mem_entries he
    have hget := Forest.getElem?_preSteps_of_mem_entries he
    rw [Nat.sub_zero] at hget
    have hlen : t.shape.toForest.preSteps.length = t.count := by
      rw [Forest.length_preSteps, Tree.size_toForest]
    simp only [step, steps_ofTree_flip, Array.getD_eq_getD_getElem?, List.getElem?_toArray]
    rw [List.getElem?_reverse (by omega), hlen,
      show t.count - 1 - (t.count - e.pre - 1) = e.pre by omega, hget]
    rfl
  above _ he _ hu := (separatesRuns_pre t).above_iff he hu
  beside _ he _ hu := (separatesRuns_pre t).beside_iff he hu

/-- Every number within bounds belongs to a node; number zero stands in for the first one. -/
lemma Describes.node_mem (h : a.Describes t mirrored place) {i : Nat} (hi : i ≤ a.size) :
    (a.node i).id ∈ t.preOrder := by
  have hpos := h.laminar.pos
  have hnode : ∀ k, 1 ≤ k → k ≤ a.size → (a.node k).id ∈ t.preOrder := by
    intro k hk hk'
    obtain ⟨e, he, rfl⟩ := h.onto k hk (h.size ▸ hk')
    rw [h.node he]
    exact Tree.mem_preOrder_of_mem_entries he
  rcases Nat.eq_zero_or_pos i with rfl | hi'
  · exact hnode 1 le_rfl hpos
  · exact hnode i hi' hi

end Numbering

/-- **Two trees are numbered in the same direction, unless they are too large.**

**Proof sketch.** The two branches of the definition: trees are numbered from the right or from the
left, whichever makes less work, and both numberings describe them. -/
theorem EditDistance.prepare_cases (src dst : Tree) (limit : Nat) :
    (limit < src.count * dst.count ∧
      prepare src dst limit = .error (.setting (.tooLarge src.count dst.count limit))) ∨
    (src.count * dst.count ≤ limit ∧ ∃ a b mirrored place place',
      prepare src dst limit = .ok (a, b) ∧ a.Describes src mirrored place ∧
        b.Describes dst mirrored place') := by
  rcases Nat.lt_or_ge limit (src.count * dst.count) with h | h
  · exact .inl ⟨h, if_pos h⟩
  · refine .inr ⟨h, ?_⟩
    rw [prepare, if_neg (Nat.not_lt.2 h)]
    dsimp only
    split
    · exact ⟨_, _, true, _, _, rfl, Numbering.describes_ofTree_flip src,
        Numbering.describes_ofTree_flip dst⟩
    · exact ⟨_, _, false, _, _, rfl, Numbering.describes_ofTree src,
        Numbering.describes_ofTree dst⟩

end TreeMatching
