import Mathlib.Data.List.Nodup
import Mathlib.Data.List.Perm.Basic
import Mathlib.Tactic.Ring
import TreeMatching.Survey

set_option autoImplicit false

/-!
# What a survey writes down

The survey of a forest walks with an accumulator and hands extents up.  Here the same entries are
given by a plain recursion, `Forest.entries`, and the facts about them are proved there: where an
entry stands in the two depth-first orders, how the runs of two subtrees lie to each other, and
which entry belongs to the parent of a node.

## Main definitions

* `Forest.rootEntry` — the entry of the first root of a forest.
* `Forest.entries` — the entries of a forest, in post-order.
* `Forest.subtrees` — the subtrees at the nodes of a forest.
* `Entry.Above`, `Entry.LeftOf` — how two nodes lie to each other, in both depth-first orders.

## Main results

* `Forest.survey_eq` — the survey finds exactly these entries, and the extent of the forest.
* `Forest.map_pre_entries_perm`, `Forest.map_post_entries` — every place of the two orders is taken
  once; in post-order the entries stand one after the other.
* `Forest.placement` — of two nodes one lies above the other or to the left of it.
* `Forest.entries_below_subset` — the entries under a node are entries of the whole.
* `Forest.parent_of_mem_entries` — a node is a root, or the child of the node its entry names.
-/

namespace TreeMatching

/-- The node of the entry `e` lies above that of the entry `u`: in both depth-first orders the run
of the one subtree contains that of the other. -/
structure Entry.Above (e u : Entry) : Prop where
  /-- The upper node comes first in pre-order. -/
  pre : e.pre < u.pre
  /-- The run of the upper node does not end earlier in pre-order. -/
  preRun : u.pre + u.size ≤ e.pre + e.size
  /-- The upper node comes last in post-order. -/
  post : u.post < e.post
  /-- The run of the upper node does not start later in post-order. -/
  postRun : e.post + u.size ≤ u.post + e.size

/-- A node is above everything that is below a node below it. -/
lemma Entry.Above.trans {e u w : Entry} (h : e.Above u) (h' : u.Above w) : e.Above w where
  pre := h.pre.trans h'.pre
  preRun := h'.preRun.trans h.preRun
  post := h'.post.trans h.post
  postRun := by
    have := h.postRun
    have := h'.postRun
    omega

/-- The node of the entry `e` lies to the left of that of the entry `u`: in both depth-first orders
the run of the one subtree ends before that of the other starts. -/
structure Entry.LeftOf (e u : Entry) : Prop where
  /-- The runs are apart in pre-order. -/
  pre : e.pre + e.size ≤ u.pre
  /-- The runs are apart in post-order. -/
  post : e.post + u.size ≤ u.post

namespace Forest

/-- The entry of a node over the forest `below`, standing at the given place. -/
def rootEntry (n : Node) (below : Forest Node) (parent : Option NodeId)
    (depth position pre : Nat) : Entry :=
  { node := n, below, parent, position, depth
    size := below.size + 1
    height := below.levels
    leaves := below.leaves
    pre
    post := pre + (below.size + 1) - 1 - depth }

/-- The entries of a forest whose roots have the given parent and depth and whose first root has
the given sibling position and pre-order index, in post-order. -/
def entries : Forest Node → Option NodeId → Nat → Nat → Nat → List Entry
  | .nil, _, _, _, _ => []
  | .node n below next, parent, depth, position, pre =>
    below.entries (some n.id) (depth + 1) 0 (pre + 1) ++
      rootEntry n below parent depth position pre ::
        next.entries parent depth (position + 1) (pre + (below.size + 1))

/-- **A survey finds the entries of the forest**, after those found before, and its extent.

**Proof sketch.** Induction on the forest: the survey goes through what is below the first root,
adds the first root, and goes on with the rest. -/
theorem survey_eq (f : Forest Node) (parent : Option NodeId) (depth position pre : Nat)
    (found : Array Entry) :
    f.survey parent depth position pre found =
      (found ++ (f.entries parent depth position pre).toArray, ⟨f.size, f.levels, f.leaves⟩) := by
  induction f generalizing parent depth position pre found with
  | nil => simp [survey, entries, Extent.zero, size, levels, leaves]
  | node n below next ihb ihn =>
    have hl : (if below.size = 0 then 1 else below.leaves) =
        if below.isEmpty then 1 else below.leaves := by
      simp only [isEmpty_iff_size_eq_zero]
    simp only [survey, ihb, ihn, entries, rootEntry, Extent.node, size, levels, leaves, hl,
      Prod.mk.injEq, and_true]
    simp

/-! ### Places of the entries -/

/-- The entries stand in post-order. -/
lemma map_node_entries (f : Forest Node) (parent : Option NodeId) (depth position pre : Nat) :
    (f.entries parent depth position pre).map Entry.node = f.postOrder := by
  induction f generalizing parent depth position pre with
  | nil => rfl
  | node n below next ihb ihn => simp [entries, postOrder, rootEntry, ihb, ihn]

/-- There is an entry for each node. -/
@[simp]
lemma length_entries (f : Forest Node) (parent : Option NodeId) (depth position pre : Nat) :
    (f.entries parent depth position pre).length = f.size := by
  have h := congrArg List.length (f.map_node_entries parent depth position pre)
  simpa using h

/-- An entry is filled in as its place and the forest under it demand. -/
lemma eq_rootEntry_of_mem {f : Forest Node} {parent : Option NodeId} {depth position pre : Nat}
    {e : Entry} (he : e ∈ f.entries parent depth position pre) :
    e = rootEntry e.node e.below e.parent e.depth e.position e.pre := by
  induction f generalizing parent depth position pre with
  | nil => simp [entries] at he
  | node n below next ihb ihn =>
    simp only [entries, List.mem_append, List.mem_cons] at he
    rcases he with he | rfl | he
    · exact ihb he
    · rfl
    · exact ihn he

/-- The size of an entry counts the node and everything under it. -/
lemma size_of_mem_entries {f : Forest Node} {parent : Option NodeId} {depth position pre : Nat}
    {e : Entry} (he : e ∈ f.entries parent depth position pre) : e.size = e.below.size + 1 := by
  rw [eq_rootEntry_of_mem he]
  rfl

/-- The run of pre-order indices of a subtree lies within that of the forest.

**Proof sketch.** Induction on the forest; the run of the first root comprises what is below it, and
the rest follows. -/
lemma bounds_of_mem_entries {f : Forest Node} {parent : Option NodeId} {depth position pre : Nat}
    {e : Entry} (he : e ∈ f.entries parent depth position pre) :
    pre ≤ e.pre ∧ e.pre + e.size ≤ pre + f.size := by
  induction f generalizing parent depth position pre with
  | nil => simp [entries] at he
  | node n below next ihb ihn =>
    simp only [entries, List.mem_append, List.mem_cons] at he
    simp only [size]
    rcases he with he | rfl | he
    · have := ihb he
      omega
    · simp only [rootEntry]
      omega
    · have := ihn he
      omega

/-- The pre-order index of an entry tells where its node stands in pre-order.

**Proof sketch.** Induction on the forest.  The pre-order is the first root, what is below it, and
the rest; the indices of the entries are offset accordingly. -/
lemma getElem?_preOrder_of_mem_entries {f : Forest Node} {parent : Option NodeId}
    {depth position pre : Nat} {e : Entry} (he : e ∈ f.entries parent depth position pre) :
    f.preOrder[e.pre - pre]? = some e.node := by
  induction f generalizing parent depth position pre with
  | nil => simp [entries] at he
  | node n below next ihb ihn =>
    simp only [entries, List.mem_append, List.mem_cons] at he
    simp only [preOrder]
    -- what is below follows the first root, and the rest follows both
    rcases he with he | rfl | he
    · have hb := bounds_of_mem_entries he
      have hs := size_of_mem_entries he
      rw [show e.pre - pre = (e.pre - (pre + 1)) + 1 by omega, List.getElem?_cons_succ,
        List.getElem?_append_left (by rw [length_preOrder]; omega)]
      exact ihb he
    · simp [rootEntry]
    · have hb := bounds_of_mem_entries he
      rw [show e.pre - pre = (e.pre - (pre + (below.size + 1)) + below.size) + 1 by omega,
        List.getElem?_cons_succ, List.getElem?_append_right (by simp), length_preOrder,
        Nat.add_sub_cancel]
      exact ihn he

/-- Every pre-order index of the forest belongs to one entry.

**Proof sketch.** Induction on the forest; the indices are that of the first root, those below it,
and those of the rest. -/
lemma map_pre_entries_perm (f : Forest Node) (parent : Option NodeId) (depth position pre : Nat) :
    ((f.entries parent depth position pre).map Entry.pre).Perm (List.range' pre f.size) := by
  induction f generalizing parent depth position pre with
  | nil => exact .nil
  | node n below next ihb ihn =>
    have hr : List.range' pre (below.size + 1 + next.size) =
        pre :: (List.range' (pre + 1) below.size ++
          List.range' (pre + (below.size + 1)) next.size) := by
      rw [show below.size + 1 + next.size = (below.size + next.size) + 1 by omega,
        List.range'_succ, ← List.range'_append_1,
        show pre + 1 + below.size = pre + (below.size + 1) by omega]
    rw [size, hr]
    simp only [entries, List.map_append, List.map_cons]
    exact List.perm_middle.trans (((ihb _ _ _ _).append (ihn _ _ _ _)).cons pre)

/-- **In post-order the entries stand one after the other.**  The post-order index is computed
from pre-order index, size and depth; it counts the entries nevertheless.

**Proof sketch.** Induction on the forest.  One level down both the pre-order index and the depth
grow by one, so the entries below the first root take the first places.  The root follows them, and
its right siblings are as deep as the root but start `below.size + 1` places further on. -/
lemma map_post_entries (f : Forest Node) (parent : Option NodeId) {depth pre : Nat}
    (position : Nat) (h : depth ≤ pre) :
    (f.entries parent depth position pre).map Entry.post = List.range' (pre - depth) f.size := by
  induction f generalizing parent depth position pre with
  | nil => rfl
  | node n below next ihb ihn =>
    have hr : List.range' (pre - depth) (below.size + 1 + next.size) =
        List.range' (pre - depth) below.size ++ (pre - depth + below.size) ::
          List.range' (pre - depth + below.size + 1) next.size := by
      rw [show below.size + 1 + next.size = below.size + (next.size + 1) by omega,
        ← List.range'_append_1, List.range'_succ]
    simp only [entries, List.map_append, List.map_cons, size]
    rw [ihb _ _ (by omega), ihn _ _ (by omega), hr]
    have h1 : pre + 1 - (depth + 1) = pre - depth := by omega
    have h2 : (rootEntry n below parent depth position pre).post = pre - depth + below.size := by
      simp only [rootEntry]
      omega
    have h3 : pre + (below.size + 1) - depth = pre - depth + below.size + 1 := by omega
    rw [h1, h2, h3]

/-! ### How subtrees lie to each other -/

/-- The run of post-order indices of a subtree, which ends with the index of its root, lies within
that of the forest.

**Proof sketch.** Induction on the forest, as for `bounds_of_mem_entries`. -/
lemma post_bounds_of_mem_entries {f : Forest Node} {parent : Option NodeId}
    {depth position pre : Nat} (h : depth ≤ pre) {e : Entry}
    (he : e ∈ f.entries parent depth position pre) :
    pre - depth + e.size ≤ e.post + 1 ∧ e.post + 1 ≤ pre - depth + f.size := by
  induction f generalizing parent depth position pre with
  | nil => simp [entries] at he
  | node n below next ihb ihn =>
    simp only [entries, List.mem_append, List.mem_cons] at he
    simp only [size]
    rcases he with he | rfl | he
    · have := ihb (by omega) he
      omega
    · simp only [rootEntry]
      omega
    · have := ihn (by omega) he
      omega

/-- A root lies above everything in the forest under it. -/
lemma above_of_mem_below {n : Node} {below : Forest Node} {parent : Option NodeId}
    {depth position pre : Nat} (h : depth ≤ pre) {e : Entry}
    (he : e ∈ below.entries (some n.id) (depth + 1) 0 (pre + 1)) :
    (rootEntry n below parent depth position pre).Above e := by
  have hb := bounds_of_mem_entries he
  have hp := post_bounds_of_mem_entries (by omega) he
  have hs := size_of_mem_entries he
  constructor <;> simp only [rootEntry] <;> omega

/-- The first tree of a forest lies to the left of its right siblings. -/
lemma leftOf_of_mem_next {n : Node} {below next : Forest Node} {parent : Option NodeId}
    {depth position pre : Nat} (h : depth ≤ pre) {e u : Entry}
    (he : e ∈ below.entries (some n.id) (depth + 1) 0 (pre + 1) ∨
      e = rootEntry n below parent depth position pre)
    (hu : u ∈ next.entries parent depth (position + 1) (pre + (below.size + 1))) :
    e.LeftOf u := by
  have hub := bounds_of_mem_entries hu
  have hup := post_bounds_of_mem_entries (by omega) hu
  rcases he with he | rfl
  · have hb := bounds_of_mem_entries he
    have hp := post_bounds_of_mem_entries (by omega) he
    constructor <;> omega
  · constructor <;> simp only [rootEntry] <;> omega

/-- **Two nodes lie above or beside each other.**  The two depth-first orders agree on which it is.

**Proof sketch.** Induction on the forest, with a case for each part the two entries come from.
Within one part the induction hypothesis applies.  The first root lies above what is below it, and
both lie to the left of what is next to it. -/
theorem placement {f : Forest Node} {parent : Option NodeId} {depth position pre : Nat}
    (h : depth ≤ pre) {e u : Entry} (he : e ∈ f.entries parent depth position pre)
    (hu : u ∈ f.entries parent depth position pre) :
    e = u ∨ e.Above u ∨ u.Above e ∨ e.LeftOf u ∨ u.LeftOf e := by
  induction f generalizing parent depth position pre with
  | nil => simp [entries] at he
  | node n below next ihb ihn =>
    simp only [entries, List.mem_append, List.mem_cons] at he hu
    rcases he with he | rfl | he <;> rcases hu with hu | rfl | hu
    · exact ihb (by omega) he hu
    · exact .inr (.inr (.inl (above_of_mem_below h he)))
    · exact .inr (.inr (.inr (.inl (leftOf_of_mem_next h (.inl he) hu))))
    · exact .inr (.inl (above_of_mem_below h hu))
    · exact .inl rfl
    · exact .inr (.inr (.inr (.inl (leftOf_of_mem_next h (.inr rfl) hu))))
    · exact .inr (.inr (.inr (.inr (leftOf_of_mem_next h (.inl hu) he))))
    · exact .inr (.inr (.inr (.inr (leftOf_of_mem_next h (.inr rfl) he))))
    · exact ihn (by omega) he hu

/-- The entries of the forest under a node are entries of the whole forest. -/
lemma entries_below_subset {f : Forest Node} {parent : Option NodeId} {depth position pre : Nat}
    {e : Entry} (he : e ∈ f.entries parent depth position pre) :
    e.below.entries (some e.node.id) (e.depth + 1) 0 (e.pre + 1) ⊆
      f.entries parent depth position pre := by
  induction f generalizing parent depth position pre with
  | nil => simp [entries] at he
  | node n below next ihb ihn =>
    intro u hu
    simp only [entries, List.mem_append, List.mem_cons] at he ⊢
    rcases he with he | rfl | he
    · exact .inl (ihb he hu)
    · exact .inl hu
    · exact .inr (.inr (ihn he hu))

/-- Every root of a forest has an entry, which tells its parent, depth and position.

**Proof sketch.** Induction on the roots; the first root has its own entry, and the others have
theirs in the rest, one position further on. -/
lemma exists_entry_of_getElem?_roots {f : Forest Node} (parent : Option NodeId)
    (depth position pre : Nat) {k : Nat} {n : Node} (h : f.roots[k]? = some n) :
    ∃ e ∈ f.entries parent depth position pre,
      e.node = n ∧ e.parent = parent ∧ e.depth = depth ∧ e.position = position + k := by
  induction f generalizing position pre k with
  | nil => simp [roots] at h
  | node m below next _ ihn =>
    simp only [entries, List.mem_append, List.mem_cons]
    cases k with
    | zero =>
      obtain rfl : m = n := by simpa [roots] using h
      exact ⟨_, .inr (.inl rfl), rfl, rfl, rfl, rfl⟩
    | succ k =>
      obtain ⟨e, he, hn, hp, hd, hk⟩ := ihn (position + 1) (pre + (below.size + 1)) (k := k)
        (by simpa [roots] using h)
      exact ⟨e, .inr (.inr he), hn, hp, hd, by omega⟩

/-- **A node is a root, or a child of the node that its entry names.**  The position tells which of
the roots or children it is.

**Proof sketch.** Induction on the forest.  For an entry below the first root, a root of the forest
below becomes a child of the first root, and everything else has its parent there already.  For an
entry of the rest, a root is a root, one position further on. -/
lemma parent_of_mem_entries {f : Forest Node} {parent : Option NodeId} {depth position pre : Nat}
    {e : Entry} (he : e ∈ f.entries parent depth position pre) :
    (e.parent = parent ∧ e.depth = depth ∧
      ∃ k, e.position = position + k ∧ f.roots[k]? = some e.node) ∨
    ∃ u ∈ f.entries parent depth position pre,
      e.parent = some u.node.id ∧ e.depth = u.depth + 1 ∧ u.pre < e.pre ∧
        e.pre + e.size ≤ u.pre + u.size ∧ u.below.roots[e.position]? = some e.node := by
  induction f generalizing parent depth position pre with
  | nil => simp [entries] at he
  | node n below next ihb ihn =>
    simp only [entries, List.mem_append, List.mem_cons] at he ⊢
    rcases he with he | rfl | he
    · have hb := bounds_of_mem_entries he
      rcases ihb he with ⟨hp, hd, k, hk, hr⟩ | ⟨u, hu, hp⟩
      · -- a root of the forest below: its parent is the first root
        refine .inr ⟨_, .inr (.inl rfl), hp, hd, by simp only [rootEntry]; omega, ?_, ?_⟩
        · simp only [rootEntry]
          omega
        · rw [hk, Nat.zero_add]
          exact hr
      · exact .inr ⟨u, .inl hu, hp⟩
    · exact .inl ⟨rfl, rfl, 0, rfl, by simp [roots, rootEntry]⟩
    · rcases ihn he with ⟨hp, hd, k, hk, hr⟩ | ⟨u, hu, hp⟩
      · exact .inl ⟨hp, hd, k + 1, by omega, by simpa [roots] using hr⟩
      · exact .inr ⟨u, .inr (.inr hu), hp⟩

/-! ### Subtrees -/

variable {α β : Type}

/-- The subtrees at the nodes, in pre-order. -/
def subtrees : Forest α → List (Rooted α)
  | .nil => []
  | .node a below next => ⟨a, below⟩ :: (below.subtrees ++ next.subtrees)

/-- The subtrees of a forest, listed by their roots, are its nodes in pre-order. -/
lemma map_root_subtrees (f : Forest α) : f.subtrees.map Rooted.root = f.preOrder := by
  induction f with
  | nil => rfl
  | node a below next ihb ihn => simp [subtrees, preOrder, ihb, ihn]

/-- Replacing the values of a forest replaces those of its subtrees. -/
lemma subtrees_map (h : α → β) (f : Forest α) :
    (f.map h).subtrees = f.subtrees.map (Rooted.map h) := by
  induction f with
  | nil => rfl
  | node a below next ihb ihn => simp [subtrees, map, Rooted.map, ihb, ihn]

/-- A survey has an entry for every subtree. -/
lemma exists_entry_of_mem_subtrees {f : Forest Node} {r : Rooted Node} (hr : r ∈ f.subtrees)
    (parent : Option NodeId) (depth position pre : Nat) :
    ∃ e ∈ f.entries parent depth position pre, (⟨e.node, e.below⟩ : Rooted Node) = r := by
  induction f generalizing parent depth position pre with
  | nil => cases hr
  | node n below next ihb ihn =>
    simp only [subtrees, List.mem_cons, List.mem_append] at hr
    simp only [entries, List.mem_append, List.mem_cons]
    rcases hr with rfl | hr | hr
    · exact ⟨_, .inr (.inl rfl), rfl⟩
    · obtain ⟨e, he, rfl⟩ := ihb hr (some n.id) (depth + 1) 0 (pre + 1)
      exact ⟨e, .inl he, rfl⟩
    · obtain ⟨e, he, rfl⟩ := ihn hr parent depth (position + 1) (pre + (below.size + 1))
      exact ⟨e, .inr (.inr he), rfl⟩

end Forest

end TreeMatching
