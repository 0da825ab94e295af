import TreeMatching.Proofs.DistanceTables
import TreeMatching.Proofs.GrownTrees
import TreeMatching.Proofs.Tours

set_option autoImplicit false

/-!
# Numbers, runs and keyroots

For the edit distance the nodes of a tree are numbered in post-order, from the left or, in the
mirrored tree, from the right.  The numbers come out of a tour with a stack, backwards; the first
number of a subtree is that of the subtree at the first child; and the keyroots are found by going
through the numbers from the last to the first.  This module says what all these numbers are.

## Main definitions

* `Tree.mirror` — the tree with the children of every node in reverse order.
* `Tree.oriented` — the tree itself, or its mirror image.
* `Numbering.FollowsPostOrder` — what a numbering of a tree has to be.

## Main results

* `Tree.children_mirror` — mirroring reverses the children of every node.
* `Numbering.map_node_ofTree` — the numbers run through the post-order.
* `Numbering.Describes.mem_run_iff` — the run of a number holds the nodes of the subtree.
* `Numbering.exists_first_child` — a run begins where that of the first child begins.
* `Numbering.mem_keyroots_iff_isGreatest`, `Numbering.getLast?_keyroots` — the keyroots are the
  largest numbers with their value of `first`, and the last one is the root.
* `numbering_follows_post_order` — the results together.
-/

namespace TreeMatching

/-! ### Mirrored trees -/

namespace Forest

variable {α : Type}

/-- Flipping a forest reverses its roots. -/
lemma roots_flipOnto (f acc : Forest α) :
    (f.flipOnto acc).roots = f.roots.reverse ++ acc.roots := by
  induction f generalizing acc with
  | nil => rfl
  | node a below next _ ihn =>
    rw [flipOnto, ihn]
    simp [roots]

/-- Flipping keeps the nodes. -/
lemma preOrder_flipOnto_perm (f acc : Forest α) :
    (f.flipOnto acc).preOrder.Perm (f.preOrder ++ acc.preOrder) := by
  induction f generalizing acc with
  | nil => exact .refl _
  | node a below next ihb ihn =>
    have hbelow : (below.flipOnto nil).preOrder.Perm below.preOrder := by
      simpa [preOrder] using ihb nil
    rw [flipOnto, preOrder, List.cons_append, List.append_assoc]
    refine (ihn _).trans (List.perm_middle.trans (.cons a ?_))
    refine ((hbelow.append_right _).append_left _).trans ?_
    exact List.perm_append_comm_assoc ..

/-- The forest onto which another one is flipped stays as it is. -/
lemma subtrees_subset_flipOnto (f acc : Forest α) : acc.subtrees ⊆ (f.flipOnto acc).subtrees := by
  induction f generalizing acc with
  | nil => exact List.Subset.refl _
  | node a below next _ ihn =>
    refine List.Subset.trans ?_ (ihn _)
    exact List.subset_cons_of_subset _ (List.subset_append_right _ _)

/-- The flipped subtrees of a forest are subtrees of the flipped forest. -/
lemma flip_mem_subtrees_flipOnto {f : Forest α} {r : Rooted α} (hr : r ∈ f.subtrees)
    (acc : Forest α) : r.flip ∈ (f.flipOnto acc).subtrees := by
  induction f generalizing acc with
  | nil => cases hr
  | node a below next ihb ihn =>
    rw [flipOnto]
    simp only [subtrees, List.mem_cons, List.mem_append] at hr
    rcases hr with rfl | hr | hr
    · exact subtrees_subset_flipOnto next _ (List.mem_cons_self ..)
    · refine subtrees_subset_flipOnto next _ (List.mem_cons_of_mem _ ?_)
      exact List.mem_append_left _ (ihb hr nil)
    · exact ihn hr _

end Forest

/-- Flipping a tree keeps its nodes. -/
lemma Rooted.preOrder_flip_perm {α : Type} (r : Rooted α) : r.flip.preOrder.Perm r.preOrder := by
  have hbelow := Forest.preOrder_flipOnto_perm r.below .nil
  rw [Forest.preOrder, List.append_nil] at hbelow
  exact hbelow.cons r.root

/-- A flipped tree is of the same size. -/
lemma Rooted.size_flip {α : Type} (r : Rooted α) : r.flip.size = r.size := by
  rw [← length_preOrder, r.preOrder_flip_perm.length_eq, length_preOrder]

/-- A flipped tree has the same numbers, and is numbered. -/
lemma Rooted.Numbered.flip {r : Rooted Node} (h : r.Numbered) : r.flip.Numbered where
  root := h.root
  ids := by
    rw [r.size_flip]
    exact (r.preOrder_flip_perm.map Node.id).trans h.ids

namespace Tree

/-- The tree with the children of every node in reverse order. -/
def mirror (t : Tree) : Tree := .ofShape t.shape.flip t.numbered.flip t.marks

/-- The tree itself or, if `mirrored`, its mirror image. -/
def oriented (t : Tree) (mirrored : Bool) : Tree := if mirrored then t.mirror else t

variable (t : Tree)

/-- **Mirroring reverses the children of every node.**

**Proof sketch.** A node has its subtree in the tree, and the flipped subtree is the one in the
mirror image; the roots of a flipped forest are reversed.  A number that is no node has no children
in either tree. -/
lemma children_mirror (id : NodeId) : t.mirror.children id = (t.children id).reverse := by
  by_cases hid : id ∈ t.preOrder
  · obtain ⟨r, hr, rfl⟩ : ∃ r ∈ t.shape.toForest.subtrees, r.root.id = id := by
      rw [preOrder_eq, ← Rooted.preOrder_toForest, ← Forest.map_root_subtrees, List.map_map] at hid
      exact List.mem_map.1 hid
    have hflip := t.mirror.knows_shape r.flip (Forest.flip_mem_subtrees_flipOnto hr .nil)
    rw [t.knows_shape r hr, ← List.map_reverse]
    refine hflip.trans (congrArg _ ?_)
    exact (Forest.roots_flipOnto r.below .nil).trans (List.append_nil _)
  · have hid' : id ∉ t.mirror.preOrder := by
      rw [preOrder_eq] at hid ⊢
      exact fun h => hid ((t.shape.preOrder_flip_perm.map Node.id).subset h)
    rw [children, children, entry_of_notMem hid, entry_of_notMem hid']
    rfl

/-- The root is the same, whichever way the tree is turned. -/
lemma root_oriented (mirrored : Bool) : (t.oriented mirrored).root = t.root := by
  cases mirrored <;> rfl

/-- The children of a node are reversed if the tree is mirrored. -/
lemma children_oriented (mirrored : Bool) (id : NodeId) :
    (t.oriented mirrored).children id =
      if mirrored then (t.children id).reverse else t.children id := by
  cases mirrored with
  | false => rfl
  | true => exact t.children_mirror id

/-- There are equally many nodes, whichever way the tree is turned. -/
lemma count_oriented (mirrored : Bool) : (t.oriented mirrored).count = t.count := by
  cases mirrored with
  | false => rfl
  | true => exact t.shape.size_flip

/-- The first child of a node follows it in pre-order, one level down.

**Proof sketch.** The first child is the first root of the forest below the node, hence the first
one of its descendants, and these follow the node in pre-order. -/
lemma preIndex_first_child {t : Tree} {id c : NodeId} {rest : List NodeId}
    (h : t.children id = c :: rest) :
    t.preIndex c = t.preIndex id + 1 ∧ t.depth c = t.depth id + 1 := by
  have hc : c ∈ t.children id := h ▸ List.mem_cons_self ..
  have hid : id ∈ t.preOrder := mem_preOrder_of_children_ne_nil (List.ne_nil_of_mem hc)
  have hparent := mem_children_iff.1 hc
  refine ⟨?_, (place_of_parent? hparent).1⟩
  have hfirst : (t.descendants id)[0]? = some c := by
    rw [children] at h
    rw [descendants_eq hid]
    change ((t.entry id).below.preOrder.map Node.id)[0]? = some c
    cases hbelow : (t.entry id).below with
    | nil => simp [hbelow, Forest.roots] at h
    | node n below next =>
      simp only [hbelow, Forest.roots, List.map_cons, List.cons.injEq] at h
      simp [Forest.preOrder, h.1]
  rw [getElem?_descendants hid] at hfirst
  split at hfirst
  · exact (getElem?_preOrder_eq_some_iff.1 hfirst).2
  · cases hfirst

end Tree

/-! ### Numbers and runs -/

namespace Forest

/-- The steps of a forest belong to its nodes in post-order. -/
lemma map_node_postSteps (f : Forest Node) : f.postSteps.map Step.node = f.postOrder := by
  rw [postSteps_eq_map_entries f none 0 0 0, List.map_map, ← map_node_entries f none 0 0 0]
  rfl

end Forest

namespace Numbering

/-- **The numbers run through the post-order.**

**Proof sketch.** Place by place, since the steps of the numbering are those of post-order. -/
lemma map_node_ofTree (s : Rooted Node) :
    (List.range' 1 (ofTree s).size).map (ofTree s).node = s.toForest.postOrder := by
  have hsize : (ofTree s).size = s.toForest.postSteps.length := by
    rw [size, steps_ofTree, List.size_toArray]
  rw [← Forest.map_node_postSteps, hsize]
  apply List.ext_getElem?
  intro k
  rw [List.getElem?_map, List.getElem?_map]
  by_cases hk : k < s.toForest.postSteps.length
  · rw [List.getElem?_range' hk, List.getElem?_eq_getElem hk, Option.map_some, Option.map_some,
      node, step, steps_ofTree, Nat.one_mul, Nat.add_sub_cancel_left,
      Array.getD_eq_getD_getElem?, List.getElem?_toArray, List.getElem?_eq_getElem hk,
      Option.getD_some]
  · rw [List.getElem?_eq_none (by simpa using hk), List.getElem?_eq_none (by simpa using hk)]
    rfl

variable {a : Numbering} {t : Tree} {mirrored : Bool} {place : Entry → Nat}

/-- A tree and its mirror image are numbered from the left and from the right. -/
lemma exists_describes_oriented (t : Tree) (mirrored : Bool) :
    ∃ place, (ofTree (t.oriented mirrored).shape).Describes t mirrored place := by
  cases mirrored with
  | false => exact ⟨_, describes_ofTree t⟩
  | true => exact ⟨_, describes_ofTree_flip t⟩

/-- **The run of a number holds the nodes of the subtree**, and nothing else.

**Proof sketch.** The run of an entry ends with its own place and is as long as its subtree; the
places in it, except for the last, are those of the entries below. -/
lemma Describes.mem_run_iff (h : a.Describes t mirrored place) {i k : ℕ} (hi : 1 ≤ i)
    (hi' : i ≤ a.size) (hk : 1 ≤ k) (hk' : k ≤ a.size) :
    a.first i ≤ k ∧ k ≤ i ↔
      (a.node k).id = (a.node i).id ∨ t.isDescendant (a.node i).id (a.node k).id = true := by
  obtain ⟨e, he, rfl⟩ := h.onto i hi (h.size ▸ hi')
  obtain ⟨u, hu, rfl⟩ := h.onto k hk (h.size ▸ hk')
  have hfirst := h.first_add_size he
  have hsize := Tree.size_pos_of_mem_entries he
  have hself : (a.node (place u)).id = (a.node (place e)).id ↔ place u = place e := by
    rw [h.node he, h.node hu]
    exact ⟨fun hid => congrArg place (Tree.entry_ext hu he hid),
      fun hp => congrArg (·.node.id) (h.place_inj hu he hp)⟩
  rw [hself, h.node he, h.node hu, Tree.isDescendant_iff_above he hu, h.above e he u hu]
  omega

/-- A run is as long as the subtree is large. -/
lemma Describes.size_node (h : a.Describes t mirrored place) {i : ℕ} (hi : 1 ≤ i)
    (hi' : i ≤ a.size) : t.size (a.node i).id = i - a.first i + 1 := by
  obtain ⟨e, he, rfl⟩ := h.onto i hi (h.size ▸ hi')
  have hfirst := h.first_add_size he
  have hle := a.first_le (place e)
  rw [h.node he, Tree.size, Tree.entry_of_mem_entries he]
  omega

/-- In the numbering from the left a run begins with as many numbers before it as nodes come first
in pre-order without being above. -/
lemma first_postIndex {id : NodeId} (h : id ∈ t.preOrder) :
    (ofTree t.shape).first (t.postIndex id + 1) + t.depth id = t.preIndex id + 1 := by
  obtain ⟨he, -⟩ := Tree.entry_mem_of_mem_preOrder h
  have hrun := (describes_ofTree t).first_add_size he
  have hdepth := Tree.depth_le_preIndex h
  have hsize := Tree.size_pos_of_mem_entries he
  have hpost := (Tree.measures_eq h).2.2.2
  simp only [Tree.postIndex, Tree.depth, Tree.preIndex, Tree.size] at hdepth hpost ⊢
  omega

/-- The node at its place in post-order. -/
lemma node_postIndex {id : NodeId} (h : id ∈ t.preOrder) :
    ((ofTree t.shape).node (t.postIndex id + 1)).id = id := by
  obtain ⟨he, hid⟩ := Tree.entry_mem_of_mem_preOrder h
  exact (congrArg Node.id ((describes_ofTree t).node he)).trans hid

/-- **A run begins where that of the first child begins.**  The number of the child is smaller; a
node without children is a run of its own.

**Proof sketch.** The number of a node is one more than its index in post-order.  Without children,
the run has length one.  Otherwise the first child follows the node in pre-order, one level down,
and this determines where the two runs begin: at the same number. -/
lemma exists_first_child {i : ℕ} (hi : 1 ≤ i) (hi' : i ≤ (ofTree t.shape).size) :
    (t.children ((ofTree t.shape).node i).id = [] → (ofTree t.shape).first i = i) ∧
      ∀ c rest, t.children ((ofTree t.shape).node i).id = c :: rest →
        ∃ k, 1 ≤ k ∧ k < i ∧ ((ofTree t.shape).node k).id = c ∧
          (ofTree t.shape).first i = (ofTree t.shape).first k := by
  have hA := describes_ofTree t
  obtain ⟨e, he, rfl⟩ := hA.onto i hi (hA.size ▸ hi')
  have hid : e.node.id ∈ t.preOrder := Tree.mem_preOrder_of_mem_entries he
  have hpost : t.postIndex e.node.id = e.post := by
    rw [Tree.postIndex, Tree.entry_of_mem_entries he]
  rw [hA.node he]
  constructor
  · intro hnil
    have hsize := hA.size_node hi hi'
    rw [hA.node he, (Tree.measured hid).size_eq_one_iff.2 hnil] at hsize
    have := (ofTree t.shape).first_le (e.post + 1)
    omega
  · intro c rest hchildren
    have hc : c ∈ t.children e.node.id := hchildren ▸ List.mem_cons_self ..
    have hcnode := Tree.mem_preOrder_of_mem_children hc
    have hbelow := Tree.mem_descendants_of_isDescendant
      (Tree.isDescendant_of_parent? (Tree.mem_children_iff.1 hc))
    have hlt := Tree.postIndex_lt_of_mem_descendants hid hbelow
    -- the child follows its parent in pre-order, which fixes the start of both runs
    have hplace := Tree.preIndex_first_child hchildren
    have hfirst := first_postIndex hid
    have hfirst' := first_postIndex hcnode
    rw [hpost] at hlt hfirst
    exact ⟨t.postIndex c + 1, by omega, by omega, node_postIndex hcnode, by omega⟩

/-! ### Keyroots -/

/-- **The keyroots are the largest numbers with their value of `first`.**

**Proof sketch.** That no larger number has the same value of `first` is the same as being the
largest one among the numbers with this value. -/
lemma mem_keyroots_iff_isGreatest {k : ℕ} :
    k ∈ a.keyroots ↔ ∃ i, (1 ≤ i ∧ i ≤ a.size) ∧
      IsGreatest {m | (1 ≤ m ∧ m ≤ a.size) ∧ a.first m = a.first i} k := by
  rw [mem_keyroots_iff]
  constructor
  · rintro ⟨h1, h2, hlast⟩
    refine ⟨k, ⟨h1, h2⟩, ⟨⟨h1, h2⟩, rfl⟩, fun m hm => ?_⟩
    by_contra hlt
    exact hlast m (by omega) hm.1.2 hm.2
  · rintro ⟨i, -, ⟨⟨h1, h2⟩, hfirst⟩, hgreatest⟩
    refine ⟨h1, h2, fun m hlt hm heq => ?_⟩
    have := hgreatest ⟨⟨by omega, hm⟩, heq.trans hfirst⟩
    omega

/-- The root is the last keyroot. -/
lemma getLast?_keyroots (ha : 1 ≤ a.size) : a.keyroots.getLast? = some a.size := by
  have hroot : a.size ∈ a.keyroots := mem_keyroots_iff.2 ⟨ha, le_rfl, fun m h1 h2 => by omega⟩
  obtain ⟨front, k, hsplit⟩ := (List.eq_nil_or_concat' a.keyroots).resolve_left
    (List.ne_nil_of_mem hroot)
  have hk := mem_keyroots_iff.1 (show k ∈ a.keyroots by rw [hsplit]; simp)
  have hsorted := a.pairwise_keyroots
  rw [hsplit] at hroot hsorted ⊢
  rw [List.getLast?_concat, Option.some_inj]
  rcases List.mem_append.1 hroot with hroot | hroot
  · have := (List.pairwise_append.1 hsorted).2.2 _ hroot k (List.mem_singleton_self k)
    omega
  · exact (List.mem_singleton.1 hroot).symm

/-- The weight is a sum over the keyroots. -/
lemma weight_eq_sum : a.weight = (a.keyroots.map fun k => k - a.first k + 1).sum := by
  rw [weight, List.sum_eq_foldl, List.foldl_map]

/-! ### What a numbering is -/

/-- The numbering `a` numbers the nodes of the tree `t`, or of its mirror image, as the edit
distance needs it. -/
structure FollowsPostOrder (a : Numbering) (t : Tree) (mirrored : Bool) : Prop where
  /-- There are as many numbers as nodes. -/
  size : a.size = t.count
  /-- The numbers run through the post-order. -/
  order : (List.range' 1 a.size).map (fun i => (a.node i).id) = (t.oriented mirrored).postOrder
  /-- That is the order of a tour with a stack, backwards. -/
  tour : (Tour.start (t.oriented mirrored)).after (t.oriented mirrored) Tour.stacked t.count =
    some ⟨((List.range' 1 a.size).map fun i => (a.node i).id).reverse, []⟩
  /-- The run of a number holds the nodes of the subtree. -/
  run : ∀ i k, 1 ≤ i → i ≤ a.size → 1 ≤ k → k ≤ a.size →
    (a.first i ≤ k ∧ k ≤ i ↔
      (a.node k).id = (a.node i).id ∨ t.isDescendant (a.node i).id (a.node k).id = true)
  /-- A node without children is a run of its own. -/
  first_leaf : ∀ i, 1 ≤ i → i ≤ a.size → (t.oriented mirrored).children (a.node i).id = [] →
    a.first i = i
  /-- Any other run begins where that of the first child begins, which has a smaller number. -/
  first_child : ∀ i, 1 ≤ i → i ≤ a.size → ∀ c rest,
    (t.oriented mirrored).children (a.node i).id = c :: rest →
      ∃ k, 1 ≤ k ∧ k < i ∧ (a.node k).id = c ∧ a.first i = a.first k
  /-- The keyroots are in increasing order. -/
  sorted : a.keyroots.Pairwise (· < ·)
  /-- The keyroots are the largest numbers with their value of `first`. -/
  keyroots : ∀ k, k ∈ a.keyroots ↔ ∃ i, (1 ≤ i ∧ i ≤ a.size) ∧
    IsGreatest {m | (1 ≤ m ∧ m ≤ a.size) ∧ a.first m = a.first i} k
  /-- The last keyroot is the root. -/
  last : a.keyroots.getLast? = some a.size
  /-- The weight adds up the sizes of the subtrees at the keyroots. -/
  weight : a.weight = (a.keyroots.map fun k => t.size (a.node k).id).sum

end Numbering

/-- **Numbers follow the post-order, subtrees are runs of numbers, and the keyroots are the largest
numbers with their value of `first`.**  This holds for a tree and for its mirror image, in which the
children of every node stand in reverse order.

**Proof sketch.** The description of the tree by its numbering gives the runs.  The order of the
numbers is the post-order of the tree or its mirror image, and keyroots and first children are dealt
with by the lemmas above. -/
theorem numbering_follows_post_order (t : Tree) (mirrored : Bool) :
    ((t.oriented mirrored).shape = (if mirrored then t.shape.flip else t.shape) ∧
      (t.oriented mirrored).root = t.root ∧ ∀ id, (t.oriented mirrored).children id =
        if mirrored then (t.children id).reverse else t.children id) ∧
    (Numbering.ofTree (t.oriented mirrored).shape).FollowsPostOrder t mirrored := by
  obtain ⟨place, hA⟩ := Numbering.exists_describes_oriented t mirrored
  have horder : (List.range' 1 (Numbering.ofTree (t.oriented mirrored).shape).size).map
      (fun i => ((Numbering.ofTree (t.oriented mirrored).shape).node i).id) =
        (t.oriented mirrored).postOrder := by
    rw [Tree.postOrder_eq, ← Numbering.map_node_ofTree, List.map_map]
    rfl
  refine ⟨⟨by cases mirrored <;> rfl, t.root_oriented mirrored, t.children_oriented mirrored⟩,
    hA.size, horder, ?_, fun i k hi hi' hk hk' => hA.mem_run_iff hi hi' hk hk',
    fun i hi hi' => (Numbering.exists_first_child hi hi').1,
    fun i hi hi' => (Numbering.exists_first_child hi hi').2, Numbering.pairwise_keyroots,
    fun k => Numbering.mem_keyroots_iff_isGreatest, Numbering.getLast?_keyroots hA.laminar.pos, ?_⟩
  · rw [horder, ← t.count_oriented mirrored]
    exact (t.oriented mirrored).after_count_stacked
  · rw [Numbering.weight_eq_sum]
    refine congrArg List.sum (List.map_congr_left fun k hk => ?_)
    obtain ⟨h1, h2, -⟩ := Numbering.mem_keyroots_iff.1 hk
    exact (hA.size_node h1 h2).symm

end TreeMatching
