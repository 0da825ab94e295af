import TreeMatching.Proofs.PlanRuns
import TreeMatching.Proofs.VoteTables

set_option autoImplicit false

/-!
# Alike trees are paired by position

If two trees agree in everything but the numbers of their nodes, then linking identical subtrees
pairs the nodes that stand at the same place in pre-order, and no later stage changes that.  It does
not matter how often subtrees are repeated within the trees.

## Main definitions

* `Tree.Alike` — two trees become equal once the numbers of their nodes are erased.
* `SamePlace` — two nodes stand at the same place of their trees, in pre-order.
* `Pairing.Positional` — the pairs are the nodes that stand at the same place.
* `Forest.places` — the places of the nodes of a forest, with those of their parents.

## Main results

* `Tree.Alike.content_eq`, `Tree.Alike.samePlace_parent` — nodes at the same place have the same
  content, and their parents stand at the same place as well.
* `Identical.returns_run_empty` — linking identical subtrees pairs alike trees by position.
* `Stage.returns_of_positional` — every stage leaves alike trees that are paired by position alone.
* `alike_trees_are_paired_by_position` — the two together, for plans, presets and the standard way
  to match trees.

## Design

The first stage is settled by its first step: the root of the source tree is the highest of all
shared subtrees, and both trees contain it only once.  After that step every node has a partner, and
a stage that only adds pairs has nothing to add.  The repairs need more: orphans are looked for
among free nodes, unlike leaves among pairs with different labels, and a parent only gets votes for
the partner it has.
-/

namespace TreeMatching

open Matching

/-! ### Places of parents -/

namespace Forest

variable {α β : Type}

/-- The places of the nodes in pre-order, counted from `pre`, each with the place of its parent; the
roots have the given one.  Like the entries of a survey, the nodes are listed in post-order. -/
def places : Forest α → Option Nat → Nat → List (Nat × Option Nat)
  | .nil, _, _ => []
  | .node _ below next, parent, pre =>
    below.places (some pre) (pre + 1) ++
      (pre, parent) :: next.places parent (pre + (below.size + 1))

/-- Places depend on the shape alone. -/
lemma places_map (h : α → β) (f : Forest α) (parent : Option Nat) (pre : Nat) :
    (f.map h).places parent pre = f.places parent pre := by
  induction f generalizing parent pre with
  | nil => rfl
  | node a below next ihb ihn => simp [map, places, ihb, ihn]

/-- The entries of a survey tell the places of the nodes and of their parents. -/
lemma map_places_entries {index : NodeId → Nat} {f : Forest Node} {parent : Option NodeId}
    {depth position pre : Nat}
    (hindex : ∀ e ∈ f.entries parent depth position pre, index e.node.id = e.pre) :
    (f.entries parent depth position pre).map (fun e => (e.pre, e.parent.map index)) =
      f.places (parent.map index) pre := by
  induction f generalizing parent depth position pre with
  | nil => rfl
  | node n below next ihb ihn =>
    simp only [entries, List.mem_append, List.mem_cons] at hindex
    have hn : index n.id = pre := hindex _ (.inr (.inl rfl))
    have hbelow := ihb fun e he => hindex e (.inl he)
    have hnext := ihn fun e he => hindex e (.inr (.inr he))
    simp only [entries, List.map_append, List.map_cons, hbelow, hnext, places, rootEntry,
      Option.map_some, hn]

/-- What lies in a forest has fewer levels under it than the forest. -/
lemma levels_lt_of_mem_entries {f : Forest Node} {parent : Option NodeId}
    {depth position pre : Nat} {e : Entry} (he : e ∈ f.entries parent depth position pre) :
    e.below.levels < f.levels := by
  induction f generalizing parent depth position pre with
  | nil => simp [entries] at he
  | node n below next ihb ihn =>
    simp only [entries, List.mem_append, List.mem_cons] at he
    simp only [levels]
    rcases he with he | rfl | he
    · have := ihb he
      omega
    · simp only [rootEntry]
      omega
    · have := ihn he
      omega

end Forest

/-! ### Alike trees -/

/-- Two nodes stand at the same place of their trees, in pre-order. -/
def SamePlace (src dst : Tree) (s d : NodeId) : Prop :=
  ∃ k : Nat, src.preOrder[k]? = some s ∧ dst.preOrder[k]? = some d

/-- The pairs are the nodes that stand at the same place of the two trees, seen from either
side. -/
def Pairing.Positional (p : Pairing) (src dst : Tree) : Prop :=
  ∀ s d, (p.dst? s = some d ↔ SamePlace src dst s d) ∧ (p.src? d = some s ↔ SamePlace src dst s d)

namespace Tree

/-- Two trees agree in shape, kinds and labels: they become equal once the numbers of their nodes
are erased. -/
def Alike (s t : Tree) : Prop := s.shape.map Node.content = t.shape.map Node.content

variable {src dst t : Tree} {s d id : NodeId}

/-- Two nodes are at the same place exactly if they have the same index in pre-order. -/
lemma samePlace_iff :
    SamePlace src dst s d ↔
      s ∈ src.preOrder ∧ d ∈ dst.preOrder ∧ src.preIndex s = dst.preIndex d := by
  simp only [SamePlace, getElem?_preOrder_eq_some_iff]
  constructor
  · rintro ⟨k, ⟨hs, hsk⟩, hd, hdk⟩
    exact ⟨hs, hd, hsk.trans hdk.symm⟩
  · rintro ⟨hs, hd, h⟩
    exact ⟨dst.preIndex d, ⟨hs, h⟩, hd, rfl⟩

/-- The shape has the node itself at its place. -/
lemma getElem?_preOrder_shape (h : id ∈ t.preOrder) :
    t.shape.preOrder[t.preIndex id]? = some (t.entry id).node := by
  have hget := Forest.getElem?_preOrder_of_mem_entries (entry_mem_of_mem_preOrder h).1
  rwa [Rooted.preOrder_toForest, Nat.sub_zero] at hget

/-- The tables know the places of parents. -/
lemma map_places_entries (t : Tree) :
    t.entries.map (fun e => (e.pre, e.parent.map t.preIndex)) = t.shape.toForest.places none 0 :=
  Forest.map_places_entries fun e he => by rw [preIndex, entry_of_mem_entries he]

namespace Alike

variable (h : src.Alike dst)

include h

/-- Alike trees have the same contents in pre-order. -/
lemma preOrder_content : src.shape.preOrder.map Node.content =
    dst.shape.preOrder.map Node.content := by
  rw [← Rooted.preOrder_map, ← Rooted.preOrder_map]
  exact congrArg Rooted.preOrder h

/-- Alike trees have equally many nodes. -/
lemma count_eq : src.count = dst.count := by
  have hlen := congrArg List.length h.preOrder_content
  rwa [List.length_map, List.length_map, Rooted.length_preOrder, Rooted.length_preOrder] at hlen

/-- Every source node has a counterpart at its place. -/
lemma exists_samePlace (hs : s ∈ src.preOrder) : ∃ d, SamePlace src dst s d := by
  obtain ⟨k, hk⟩ := List.mem_iff_getElem?.1 hs
  have hlt := (List.getElem?_eq_some_iff.1 hk).1
  rw [length_preOrder, h.count_eq, ← length_preOrder] at hlt
  exact ⟨_, k, hk, List.getElem?_eq_getElem hlt⟩

/-- **Nodes at the same place have the same content.** -/
lemma content_eq (hsd : SamePlace src dst s d) :
    (src.entry s).node.content = (dst.entry d).node.content := by
  obtain ⟨hs, hd, hpre⟩ := samePlace_iff.1 hsd
  have hget := congrArg (·[src.preIndex s]?) h.preOrder_content
  simp only [List.getElem?_map, getElem?_preOrder_shape hs] at hget
  rw [hpre, getElem?_preOrder_shape hd] at hget
  simpa using hget

/-- **The parents of nodes at the same place stand at the same place.**

**Proof sketch.** The list of the places of all nodes and their parents is the same for both trees,
because it depends on the shape alone, and it mentions the place of each node once. -/
lemma samePlace_parent {a b : NodeId} (hsd : SamePlace src dst s d) (ha : src.parent? s = some a)
    (hb : dst.parent? d = some b) : SamePlace src dst a b := by
  obtain ⟨hs, hd, hpre⟩ := samePlace_iff.1 hsd
  have hshape : src.shape.toForest.map Node.content = dst.shape.toForest.map Node.content := by
    have hroot : src.shape.root.content = dst.shape.root.content := congrArg Rooted.root h
    have hbelow : src.shape.below.map Node.content = dst.shape.below.map Node.content :=
      congrArg Rooted.below h
    simp only [Rooted.toForest, Forest.map, hroot, hbelow]
  have hplaces : src.entries.map (fun e => (e.pre, e.parent.map src.preIndex)) =
      dst.entries.map (fun e => (e.pre, e.parent.map dst.preIndex)) := by
    rw [map_places_entries, map_places_entries, ← Forest.places_map Node.content, hshape,
      Forest.places_map]
  have hmem := List.mem_map_of_mem (f := fun e : Entry => (e.pre, e.parent.map src.preIndex))
    (entry_mem_of_mem_preOrder hs).1
  rw [hplaces] at hmem
  obtain ⟨e, he, heq⟩ := List.mem_map.1 hmem
  obtain ⟨hplace, hparent⟩ := Prod.mk.injEq .. ▸ heq
  -- the destination entry with these places is that of `d`
  have hed : e.node.id = d := by
    refine (preIndex_inj (mem_preOrder_of_mem_entries he) hd).1 ?_
    rw [← hpre, preIndex, entry_of_mem_entries he]
    exact hplace
  subst hed
  have hb' : e.parent = some b := by rwa [parent?, entry_of_mem_entries he] at hb
  have ha' : (src.entry s).parent = some a := ha
  rw [ha', hb', Option.map_some, Option.map_some, Option.some.injEq] at hparent
  exact samePlace_iff.2 ⟨mem_preOrder_of_parent? ha, mem_preOrder_of_parent? hb, hparent.symm⟩

end Alike

/-! ### Roots -/

/-- Only the root has the whole tree under it. -/
lemma eq_root_of_size_eq (hid : id ∈ t.preOrder) (h : t.size id = t.count) : id = t.root := by
  refine (preIndex_inj hid root_mem_preOrder).1 ?_
  have hle := preIndex_add_size_le hid
  rw [preIndex, preIndex, entry_root]
  change t.preIndex id = 0
  omega

/-- All other nodes are lower than the root. -/
lemma height_lt_height_root (hid : id ∈ t.preOrder) (hne : id ≠ t.root) :
    t.height id < t.height t.root := by
  obtain ⟨he, hn⟩ := entry_mem_of_mem_preOrder hid
  simp only [entries, Rooted.toForest, Forest.entries, List.mem_append, List.mem_cons,
    List.not_mem_nil, or_false] at he
  rcases he with he | he
  · have hlt := Forest.levels_lt_of_mem_entries he
    rw [height, height, entry_root, Forest.eq_rootEntry_of_mem he]
    exact hlt
  · rw [he] at hn
    exact absurd hn.symm hne

end Tree

/-! ### Pairings by position -/

namespace Pairing

variable {p : Pairing} {src dst : Tree}

/-- A pairing of alike trees in which all nodes at the same place are linked has no further
pairs. -/
lemma positional_of_joins (h : src.Alike dst) (hp : p.Joins src dst)
    (hall : ∀ s d, SamePlace src dst s d → p.dst? s = some d) : p.Positional src dst := by
  have hdst : ∀ s d, p.dst? s = some d ↔ SamePlace src dst s d := by
    refine fun s d => ⟨fun hsd => ?_, hall s d⟩
    obtain ⟨d', hplace⟩ := h.exists_samePlace (hp.nodes s d hsd).1
    rw [hall s d' hplace, Option.some.injEq] at hsd
    rwa [← hsd]
  exact fun s d => ⟨hdst s d, (hp.oneToOne s d).symm.trans (hdst s d)⟩

namespace Positional

variable (hp : p.Positional src dst)

include hp

/-- A pairing by position joins nodes of the two trees, one to one. -/
lemma joins : p.Joins src dst where
  oneToOne s d := (hp s d).1.trans (hp s d).2.symm
  nodes s d hsd := by
    obtain ⟨hs, hd, -⟩ := Tree.samePlace_iff.1 ((hp s d).1.1 hsd)
    exact ⟨hs, hd⟩

variable (h : src.Alike dst)

include h

/-- Every source node has a partner. -/
lemma hasSrc {s : NodeId} (hs : s ∈ src.preOrder) : p.hasSrc s = true := by
  obtain ⟨d, hplace⟩ := h.exists_samePlace hs
  rw [Pairing.hasSrc, (hp s d).1.2 hplace]
  rfl

/-- Every destination node has a partner. -/
lemma hasDst {d : NodeId} (hd : d ∈ dst.preOrder) : p.hasDst d = true := by
  have hback : dst.Alike src := h.symm
  obtain ⟨s, k, hk, hk'⟩ := hback.exists_samePlace hd
  rw [Pairing.hasDst, (hp s d).2.2 ⟨k, hk', hk⟩]
  rfl

end Positional

end Pairing

/-! ### Linking identical subtrees -/

variable {task : Task} {p q : Pairing}

namespace Identical

/-- The first nodes are among the given ones, and the subtree of every given node is that of a first
node.

**Proof sketch.** Induction along the list, from its end.  A node is added if no first node has its
subtree; if it is not added, some first node has. -/
lemma firsts_spec (t : Tree) (nodes : List NodeId) :
    (∀ r ∈ firsts t nodes, r ∈ nodes) ∧
      ∀ s ∈ nodes, ∃ r ∈ firsts t nodes, t.sameSubtree t r s = true := by
  induction nodes using List.reverseRecOn with
  | nil => simp [firsts]
  | append_singleton nodes x ih =>
    obtain ⟨hsub, hcover⟩ := ih
    have hconcat : firsts t (nodes ++ [x]) =
        if (firsts t nodes).any fun r => t.sameSubtree t r x then firsts t nodes
        else firsts t nodes ++ [x] := by
      rw [firsts, List.foldl_append]
      rfl
    rw [hconcat]
    split
    · next hany =>
      refine ⟨fun r hr => List.mem_append_left _ (hsub r hr), fun s hs => ?_⟩
      rcases List.mem_append.1 hs with hs | hs
      · exact hcover s hs
      · rw [List.mem_singleton.1 hs]
        exact List.any_eq_true.1 hany
    · refine ⟨fun r hr => ?_, fun s hs => ?_⟩
      · rcases List.mem_append.1 hr with hr | hr
        · exact List.mem_append_left _ (hsub r hr)
        · exact List.mem_append_right _ hr
      · rcases List.mem_append.1 hs with hs | hs
        · obtain ⟨r, hr, hrs⟩ := hcover s hs
          exact ⟨r, List.mem_append_left _ hr, hrs⟩
        · refine ⟨s, List.mem_append_right _ hs, ?_⟩
          exact Tree.sameSubtree_iff.2 ⟨rfl, rfl⟩

/-- Of the nodes of a tree, only the root has the subtree of the root. -/
lemma filter_sameSubtree_root {s t : Tree} {a : NodeId} (free : NodeId → Bool)
    (hsize : s.size a = t.count) (hroot : s.sameSubtree t a t.root = true)
    (hfree : free t.root = true) :
    (t.preOrder.filter fun n => s.sameSubtree t a n && free n) = [t.root] := by
  have hcons : t.preOrder = t.root :: t.shape.below.preOrder.map Node.id := by
    rw [Tree.preOrder_eq]
    rfl
  have hnodup := hcons ▸ t.nodup_preOrder
  rw [hcons, List.filter_cons_of_pos (by rw [hroot, hfree]; rfl)]
  refine congrArg _ (List.filter_eq_nil_iff.2 fun n hn hcond => ?_)
  have hsame := (Tree.sameSubtree_iff.1 (Bool.and_eq_true_iff.1 hcond).1).1
  have hn' : n = t.root :=
    Tree.eq_root_of_size_eq (hcons ▸ List.mem_cons_of_mem _ hn) (hsame.symm.trans hsize)
  exact (List.nodup_cons.1 hnodup).1 (hn' ▸ hn)

/-- Representatives are nodes of the source tree. -/
lemma mem_preOrder_of_mem_representatives {r : NodeId} (hr : r ∈ representatives task p) :
    r ∈ task.src.preOrder :=
  (List.mem_filter.1 ((firsts_spec _ _).1 r (List.mem_mergeSort.1 hr))).1

/-- The highest subtrees come first. -/
lemma pairwise_representatives (task : Task) (p : Pairing) :
    (representatives task p).Pairwise fun a b => task.src.height b ≤ task.src.height a := by
  have hsorted : (representatives task p).Pairwise fun a b =>
      decide (task.src.height b ≤ task.src.height a) = true :=
    List.pairwise_mergeSort (fun a b c => by simpa using fun h1 h2 => le_trans h2 h1)
      (fun a b => by simpa using le_total _ _) _
  exact hsorted.imp of_decide_eq_true

/-- Free nodes with the same subtree have a representative. -/
lemma exists_representative {s d : NodeId} (hs : s ∈ task.src.preOrder)
    (hd : d ∈ task.dst.preOrder) (hsame : task.src.sameSubtree task.dst s d = true)
    (hsf : p.dst? s = none) (hdf : p.src? d = none) :
    ∃ r ∈ representatives task p, task.src.sameSubtree task.src r s = true := by
  have hshared : s ∈ shared task p := by
    simp only [shared, List.mem_filter, Bool.and_eq_true, List.any_eq_true]
    exact ⟨hs, Pairing.not_hasSrc_iff.2 hsf, d, ⟨hd, Pairing.not_hasDst_iff.2 hdf⟩, hsame⟩
  obtain ⟨r, hr, hrs⟩ := (firsts_spec task.src _).2 _ hshared
  exact ⟨r, List.mem_mergeSort.2 hr, hrs⟩

variable (h : task.src.Alike task.dst)

include h

/-- The roots of alike trees have the same subtree: the whole tree. -/
lemma sameSubtree_root : task.src.sameSubtree task.dst task.src.root task.dst.root = true := by
  rw [Tree.sameSubtree_iff, Tree.size_root, Tree.size_root, Tree.subtree_root, Tree.subtree_root]
  exact ⟨h.count_eq, h⟩

/-- **The root comes first** among the subtrees that alike trees share, since it is the highest.

**Proof sketch.** The root has a representative with the same subtree.  Only the root itself has a
subtree of that size, so it is among the representatives.  These come with the highest first, and
every other node is lower than the root. -/
lemma representatives_empty :
    ∃ rest, representatives task .empty = task.src.root :: rest := by
  have hmem := fun r (hr : r ∈ representatives task .empty) =>
    mem_preOrder_of_mem_representatives hr
  have hsorted := pairwise_representatives task .empty
  have hroot : task.src.root ∈ representatives task .empty := by
    obtain ⟨r, hr, hsame⟩ := exists_representative Tree.root_mem_preOrder Tree.root_mem_preOrder
      (sameSubtree_root h) Pairing.dst?_empty Pairing.src?_empty
    have hsize := (Tree.sameSubtree_iff.1 hsame).1
    rwa [Tree.eq_root_of_size_eq (hmem r hr) (hsize.trans task.src.size_root)] at hr
  cases hreps : representatives task .empty with
  | nil =>
    rw [hreps] at hroot
    cases hroot
  | cons r rest =>
    rw [hreps] at hroot hsorted hmem
    refine ⟨rest, congrArg (· :: rest) ?_⟩
    by_contra hne
    -- whatever stands in front is at least as high as the root, hence the root
    have hlt := Tree.height_lt_height_root (hmem r (List.mem_cons_self ..)) hne
    have htail : task.src.root ∈ rest :=
      (List.mem_cons.1 hroot).resolve_left fun e => hne e.symm
    have hle := (List.pairwise_cons.1 hsorted).1 _ htail
    omega

/-- The occurrences of the root are the two roots, so the trees are linked as a whole.

**Proof sketch.** On the empty pairing the occurrences of the whole tree are the two roots.  Linking
them as a whole links the nodes at each place of pre-order, and this is what pairing by position
means. -/
lemma returns_linkOccurrences_root :
    Returns (linkOccurrences task task.src.root) .empty fun _ q =>
      q.Positional task.src task.dst := by
  have hempty : Pairing.empty.Joins task.src task.dst := ⟨Pairing.oneToOne_empty, nofun⟩
  have hlink := (occurrences_zip task .empty task.src.root).returns_forM
  have hsrcs := filter_sameSubtree_root (srcUntouched task.src .empty) task.src.size_root
    (Tree.sameSubtree_iff.2 ⟨rfl, rfl⟩) (srcUntouched_iff.2 fun _ _ => rfl)
  have hdsts := filter_sameSubtree_root (dstUntouched task.dst .empty)
    (task.src.size_root.trans h.count_eq) (sameSubtree_root h) (dstUntouched_iff.2 fun _ _ => rfl)
  refine returns_pairing_bind (hlink.mono ?_)
  rintro - q ⟨hgrows, hall⟩
  rw [hsrcs, hdsts] at hall
  refine Pairing.positional_of_joins h (hgrows.joins hempty) fun s d ⟨k, hs, hd⟩ => ?_
  rw [Tree.preOrder_eq, List.getElem?_map, Option.map_eq_some_iff] at hs hd
  obtain ⟨n, hn, rfl⟩ := hs
  obtain ⟨m, hm, rfl⟩ := hd
  refine (hall n.id m.id).2 (.inr ?_)
  simp only [List.zip_cons_cons, List.zip_nil_right, List.flatMap_singleton, pairsBelow, zipNodes,
    Tree.subtree_root]
  exact List.mem_map.2 ⟨(n, m), List.mem_of_getElem? (List.getElem?_zip_eq_some.2 ⟨hn, hm⟩), rfl⟩

end Identical

/-! ### Stages that only add pairs -/

/-- A pairing in which every source node has a partner cannot grow. -/
lemma Grows.eq_of_hasSrc (hgrows : Grows task p q)
    (hfull : ∀ s ∈ task.src.preOrder, p.hasSrc s = true) : q = p := by
  induction hgrows with
  | refl => rfl
  | link _ hs _ hsn _ _ ih =>
    subst ih
    have hlinked := hfull _ hsn
    rw [Pairing.hasSrc, hs] at hlinked
    cases hlinked

section Stages

variable (h : task.src.Alike task.dst) (hp : p.Positional task.src task.dst)

include h hp

/-- A computation that makes pairings grow leaves a pairing by position as it is, since no node is
free. -/
lemma Matching.Returns.eq_of_positional {x : Matching Unit}
    (hx : Returns x p fun _ => Grows task p) : Returns x p fun _ q => q = p :=
  hx.mono fun _ _ hgrows => hgrows.eq_of_hasSrc fun _ => hp.hasSrc h

/-- A computation that only adds leaves a pairing by position as it is. -/
lemma Matching.OnlyAdds.eq_of_positional {x : Matching Unit} (hx : OnlyAdds task x) :
    Returns x p fun _ q => q = p :=
  (hx p hp.joins.oneToOne).eq_of_positional h hp

/-- A scan in parts does not break down if no source leaf is free. -/
lemma LeafScan.sharded_ne_error {judge : NodeId → NodeId → String → Memo → Option Score × Memo}
    {read : NodeId → Except (Option String) String} {w : Nat} (fault : Fault) :
    (LeafScan.ofFree task.src task.dst p judge).sharded read w ≠ .error fault := by
  intro herror
  obtain ⟨k, note, -, hbreak⟩ := LeafScan.sharded_eq_error_iff.1 herror
  have hnil : (LeafScan.ofFree task.src task.dst p judge).srcLeaves = [] := by
    refine List.filter_eq_nil_iff.2 fun a ha => ?_
    simp [hp.hasSrc h (Tree.mem_preOrder_of_mem_leaves ha)]
  have hbreaks := hbreak.breaks
  rw [LeafScan.part, hnil] at hbreaks
  cases hbreaks

/-! ### Repairs -/

/-- All nodes have partners, so there are no orphans. -/
lemma OrphanLeaves.returns_of_positional : Returns (OrphanLeaves.run task) p fun _ q => q = p := by
  have hsrcs : (task.src.preOrder.filter fun n => !p.hasSrc n) = [] :=
    List.filter_eq_nil_iff.2 fun n hn => by simp [hp.hasSrc h hn]
  have hdsts : (task.dst.preOrder.filter fun n => !p.hasDst n) = [] :=
    List.filter_eq_nil_iff.2 fun n hn => by simp [hp.hasDst h hn]
  refine returns_pairing_bind ?_
  rw [hsrcs, hdsts]
  exact returns_pure rfl

/-- All pairs have the same label, so none of them is reconsidered.

**Proof sketch.** In alike trees, nodes at the same place have the same label, so there is no unlike
pair, and neither pass has anything to do. -/
lemma LeafMoves.returns_of_positional : Returns (LeafMoves.run task) p fun _ q => q = p := by
  have hwork : p.pairs.filter (isUnlike task) = [] := by
    refine List.filter_eq_nil_iff.2 fun z hz => ?_
    have hcontent := h.content_eq ((hp z.src z.dst).1.1 (Pairing.mem_pairs_iff.1 hz))
    have hlabel : task.src.label z.src = task.dst.label z.dst := congrArg Prod.snd hcontent
    simp [isUnlike, Tree.sameLabel, hlabel]
  have hreconcile : ∀ anchor, Returns (reconcile task anchor) p fun _ q => q = p := by
    intro anchor
    refine returns_pairing_bind ?_
    rw [hwork]
    cases task.settings.maxRounds <;> exact returns_pure rfl
  refine (hreconcile .mappedParent).bind fun _ q hq => ?_
  subst hq
  exact (hreconcile .ownParent).bind fun _ _ hr => returns_pure hr

/-- Every vote is for nodes that are linked already. -/
lemma ParentVote.linked_of_mem_votes {z : Pair} (hz : z ∈ votes task p) :
    p.dst? z.src = some z.dst := by
  simp only [votes, List.mem_filterMap, Option.bind_eq_bind, Option.bind_eq_some_iff] at hz
  obtain ⟨x, hx, a, ha, b, hb, hz⟩ := hz
  cases hz
  have hplace := (hp x.src x.dst).1.1 (Pairing.mem_pairs_iff.1 hx)
  exact (hp a b).1.2 (h.samePlace_parent hplace ha hb)

end Stages

namespace ParentVote

/-- A node has votes only if it is on a ballot. -/
lemma mem_of_mem_tallyFor {ballots : List Pair} {parent : NodeId} {c : NodeId × Nat}
    (hc : c ∈ tallyFor ballots parent) : ⟨parent, c.1⟩ ∈ ballots := by
  refine List.foldlRecOn (motive := fun counts : List (NodeId × Nat) =>
    ∀ n ∈ counts.map Prod.fst, ⟨parent, n⟩ ∈ ballots) _ _ (by simp) ?_ c.1 (List.mem_map_of_mem hc)
  intro counts hcounts z hz n hn
  rw [map_fst_addVote] at hn
  split at hn
  · exact hcounts n hn
  · rcases List.mem_append.1 hn with hn | hn
    · exact hcounts n hn
    · obtain ⟨hz, hparent⟩ := List.mem_filter.1 hz
      rw [List.mem_singleton.1 hn, ← beq_iff_eq.1 hparent]
      exact hz

/-- Whoever wins a vote is the partner already, so no parent is moved.

**Proof sketch.** Votes are given by linked children for the parents of their partners.  These
parents are partners already if nodes are paired by position, so no winner is new, and no parent is
moved. -/
lemma returns_of_positional (h : task.src.Alike task.dst)
    (hp : p.Positional task.src task.dst) : Returns (run task) p fun _ q => q = p := by
  refine returns_pairing_bind (returns_forM (I := (· = p)) rfl fun parent _ q hq => ?_)
  subst hq
  refine returns_pairing_bind ?_
  have hnone : winner? task q parent (tallyFor (votes task q) parent) = none := by
    rw [Option.eq_none_iff_forall_ne_some]
    intro x hx
    simp only [winner?, Option.bind_eq_bind, Option.bind_eq_some_iff] at hx
    obtain ⟨c, hc, partner, hpartner, rival, -, hx⟩ := hx
    have hlinked := linked_of_mem_votes h hp (mem_of_mem_tallyFor (mem_of_uniqueMax hc))
    rw [hpartner, Option.some.injEq] at hlinked
    rw [if_pos hlinked] at hx
    cases hx
  rw [hnone]
  exact returns_pure rfl

end ParentVote

/-! ### Plans -/

/-- **Linking identical subtrees pairs alike trees by position.** -/
theorem Identical.returns_run_empty (h : task.src.Alike task.dst) :
    Returns (Identical.run task) .empty fun _ q => q.Positional task.src task.dst := by
  obtain ⟨rest, hreps⟩ := representatives_empty h
  refine returns_pairing_bind ?_
  rw [hreps]
  refine (returns_linkOccurrences_root h).bind fun _ q hq => ?_
  have hrest : OnlyAdds task (rest.forM (linkOccurrences task)) :=
    onlyAdds_forM fun r _ => onlyAdds_linkOccurrences r
  exact (hrest.eq_of_positional h hq).mono fun _ _ hr => hr ▸ hq

/-- **Every stage leaves alike trees alone that are paired by position**, unless they are too large
for it.

**Proof sketch.** Stages that only add have nothing to add, as all nodes are linked.  A search for
leaves cannot fail because there are no free leaves to compare.  The repairing stages are dealt with
by the lemmas above. -/
theorem Stage.returns_of_positional (h : task.src.Alike task.dst)
    (hp : p.Positional task.src task.dst) (stage : Stage)
    (hlimit : stage = .leastEdit → task.src.count * task.dst.count ≤ task.settings.cellLimit) :
    Returns (stage.run task) p fun _ q => q = p := by
  have hrepair : Returns (Stage.repair.run task) p fun _ q => q = p := by
    refine (OrphanLeaves.returns_of_positional h hp).bind fun _ q hq => ?_
    subst hq
    refine (ParentVote.returns_of_positional h hp).bind fun _ r hr => ?_
    subst hr
    exact LeafMoves.returns_of_positional h hp
  cases stage with
  | identical => exact Identical.onlyAdds_run.eq_of_positional h hp
  | topDown => exact TopDown.onlyAdds_run.eq_of_positional h hp
  | bestFit => exact BestFit.onlyAdds_run.eq_of_positional h hp
  | leaves => exact Leaves.onlyAdds_run.eq_of_positional h hp
  | leavesSharded =>
    rcases Leaves.runSharded_spec task hp.joins.oneToOne with ⟨fault, hfault, -⟩ | ⟨-, hreturns⟩
    · exact absurd hfault (LeafScan.sharded_ne_error h hp fault)
    · exact hreturns.eq_of_positional h hp
  | firstFit => exact FirstFit.onlyAdds_run.eq_of_positional h hp
  | labelAware =>
    rcases LabelAware.run_spec task hp.joins.oneToOne with ⟨fault, hfault, -⟩ | ⟨-, hreturns⟩
    · exact absurd hfault (LeafScan.sharded_ne_error h hp fault)
    · exact hreturns.eq_of_positional h hp
  | leastEdit =>
    rcases LeastEdit.run_spec task hp.joins.oneToOne with ⟨hlarge, -⟩ | ⟨-, hreturns⟩
    · exact absurd (hlimit rfl) hlarge.not_ge
    · exact hreturns.eq_of_positional h hp
  | realign => exact Realign.onlyAdds_run.eq_of_positional h hp
  | repair => exact hrepair
  | orphanLeaves => exact OrphanLeaves.returns_of_positional h hp
  | parentVote => exact ParentVote.returns_of_positional h hp
  | leafMoves => exact LeafMoves.returns_of_positional h hp

/-- A plan that starts with identical subtrees pairs alike trees by position. -/
lemma Plan.positional_perform (task : Task) (plan : Plan) (h : task.src.Alike task.dst)
    (hfirst : plan.head? = some .identical)
    (hlimit : .leastEdit ∈ plan → task.src.count * task.dst.count ≤ task.settings.cellLimit) :
    (plan.perform task .empty).fault = none ∧
      (plan.perform task .empty).pairing.Positional task.src task.dst := by
  obtain ⟨rest, rfl⟩ := List.head?_eq_some_iff.1 hfirst
  have hrun : Returns (Plan.run (.identical :: rest) task) .empty fun _ q =>
      q.Positional task.src task.dst := by
    refine (Identical.returns_run_empty h).bind fun _ q hq => returns_forM hq ?_
    intro stage hstage r hr
    have hkeeps := stage.returns_of_positional h hr fun he =>
      hlimit (he ▸ List.mem_cons_of_mem _ hstage)
    exact hkeeps.mono fun _ _ heq => heq ▸ hr
  exact hrun.perform

/-- **Alike trees are paired by position.**  If two trees agree in shape, kinds and labels, then a
plan that starts with identical subtrees, run on the empty pairing with any settings, does not fail
and pairs each node with the one at the same place in pre-order, and with no other; only if the plan
contains an edit script, the trees must not be too large for it.  In particular this holds for the
presets that start with identical subtrees, and for the standard way to match trees.

**Proof sketch.** The stage for identical subtrees pairs the trees by position, and every other
stage leaves this alone, by `Plan.positional_perform`.  For presets it remains to see that only the
core can be an edit script. -/
theorem alike_trees_are_paired_by_position (task : Task)
    (h : task.src.shape.map Node.content = task.dst.shape.map Node.content) :
    task.src.preOrder.length = task.dst.preOrder.length ∧
    (∀ plan : Plan, plan.head? = some .identical →
      (.leastEdit ∈ plan → task.src.count * task.dst.count ≤ task.settings.cellLimit) →
      (plan.perform task .empty).fault = none ∧
        (plan.perform task .empty).pairing.Positional task.src task.dst) ∧
    (∀ preset : Preset, preset.identical = true →
      (preset.core = .leastEdit →
        task.src.count * task.dst.count ≤ task.settings.cellLimit) →
      (preset.plan.perform task .empty).fault = none ∧
        (preset.plan.perform task .empty).pairing.Positional task.src task.dst) ∧
    ∀ (rules : LabelRules) (threads : Nat), ∃ q,
      matchTrees task.src task.dst rules threads = .ok q ∧ q.Positional task.src task.dst := by
  refine ⟨?_, fun plan hfirst hlimit => plan.positional_perform task h hfirst hlimit,
    fun preset hfirst hlimit => ?_, fun rules threads => ?_⟩
  · rw [Tree.length_preOrder, Tree.length_preOrder]
    exact Tree.Alike.count_eq h
  · have hhead : preset.plan.head? = some .identical := by simp [Preset.plan, hfirst]
    refine preset.plan.positional_perform task h hhead fun hmem => hlimit ?_
    obtain ⟨core, identical, realign, repair⟩ := preset
    revert hmem
    cases core <;> cases identical <;> cases realign <;> cases repair <;> decide
  · obtain ⟨hfault, hpos⟩ := Preset.standard.plan.positional_perform
      { src := task.src, dst := task.dst, rules, threads } h rfl fun hmem => absurd hmem (by decide)
    refine ⟨_, ?_, hpos⟩
    rw [matchTrees, hfault]

/-- Two trees of five nodes with the same leaf three times, the second one numbered from right to
left: whatever all thirteen stages make of the repeated leaf, each occurrence is paired with the one
at its place. -/
theorem repeated_leaves_are_paired_by_position :
    let src : Tree := .ofContents ⟨(⟨0⟩, "f"),
      .node (⟨1⟩, "x") .nil (.node (⟨0⟩, "g") (.leaf (⟨1⟩, "x")) (.leaf (⟨1⟩, "x")))⟩
    let dst : Tree := .ofShape ⟨⟨1, ⟨0⟩, "f"⟩,
      .node ⟨5, ⟨1⟩, "x"⟩ .nil (.node ⟨3, ⟨0⟩, "g"⟩ (.leaf ⟨4, ⟨1⟩, "x"⟩) (.leaf ⟨2, ⟨1⟩, "x"⟩))⟩
      ⟨rfl, by decide⟩ none
    let task : Task := { src, dst }
    task.src.shape.map Node.content = task.dst.shape.map Node.content ∧
      Stage.all.head? = some .identical ∧
      task.src.count * task.dst.count ≤ task.settings.cellLimit ∧
      (Plan.perform Stage.all task .empty).fault = none ∧
      (Plan.perform Stage.all task .empty).pairing.Positional src dst ∧
      SamePlace src dst 2 5 ∧ SamePlace src dst 4 4 ∧ SamePlace src dst 5 2 := by
  intro src dst task
  have h : task.src.shape.map Node.content = task.dst.shape.map Node.content := by decide
  have hlimit : task.src.count * task.dst.count ≤ task.settings.cellLimit := by decide
  obtain ⟨hfault, hpos⟩ :=
    (alike_trees_are_paired_by_position task h).2.1 Stage.all rfl fun _ => hlimit
  exact ⟨h, rfl, hlimit, hfault, hpos, ⟨1, by decide +kernel⟩, ⟨3, by decide +kernel⟩,
    ⟨4, by decide +kernel⟩⟩

end TreeMatching
