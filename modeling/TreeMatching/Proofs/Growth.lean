import Mathlib.Data.List.Nodup
import Mathlib.Data.List.Perm.Basic
import TreeMatching.Proofs.LeafScans
import TreeMatching.Proofs.PostOrder
import TreeMatching.Proofs.Runs

set_option autoImplicit false

/-!
# Stages that only add pairs

Nine of the stages never undo a link.  Whatever they link are free nodes of the two trees, of the
same kind, so none of their links can fail, and all pairs that were there before remain.

## Main definitions

* `Grows` — a pairing arises from another by linking free nodes of the same kind.
* `Matching.OnlyAdds` — a computation does not fail, and the pairing grows.
* `TopDown.Descent`, `TopDown.Step` — what linking two subtrees from the top down and one visit of
  the search can do to a pairing.
* `BestFit.Settled` — what settling a node can do to a pairing.

## Main results

* `Grows.joins`, `Grows.oneToOne` — a pairing of two trees that grows remains one, and so does a
  one-to-one pairing.
* `Grows.dst?`, `Grows.old_or_new` — old pairs remain, and new ones join free nodes of one kind.
* `Matching.OnlyAdds.bind`, `Matching.onlyAdds_forM` — sequences and loops only add.
* `Identical.onlyAdds_run`, `TopDown.onlyAdds_run`, `BestFit.onlyAdds_run`, `FirstFit.onlyAdds_run`,
  `Leaves.onlyAdds_run`, `Realign.onlyAdds_run` — six stages.
* `Leaves.runSharded_spec`, `LabelAware.run_spec`, `LeastEdit.run_spec` — the three stages that
  may refuse to work, before they change anything.
-/

namespace TreeMatching

open Matching

/-- The second pairing arises from the first by linking free nodes of the same kind, one pair after
the other. -/
inductive Grows (task : Task) (p : Pairing) : Pairing → Prop
  | refl : Grows task p p
  | link {q : Pairing} {s d : NodeId} (grown : Grows task p q)
      (srcFree : q.dst? s = none) (dstFree : q.src? d = none)
      (srcNode : s ∈ task.src.preOrder) (dstNode : d ∈ task.dst.preOrder)
      (kinds : task.src.sameKind task.dst s d = true) : Grows task p (q.insert s d)

/-- The pair joins a node of the source tree with a node of the destination tree. -/
def Pair.Within (z : Pair) (task : Task) : Prop :=
  z.src ∈ task.src.preOrder ∧ z.dst ∈ task.dst.preOrder

variable {task : Task} {p q r : Pairing}

namespace Grows

/-- What grows twice has grown. -/
lemma trans (hpq : Grows task p q) (hqr : Grows task q r) : Grows task p r := by
  induction hqr with
  | refl => exact hpq
  | link _ hs hd hsn hdn hk ih => exact .link ih hs hd hsn hdn hk

/-- **A pairing of two trees that grows remains one.** -/
theorem joins (h : Grows task p q) (hp : p.Joins task.src task.dst) :
    q.Joins task.src task.dst := by
  induction h with
  | refl => exact hp
  | link _ hs hd hsn hdn _ ih => exact ih.insert hs hd hsn hdn

/-- A one-to-one pairing that grows remains one-to-one. -/
theorem oneToOne (h : Grows task p q) (hp : p.OneToOne) : q.OneToOne := by
  induction h with
  | refl => exact hp
  | link _ hs hd _ _ _ ih => exact ih.insert hs hd

variable {s d : NodeId}

/-- A source node keeps its partner when the pairing grows. -/
lemma dst? (h : Grows task p q) (hs : p.dst? s = some d) : q.dst? s = some d := by
  induction h with
  | refl => exact hs
  | link _ hfree _ _ _ _ ih =>
    rw [Pairing.dst?_insert, if_neg, ih]
    rintro rfl
    rw [ih] at hfree
    cases hfree

/-- A destination node keeps its partner when the pairing grows. -/
lemma src? (h : Grows task p q) (hd : p.src? d = some s) : q.src? d = some s := by
  induction h with
  | refl => exact hd
  | link _ _ hfree _ _ _ ih =>
    rw [Pairing.src?_insert, if_neg, ih]
    rintro rfl
    rw [ih] at hfree
    cases hfree

/-- A source node that is free after the pairing has grown was free before. -/
lemma srcFree_before (h : Grows task p q) (hs : q.dst? s = none) : p.dst? s = none := by
  refine Option.eq_none_iff_forall_ne_some.2 fun d hd => ?_
  rw [h.dst? hd] at hs
  cases hs

/-- A destination node that is free after the pairing has grown was free before. -/
lemma dstFree_before (h : Grows task p q) (hd : q.src? d = none) : p.src? d = none := by
  refine Option.eq_none_iff_forall_ne_some.2 fun s hs => ?_
  rw [h.src? hs] at hd
  cases hd

/-- Nodes of which one has a partner do not become free. -/
lemma not_bothFree (h : Grows task p q) (hp : p.bothFree s d = false) :
    q.bothFree s d = false := by
  rw [Bool.eq_false_iff, Ne, Pairing.bothFree_iff] at hp ⊢
  exact fun hq => hp ⟨h.srcFree_before hq.1, h.dstFree_before hq.2⟩

/-- **What is new in a pairing that has grown** are free nodes of the two trees, of the same
kind.

**Proof sketch.** Induction along the growth.  A link that is made joins nodes that are free then,
hence have been free from the beginning. -/
theorem old_or_new (h : Grows task p q) (hs : q.dst? s = some d) :
    p.dst? s = some d ∨ (p.bothFree s d = true ∧ s ∈ task.src.preOrder ∧ d ∈ task.dst.preOrder ∧
      task.src.sameKind task.dst s d = true) := by
  induction h with
  | refl => exact .inl hs
  | @link q x y hq hx hy hxn hyn hk ih =>
    rw [Pairing.dst?_insert] at hs
    split at hs
    · next heq =>
      subst heq
      obtain rfl := Option.some.inj hs
      have hfree := Pairing.bothFree_iff.2 ⟨hq.srcFree_before hx, hq.dstFree_before hy⟩
      exact .inr ⟨hfree, hxn, hyn, hk⟩
    · exact ih hs

/-- A pairing that grows without a new pair stays as it is. -/
lemma eq_of_forall_old (h : Grows task p q)
    (hold : ∀ s d, q.dst? s = some d → p.dst? s = some d) : q = p := by
  cases h with
  | refl => rfl
  | @link q s d hgrows hfree _ _ _ _ =>
    have hs := hgrows.dst? (hold s d (by simp [Pairing.dst?_insert]))
    rw [hfree] at hs
    cases hs

end Grows

namespace Matching

variable {α β : Type}

/-- Started on a one-to-one pairing, the computation does not fail, and the pairing grows. -/
def OnlyAdds (task : Task) (x : Matching α) : Prop :=
  ∀ p : Pairing, p.OneToOne → Returns x p fun _ => Grows task p

/-- A computation that does nothing only adds. -/
lemma onlyAdds_pure (a : α) : OnlyAdds task (pure a) :=
  fun _ _ => returns_pure .refl

/-- Two computations that only add, one after the other, only add. -/
lemma OnlyAdds.bind {x : Matching α} {f : α → Matching β} (hx : OnlyAdds task x)
    (hf : ∀ a, OnlyAdds task (f a)) : OnlyAdds task (x >>= f) := by
  intro p hp
  refine (hx p hp).bind fun a q hq => ?_
  exact (hf a q (hq.oneToOne hp)).mono fun _ _ hr => hq.trans hr

/-- A computation that looks at the pairing may rely on what it sees. -/
lemma onlyAdds_pairing_bind {f : Pairing → Matching β}
    (hf : ∀ p : Pairing, p.OneToOne → Returns (f p) p fun _ => Grows task p) :
    OnlyAdds task (pairing >>= f) :=
  fun p hp => returns_pairing_bind (hf p hp)

/-- A loop only adds if its body does. -/
lemma onlyAdds_forM {items : List β} {f : β → Matching Unit}
    (hf : ∀ b ∈ items, OnlyAdds task (f b)) : OnlyAdds task (items.forM f) := by
  intro p hp
  refine returns_forM .refl fun b hb q hq => ?_
  exact (hf b hb q (hq.oneToOne hp)).mono fun _ _ hr => hq.trans hr

/-- So does a loop that passes on a value. -/
lemma onlyAdds_foldlM {σ : Type} {items : List β} {f : σ → β → Matching σ}
    (hf : ∀ a, ∀ b ∈ items, OnlyAdds task (f a b)) (a : σ) :
    OnlyAdds task (items.foldlM f a) := by
  intro p hp
  refine returns_foldlM .refl fun b hb a q hq => ?_
  exact (hf a b hb q (hq.oneToOne hp)).mono fun _ _ hr => hq.trans hr

/-- Linking free nodes of the same kind makes the pairing grow. -/
lemma returns_link_grows {s d : NodeId} (hs : p.dst? s = none) (hd : p.src? d = none)
    (hsn : s ∈ task.src.preOrder) (hdn : d ∈ task.dst.preOrder)
    (hk : task.src.sameKind task.dst s d = true) :
    Returns (link s d) p fun _ => Grows task p :=
  returns_link hs hd (.link .refl hs hd hsn hdn hk)

/-- Linking two nodes of one kind, if they are free, only adds. -/
lemma onlyAdds_linkIfFree {s d : NodeId} (hsn : s ∈ task.src.preOrder)
    (hdn : d ∈ task.dst.preOrder) (hk : task.src.sameKind task.dst s d = true) :
    OnlyAdds task (linkIfFree s d) :=
  fun _ _ => returns_linkIfFree (fun hs hd => .link .refl hs hd hsn hdn hk) .refl

/-- A greedy choice among candidates that join nodes of the same kind only adds. -/
lemma onlyAdds_chooseGreedily {cs : List Candidate}
    (h : ∀ c ∈ cs, c.src ∈ task.src.preOrder ∧ c.dst ∈ task.dst.preOrder ∧
      task.src.sameKind task.dst c.src c.dst = true) : OnlyAdds task (chooseGreedily cs) := by
  refine onlyAdds_forM fun c hc => ?_
  obtain ⟨hs, hd, hk⟩ := h c (List.mem_mergeSort.1 hc)
  exact onlyAdds_linkIfFree hs hd hk

end Matching

/-! ### Identical subtrees -/

namespace Identical

/-- Two lists of nodes, paired place by place. -/
def zipNodes (ns ms : List Node) : List Pair := (ns.zip ms).map fun x => ⟨x.1.id, x.2.id⟩

section ZipNodes

variable {ns ms : List Node} (h : ns.map Node.content = ms.map Node.content)

include h

/-- The source nodes of the pairs are those of the first list, because the lists have the same
length. -/
lemma map_src_zipNodes : (zipNodes ns ms).map Pair.src = ns.map Node.id := by
  have hlen : ns.length = ms.length := by simpa using congrArg List.length h
  have hfst : (ns.zip ms).map Prod.fst = ns := List.map_fst_zip hlen.le
  conv_rhs => rw [← hfst]
  simp only [zipNodes, List.map_map]
  rfl

/-- The destination nodes of the pairs are those of the second list. -/
lemma map_dst_zipNodes : (zipNodes ns ms).map Pair.dst = ms.map Node.id := by
  have hlen : ns.length = ms.length := by simpa using congrArg List.length h
  have hsnd : (ns.zip ms).map Prod.snd = ms := List.map_snd_zip hlen.ge
  conv_rhs => rw [← hsnd]
  simp only [zipNodes, List.map_map]
  rfl

/-- Nodes that are paired have the same content. -/
lemma exists_of_mem_zipNodes {z : Pair} (hz : z ∈ zipNodes ns ms) :
    ∃ n ∈ ns, ∃ m ∈ ms, z = ⟨n.id, m.id⟩ ∧ n.content = m.content := by
  obtain ⟨⟨n, m⟩, hnm, rfl⟩ := List.mem_map.1 hz
  obtain ⟨k, hk⟩ := List.mem_iff_getElem?.1 hnm
  obtain ⟨hn, hm⟩ := List.getElem?_zip_eq_some.1 hk
  refine ⟨n, List.mem_of_getElem? hn, m, List.mem_of_getElem? hm, rfl, ?_⟩
  have hc := congrArg (·[k]?) h
  simpa [hn, hm] using hc

end ZipNodes

/-- Forests that are alike are linked pair by pair.

**Proof sketch.** Induction on the first forest; the second has the same constructors.  What is
below the two first roots has equally many nodes on both sides, so the pairs of the whole are the
pair of the roots, the pairs below them and those of the rest, in this order, and this is how
linking goes. -/
lemma linkForests_eq {f g : Forest Node} (h : f.alike g = true) :
    linkForests f g = (zipNodes f.preOrder g.preOrder).forM fun z => link z.src z.dst := by
  induction f generalizing g with
  | nil =>
    cases g with
    | nil => rfl
    | node => simp [Forest.alike] at h
  | node a below next ihb ihn =>
    cases g with
    | nil => simp [Forest.alike] at h
    | node b below' next' =>
      simp only [Forest.alike, Bool.and_eq_true] at h
      obtain ⟨⟨-, hb⟩, hn⟩ := h
      -- alike forests have equally many nodes, so the two pre-orders are zipped part by part
      have hlen : below.preOrder.length = below'.preOrder.length := by
        have hsize := congrArg Forest.size ((Forest.alike_iff _ _).1 hb)
        simpa using hsize
      have hzip : zipNodes (Forest.node a below next).preOrder (Forest.node b below' next').preOrder
          = ⟨a.id, b.id⟩ :: (zipNodes below.preOrder below'.preOrder ++
              zipNodes next.preOrder next'.preOrder) := by
        simp only [zipNodes, Forest.preOrder, List.zip_cons_cons, List.zip_append hlen,
          List.map_cons, List.map_append]
      rw [hzip, linkForests, ihb hb, ihn hn]
      exact congrArg (link a.id b.id >>= ·) (funext fun _ => List.forM_append.symm)

/-- The pairs that are linked when two nodes have the same subtree. -/
def pairsBelow (task : Task) (x : NodeId × NodeId) : List Pair :=
  zipNodes (task.src.subtree x.1).preOrder (task.dst.subtree x.2).preOrder

/-- Nodes with the same subtree have the same contents below them in pre-order. -/
lemma contents_of_sameSubtree {s d : NodeId} (h : task.src.sameSubtree task.dst s d = true) :
    (task.src.subtree s).preOrder.map Node.content =
      (task.dst.subtree d).preOrder.map Node.content := by
  rw [← Rooted.preOrder_map, (Tree.sameSubtree_iff.1 h).2, Rooted.preOrder_map]

/-- Two equal subtrees are linked pair by pair in pre-order. -/
lemma linkTrees_eq {s d : NodeId} (h : task.src.sameSubtree task.dst s d = true) :
    linkTrees (task.src.subtree s) (task.dst.subtree d) =
      (pairsBelow task (s, d)).forM fun z => link z.src z.dst := by
  simp only [Tree.sameSubtree, Rooted.alike, Bool.and_eq_true] at h
  rw [linkTrees, linkForests_eq h.2.2]
  rfl

/-- A source subtree is untouched exactly if none of its nodes has a partner. -/
lemma srcUntouched_iff {t : Tree} {a : NodeId} :
    srcUntouched t p a = true ↔ ∀ n ∈ a :: t.descendants a, p.dst? n = none := by
  simp [srcUntouched, Pairing.hasSrc]

/-- A destination subtree is untouched exactly if none of its nodes has a partner. -/
lemma dstUntouched_iff {t : Tree} {b : NodeId} :
    dstUntouched t p b = true ↔ ∀ n ∈ b :: t.descendants b, p.src? n = none := by
  simp [dstUntouched, Pairing.hasDst]

/-- Subtrees at different nodes, all of the same size, have no node in common and contain no node
twice. -/
lemma nodup_flatMap_subtree {α : Type} {t : Tree} {items : List α} {top : α → NodeId} {k : Nat}
    (hnode : ∀ x ∈ items, top x ∈ t.preOrder ∧ t.size (top x) = k)
    (hne : items.Pairwise fun x y => top x ≠ top y) :
    (items.flatMap fun x => top x :: t.descendants (top x)).Nodup := by
  refine List.nodup_flatMap.2 ⟨fun x hx => Tree.nodup_subtree (hnode x hx).1, ?_⟩
  refine hne.imp_of_mem fun {x y} hx hy hxy => ?_
  obtain ⟨hxn, hxk⟩ := hnode x hx
  obtain ⟨hyn, hyk⟩ := hnode y hy
  exact Tree.subtree_disjoint hxn hyn hxy (hxk.trans hyk.symm)

/-- Pairs of nodes with the same subtree, all of one size and untouched, no node being in two
pairs. -/
structure Occurrences (task : Task) (p : Pairing) (size : Nat) (items : List (NodeId × NodeId)) :
    Prop where
  srcNode : ∀ x ∈ items, x.1 ∈ task.src.preOrder ∧ task.src.size x.1 = size
  dstNode : ∀ x ∈ items, x.2 ∈ task.dst.preOrder ∧ task.dst.size x.2 = size
  same : ∀ x ∈ items, task.src.sameSubtree task.dst x.1 x.2 = true
  srcFree : ∀ x ∈ items, srcUntouched task.src p x.1 = true
  dstFree : ∀ x ∈ items, dstUntouched task.dst p x.2 = true
  distinct : items.Pairwise fun x y => x.1 ≠ y.1 ∧ x.2 ≠ y.2

namespace Occurrences

variable {k : Nat} {items : List (NodeId × NodeId)} (h : Occurrences task p k items)

include h

/-- The source nodes that are linked are those of the subtrees. -/
lemma map_src : (items.flatMap (pairsBelow task)).map Pair.src =
    items.flatMap fun x => x.1 :: task.src.descendants x.1 := by
  rw [List.map_flatMap]
  refine List.flatMap_congr fun x hx => ?_
  rw [pairsBelow, map_src_zipNodes (contents_of_sameSubtree (h.same x hx)),
    Tree.map_id_preOrder_subtree (h.srcNode x hx).1]

/-- The destination nodes that are linked are those of the subtrees. -/
lemma map_dst : (items.flatMap (pairsBelow task)).map Pair.dst =
    items.flatMap fun x => x.2 :: task.dst.descendants x.2 := by
  rw [List.map_flatMap]
  refine List.flatMap_congr fun x hx => ?_
  rw [pairsBelow, map_dst_zipNodes (contents_of_sameSubtree (h.same x hx)),
    Tree.map_id_preOrder_subtree (h.dstNode x hx).1]

/-- **Occurrences can be linked as a whole.**  The pairing grows by the pairs of their nodes, and by
no others.

**Proof sketch.** The subtrees are untouched and of the same size, so all nodes that are to be
linked are free and, on either side, different from each other. -/
lemma returns_forM : Returns (items.forM fun x =>
    linkTrees (task.src.subtree x.1) (task.dst.subtree x.2)) p fun _ q =>
      Grows task p q ∧ ∀ s d, q.dst? s = some d ↔
        p.dst? s = some d ∨ ⟨s, d⟩ ∈ items.flatMap (pairsBelow task) := by
  rw [forM_eq_forM_flatMap (g := fun z : Pair => link z.src z.dst)
    fun x hx => linkTrees_eq (h.same x hx)]
  refine (returns_forM_link (I := fun q => Grows task p q ∧ ∀ s d, q.dst? s = some d →
    p.dst? s = some d ∨ ⟨s, d⟩ ∈ items.flatMap (pairsBelow task)) ⟨.refl, fun _ _ => .inl⟩
    ?_ ?_ ?_ ?_).mono fun _ q hq => ⟨hq.1.1, fun s d => ⟨hq.1.2 s d, ?_⟩⟩
  · rw [h.map_src]
    exact nodup_flatMap_subtree h.srcNode (h.distinct.imp And.left)
  · rw [h.map_dst]
    exact nodup_flatMap_subtree h.dstNode (h.distinct.imp And.right)
  · intro z hz
    have hzs := List.mem_map_of_mem (f := Pair.src) hz
    have hzd := List.mem_map_of_mem (f := Pair.dst) hz
    rw [h.map_src, List.mem_flatMap] at hzs
    rw [h.map_dst, List.mem_flatMap] at hzd
    obtain ⟨x, hx, hzs⟩ := hzs
    obtain ⟨y, hy, hzd⟩ := hzd
    exact ⟨srcUntouched_iff.1 (h.srcFree x hx) _ hzs, dstUntouched_iff.1 (h.dstFree y hy) _ hzd⟩
  · rintro z hz q ⟨hq, honly⟩ hs hd
    constructor
    · obtain ⟨x, hx, hz⟩ := List.mem_flatMap.1 hz
      obtain ⟨n, hn, m, hm, rfl, hc⟩ :=
        exists_of_mem_zipNodes (contents_of_sameSubtree (h.same x hx)) hz
      obtain ⟨hnn, hne⟩ := Tree.node_of_mem_subtree (h.srcNode x hx).1 hn
      obtain ⟨hmn, hme⟩ := Tree.node_of_mem_subtree (h.dstNode x hx).1 hm
      refine .link hq hs hd hnn hmn (Tree.sameKind_iff.2 ⟨hnn, hmn, ?_⟩)
      rw [Tree.kind, Tree.kind, hne, hme]
      exact congrArg Prod.fst hc
    · intro s d hsd
      rw [Pairing.dst?_insert] at hsd
      split at hsd
      · next heq =>
        cases hsd
        exact .inr (heq ▸ hz)
      · exact honly s d hsd
  · rintro (hsd | hsd)
    · exact hq.1.1.dst? hsd
    · exact hq.2 _ hsd

end Occurrences

/-- The occurrences of a subtree that are paired are those of the two trees, in order.

**Proof sketch.** Being untouched and having the subtree of `r` are read off the two filters.  The
size and the equality of subtrees pass through `r`.  No node occurs twice in a pre-order, so none is
in two pairs. -/
lemma occurrences_zip (task : Task) (p : Pairing) (r : NodeId) :
    Occurrences task p (task.src.size r)
      ((task.src.preOrder.filter fun s =>
          task.src.sameSubtree task.src r s && srcUntouched task.src p s).zip
        (task.dst.preOrder.filter fun d =>
          task.src.sameSubtree task.dst r d && dstUntouched task.dst p d)) := by
  set srcs := task.src.preOrder.filter fun s =>
    task.src.sameSubtree task.src r s && srcUntouched task.src p s with hsrcs
  set dsts := task.dst.preOrder.filter fun d =>
    task.src.sameSubtree task.dst r d && dstUntouched task.dst p d with hdsts
  have hsrc : ∀ x ∈ srcs.zip dsts, x.1 ∈ task.src.preOrder ∧
      task.src.sameSubtree task.src r x.1 = true ∧ srcUntouched task.src p x.1 = true := by
    intro x hx
    simpa [hsrcs] using (List.of_mem_zip hx).1
  have hdst : ∀ x ∈ srcs.zip dsts, x.2 ∈ task.dst.preOrder ∧
      task.src.sameSubtree task.dst r x.2 = true ∧ dstUntouched task.dst p x.2 = true := by
    intro x hx
    simpa [hdsts] using (List.of_mem_zip hx).2
  have hnds : srcs.Nodup := Tree.nodup_preOrder.filter _
  have hndd : dsts.Nodup := Tree.nodup_preOrder.filter _
  refine ⟨fun x hx => ⟨(hsrc x hx).1, ?_⟩, fun x hx => ⟨(hdst x hx).1, ?_⟩, fun x hx => ?_,
    fun x hx => (hsrc x hx).2.2, fun x hx => (hdst x hx).2.2, ?_⟩
  · exact (Tree.sameSubtree_iff.1 (hsrc x hx).2.1).1.symm
  · exact (Tree.sameSubtree_iff.1 (hdst x hx).2.1).1.symm
  · have h1 := Tree.sameSubtree_iff.1 (hsrc x hx).2.1
    have h2 := Tree.sameSubtree_iff.1 (hdst x hx).2.1
    exact Tree.sameSubtree_iff.2 ⟨h1.1.symm.trans h2.1, h1.2.symm.trans h2.2⟩
  · -- no node is listed twice, so none is in two of the pairs
    rw [List.pairwise_iff_getElem]
    intro i j hi hj hij
    simp only [List.getElem_zip]
    exact ⟨fun e => hij.ne (hnds.getElem_inj_iff.1 e), fun e => hij.ne (hndd.getElem_inj_iff.1 e)⟩

/-- Pairing the occurrences of a subtree only adds. -/
lemma onlyAdds_linkOccurrences (r : NodeId) : OnlyAdds task (linkOccurrences task r) :=
  onlyAdds_pairing_bind fun p _ =>
    (occurrences_zip task p r).returns_forM.mono fun _ _ h => h.1

/-- Linking identical subtrees only adds. -/
theorem onlyAdds_run : OnlyAdds task (run task) :=
  onlyAdds_pairing_bind fun p hp => onlyAdds_forM (fun r _ => onlyAdds_linkOccurrences r) p hp

end Identical

/-! ### Identical subtrees from the top down -/

namespace TopDown

/-- The pairs of the children of two nodes at the same positions. -/
def childPairs (task : Task) (z : Pair) : List Pair :=
  List.zipWith Pair.mk (task.src.children z.src) (task.dst.children z.dst)

/-- What linking pairs from the top down does: a pair of free nodes is linked, and so are, in the
same way, the pairs of their children; any other pair is passed over, with everything below it. -/
inductive Descent (task : Task) : List Pair → Pairing → Pairing → Prop
  | done {p : Pairing} : Descent task [] p p
  | pass {z : Pair} {zs : List Pair} {p q : Pairing} (taken : p.bothFree z.src z.dst = false)
      (rest : Descent task zs p q) : Descent task (z :: zs) p q
  | link {z : Pair} {zs : List Pair} {p q r : Pairing} (free : p.bothFree z.src z.dst = true)
      (within : z.Within task) (kinds : task.src.sameKind task.dst z.src z.dst = true)
      (below : Descent task (childPairs task z) (p.insert z.src z.dst) q)
      (rest : Descent task zs q r) : Descent task (z :: zs) p r

/-- Linking pairs from the top down makes the pairing grow. -/
lemma Descent.grows {zs : List Pair} (h : Descent task zs p q) : Grows task p q := by
  induction h with
  | done => exact .refl
  | pass _ _ ih => exact ih
  | link hfree hwithin hkinds _ _ ihbelow ihrest =>
    obtain ⟨hs, hd⟩ := Pairing.bothFree_iff.1 hfree
    exact ((Grows.link .refl hs hd hwithin.1 hwithin.2 hkinds).trans ihbelow).trans ihrest

/-- The pairs of the roots of two forests at the same positions. -/
def rootPairs (f g : Forest Node) : List Pair :=
  List.zipWith (fun a b => ⟨a.id, b.id⟩) f.roots g.roots

/-- If the two subtrees are known, so are the pairs of children. -/
lemma childPairs_eq {a b : Node} {below below' : Forest Node}
    (ha : task.src.subtree a.id = ⟨a, below⟩) (hb : task.dst.subtree b.id = ⟨b, below'⟩) :
    childPairs task ⟨a.id, b.id⟩ = rootPairs below below' := by
  have hsrc : task.src.children a.id = below.roots.map Node.id :=
    congrArg (fun r : Rooted Node => r.below.roots.map Node.id) ha
  have hdst : task.dst.children b.id = below'.roots.map Node.id :=
    congrArg (fun r : Rooted Node => r.below.roots.map Node.id) hb
  rw [childPairs, hsrc, hdst, List.zipWith_map, rootPairs]

/-- **Linking forests that are alike** goes from the top down, if they are made up of subtrees of
the two trees.

**Proof sketch.** Induction on the first forest.  If the two first roots are free, they are linked,
then what is below them, by the hypothesis for the pairs of their children, and then the rest.
Otherwise everything below them is passed over.  The roots are nodes of the two trees, and the nodes
have one kind because the forests are alike. -/
lemma returns_linkForests {f g : Forest Node} (h : f.alike g = true)
    (hf : ∀ r ∈ f.subtrees, r.root.id ∈ task.src.preOrder ∧ task.src.subtree r.root.id = r)
    (hg : ∀ r ∈ g.subtrees, r.root.id ∈ task.dst.preOrder ∧ task.dst.subtree r.root.id = r)
    (p : Pairing) : Returns (linkForests f g) p fun _ => Descent task (rootPairs f g) p := by
  induction f generalizing g p with
  | nil => exact returns_pure .done
  | node a below next ihb ihn =>
    cases g with
    | nil => exact returns_pure .done
    | node b below' next' =>
      simp only [Forest.alike, Bool.and_eq_true] at h
      obtain ⟨⟨hab, hb⟩, hn⟩ := h
      simp only [Forest.subtrees, List.mem_cons, List.mem_append, forall_eq_or_imp] at hf hg
      obtain ⟨⟨ha, hsrc⟩, hf⟩ := hf
      obtain ⟨⟨hb', hdst⟩, hg⟩ := hg
      have hbelow := ihb hb (fun r hr => hf r (.inl hr)) fun r hr => hg r (.inl hr)
      have hnext := ihn hn (fun r hr => hf r (.inr hr)) fun r hr => hg r (.inr hr)
      refine returns_pairing_bind ?_
      split
      · next hfree =>
        obtain ⟨hs, hd⟩ := Pairing.bothFree_iff.1 hfree
        have hkinds : task.src.sameKind task.dst a.id b.id = true := by
          refine Tree.sameKind_iff.2 ⟨ha, hb', ?_⟩
          have hkind := congrArg (fun r : Rooted Node => r.root.kind) hsrc
          have hkind' := congrArg (fun r : Rooted Node => r.root.kind) hdst
          exact (hkind.trans (congrArg Prod.fst ((Node.alike_iff a b).1 hab))).trans hkind'.symm
        refine Returns.bind (Q := fun _ q => q = p.insert a.id b.id) (returns_link hs hd rfl) ?_
        rintro _ _ rfl
        refine (hbelow _).bind fun _ q hq => (hnext q).mono fun _ r hr => ?_
        exact .link hfree ⟨ha, hb'⟩ hkinds (childPairs_eq hsrc hdst ▸ hq) hr
      · -- what lies below a taken pair is passed over together with it
        next htaken =>
        exact (hnext p).mono fun _ r hr => .pass (Bool.eq_false_iff.2 htaken) hr

/-- What a visit of the pair `x` can do: it skips the pair, if it is not free or too low; or it
links the two subtrees, if they are the same; or it finds further pairs. -/
inductive Step (task : Task) (x : Pair) (p : Pairing) : List Pair → Pairing → Prop
  | skip (closed : p.bothFree x.src x.dst = false ∨
      task.src.height x.src < task.settings.minHeight) : Step task x p [] p
  | take {q : Pairing} (free : p.bothFree x.src x.dst = true)
      (high : task.settings.minHeight ≤ task.src.height x.src)
      (same : task.src.sameSubtree task.dst x.src x.dst = true)
      (descent : Descent task [x] p q) : Step task x p [] q
  | expand (free : p.bothFree x.src x.dst = true)
      (high : task.settings.minHeight ≤ task.src.height x.src)
      (differ : task.src.sameSubtree task.dst x.src x.dst = false) :
      Step task x p (openChildren task p x.src x.dst) p

/-- **One visit.**

**Proof sketch.** The three outcomes of a visit are the branches of its definition.  In the second
one the two subtrees are linked as forests with a single root, and the pair of the two roots is the
visited pair itself. -/
theorem returns_visit {x : Pair} (hx : x.Within task) (p : Pairing) :
    Returns (visit task x) p (Step task x p) := by
  refine returns_pairing_bind ?_
  split
  · next hclosed =>
    rw [Bool.or_eq_true, Bool.not_eq_true', decide_eq_true_eq] at hclosed
    exact returns_pure (.skip hclosed)
  · next hopen =>
    rw [Bool.or_eq_true, Bool.not_eq_true', decide_eq_true_eq, not_or, Bool.not_eq_false,
      Nat.not_lt] at hopen
    obtain ⟨hfree, hhigh⟩ := hopen
    split
    · next hsame =>
      have halike : (task.src.subtree x.src).toForest.alike
          (task.dst.subtree x.dst).toForest = true := by
        simp only [Tree.sameSubtree, Rooted.alike, Bool.and_eq_true] at hsame
        simp [Rooted.toForest, Forest.alike, hsame.2.1, hsame.2.2]
      -- the first pair of the descent is the visited pair itself
      have hroots : rootPairs (task.src.subtree x.src).toForest
          (task.dst.subtree x.dst).toForest = [x] := by
        change [(⟨(task.src.entry x.src).node.id, (task.dst.entry x.dst).node.id⟩ : Pair)] = [x]
        rw [(Tree.entry_mem_of_mem_preOrder hx.1).2, (Tree.entry_mem_of_mem_preOrder hx.2).2]
      have hlink := returns_linkForests halike
        (fun r hr => Tree.subtree_of_mem_subtrees hx.1 hr)
        (fun r hr => Tree.subtree_of_mem_subtrees hx.2 hr) p
      rw [hroots] at hlink
      exact hlink.bind fun _ q hq => returns_pure (.take hfree hhigh hsame hq)
    · next hdiffer => exact returns_pure (.expand hfree hhigh (Bool.eq_false_iff.2 hdiffer))

/-- The pairs that are found are pairs of children of the same kind, or with the same subtree. -/
lemma mem_openChildren_iff {a b : NodeId} {y : Pair} :
    y ∈ openChildren task p a b ↔
      task.src.parent? y.src = some a ∧ task.dst.parent? y.dst = some b ∧ p.src? y.dst = none ∧
        (task.src.sameSubtree task.dst y.src y.dst = true ∨
          task.src.sameKind task.dst y.src y.dst = true) := by
  simp only [openChildren, List.mem_flatMap, List.mem_map, List.mem_filter, Bool.and_eq_true,
    Bool.or_eq_true, Pairing.not_hasDst_iff, Tree.mem_children_iff]
  constructor
  · rintro ⟨c, hc, d, ⟨hd, hfree, hlike⟩, rfl⟩
    exact ⟨hc, hd, hfree, hlike⟩
  · rintro ⟨hc, hd, hfree, hlike⟩
    exact ⟨y.src, hc, y.dst, ⟨hd, hfree, hlike⟩, rfl⟩

namespace Step

variable {x y : Pair} {added : List Pair}

/-- A visit makes the pairing grow. -/
lemma grows (h : Step task x p added q) : Grows task p q := by
  cases h with
  | skip _ => exact .refl
  | take _ _ _ hdescent => exact hdescent.grows
  | expand _ _ _ => exact .refl

/-- The search goes on with pairs of children. -/
lemma parents (h : Step task x p added q) (hy : y ∈ added) :
    task.src.parent? y.src = some x.src ∧ task.dst.parent? y.dst = some x.dst := by
  cases h with
  | skip _ => cases hy
  | take _ _ _ _ => cases hy
  | expand _ _ _ =>
    obtain ⟨hs, hd, -⟩ := mem_openChildren_iff.1 hy
    exact ⟨hs, hd⟩

/-- The search goes on with pairs of nodes of the two trees. -/
lemma within (h : Step task x p added q) (hy : y ∈ added) : y.Within task := by
  obtain ⟨hs, hd⟩ := h.parents hy
  exact ⟨Tree.mem_preOrder_of_mem_children (Tree.mem_children_iff.2 hs),
    Tree.mem_preOrder_of_mem_children (Tree.mem_children_iff.2 hd)⟩

end Step

/-- **However many visits it takes, the search makes the pairing grow.**  The stack always holds
pairs of nodes of the two trees.

**Proof sketch.** Induction on the number of visits.  A visit makes the pairing grow, and puts pairs
of nodes of the two trees on the stack. -/
lemma returns_loop {steps : Nat} {stack : List Pair} (hstack : ∀ x ∈ stack, x.Within task) :
    Returns (loop task steps stack) p fun _ => Grows task p := by
  induction steps generalizing p stack with
  | zero => exact returns_pure .refl
  | succ steps ih =>
    cases stack with
    | nil => exact returns_pure .refl
    | cons x stack =>
      refine (returns_visit (hstack x (List.mem_cons_self ..)) p).bind fun added q hq => ?_
      refine (ih fun y hy => ?_).mono fun _ _ hr => hq.grows.trans hr
      rcases List.mem_append.1 hy with hy | hy
      · exact hq.within (List.mem_reverse.1 hy)
      · exact hstack y (List.mem_cons_of_mem x hy)

/-- Linking identical subtrees from the top down only adds. -/
theorem onlyAdds_run : OnlyAdds task (run task) := by
  intro p _
  refine (returns_loop fun x hx => ?_).bind fun _ q hq => returns_pure hq
  rw [List.mem_singleton.1 hx]
  exact ⟨Tree.root_mem_preOrder, Tree.root_mem_preOrder⟩

end TopDown

/-! ### Inner nodes -/

namespace FirstFit

/-- Linking inner nodes to the first partner that fits only adds.

**Proof sketch.** A node that is tried is free, and the partner that is found for it is among the
eligible nodes: it is free and of the same kind. -/
theorem onlyAdds_run : OnlyAdds task (run task) := by
  refine onlyAdds_forM fun a ha => onlyAdds_pairing_bind fun p _ => ?_
  split
  · next hfree =>
    have hs : p.dst? a = none := Pairing.not_hasSrc_iff.1 (Bool.and_eq_true_iff.1 hfree).2
    refine returns_tally_bind ?_
    split
    · next b hb =>
      have hmem := List.mem_of_find?_eq_some hb
      simp only [eligible, List.mem_filter, Bool.and_eq_true] at hmem
      obtain ⟨hdn, ⟨-, hd⟩, hk⟩ := hmem
      exact returns_link_grows hs (Pairing.not_hasDst_iff.1 hd) (Tree.mem_postOrder_iff.1 ha)
        (Tree.mem_postOrder_iff.1 hdn) hk
    · exact returns_pure .refl
  · exact returns_pure .refl

end FirstFit

namespace BestFit

/-- A destination node to which the source node `a` may be linked. -/
def Suits (task : Task) (p : Pairing) (a b : NodeId) : Prop :=
  b ∈ task.dst.preOrder ∧ p.src? b = none ∧ task.src.sameKind task.dst a b = true

/-- The best node is one of the given nodes. -/
lemma mem_of_best? {threshold : Float} {score : NodeId → Float} {nodes : List NodeId} {b : NodeId}
    (h : best? threshold score nodes = some b) : b ∈ nodes := by
  obtain ⟨⟨c, x⟩, hfold, rfl⟩ := Option.map_eq_some_iff.1 h
  refine List.foldlRecOn (motive := fun best : Option (NodeId × Float) => ∀ y ∈ best, y.1 ∈ nodes)
    nodes _ (by simp) ?_ (c, x) hfold
  intro best hbest d hd y hy
  dsimp only at hy
  split at hy
  · cases hy
    exact hd
  · exact hbest y hy

/-- A destination node that suits the source node `a` and lies below the partner of its parent, if
there is one. -/
structure Fits (task : Task) (p : Pairing) (a b : NodeId) : Prop where
  suits : Suits task p a b
  below : ∀ v, parentPartner? task p a = some v → task.dst.isDescendant v b = true

/-- The node in the same slot fits: it is a child of the partner of the parent. -/
lemma fits_of_sameSlot? {a b : NodeId} (h : sameSlot? task p a = some b) : Fits task p a b := by
  simp only [sameSlot?, Option.bind_eq_bind, Option.bind_eq_some_iff] at h
  obtain ⟨q, hq, c, hc, h⟩ := h
  split at h
  · cases h
    have hchild := List.mem_of_find?_eq_some hc
    have hcond := List.find?_some hc
    simp only [Bool.and_eq_true] at hcond
    refine ⟨⟨Tree.mem_preOrder_of_mem_children hchild, Pairing.not_hasDst_iff.1 hcond.1.1,
      hcond.1.2⟩, fun v hv => ?_⟩
    obtain rfl : q = v := Option.some_inj.1 (hq.symm.trans hv)
    exact Tree.isDescendant_of_parent? (Tree.mem_children_iff.1 hchild)
  · cases h

/-- Nodes that agree with the partners of their parents lie below them. -/
lemma isDescendant_of_ancestryAgrees {a b v : NodeId} (h : ancestryAgrees task p a b = true)
    (hv : parentPartner? task p a = some v) : task.dst.isDescendant v b = true := by
  rw [parentPartner?] at hv
  rw [ancestryAgrees, Bool.and_eq_true, hv] at h
  exact h.1

/-- Contenders fit, because they agree in ancestry. -/
lemma fits_of_mem_contenders {a b : NodeId} (h : b ∈ contenders task p a) : Fits task p a b := by
  simp only [contenders, List.mem_filter, Bool.and_eq_true] at h
  obtain ⟨hn, ⟨⟨⟨hd, -⟩, hk⟩, hagrees⟩, -⟩ := h
  exact ⟨⟨hn, Pairing.not_hasDst_iff.1 hd, hk⟩,
    fun _ hv => isDescendant_of_ancestryAgrees hagrees hv⟩

/-- A leaf found among the children of the partner of the parent fits. -/
lemma fits_of_siblingLeaf? {a b q : NodeId} (hq : parentPartner? task p a = some q)
    (h : siblingLeaf? task p a q = some b) : Fits task p a b := by
  have hmem : b ∈ (task.dst.children q).filter fun b =>
      !p.hasDst b && task.dst.isLeaf b && task.src.sameKind task.dst a b := by
    simp only [siblingLeaf?, Option.orElse_eq_orElse, Option.orElse_eq_or,
      Option.or_eq_some_iff] at h
    rcases h with h | ⟨-, h | ⟨-, h⟩⟩ <;> exact List.mem_of_find?_eq_some h
  simp only [List.mem_filter, Bool.and_eq_true] at hmem
  refine ⟨⟨Tree.mem_preOrder_of_mem_children hmem.1, Pairing.not_hasDst_iff.1 hmem.2.1.1,
    hmem.2.2⟩, fun v hv => ?_⟩
  obtain rfl : q = v := Option.some_inj.1 (hq.symm.trans hv)
  exact Tree.isDescendant_of_parent? (Tree.mem_children_iff.1 hmem.1)

/-- A leaf found anywhere fits, because it agrees in ancestry. -/
lemma fits_of_anyLeaf? {a b : NodeId} (h : anyLeaf? task p a = some b) : Fits task p a b := by
  have hmem : b ∈ task.dst.preOrder.filter fun b =>
      !p.hasDst b && task.dst.isLeaf b && task.src.sameKind task.dst a b &&
        ancestryAgrees task p a b := by
    simp only [anyLeaf?, Option.orElse_eq_orElse, Option.orElse_eq_or, Option.or_eq_some_iff] at h
    rcases h with h | ⟨-, h⟩ <;> exact List.mem_of_find?_eq_some h
  simp only [List.mem_filter, Bool.and_eq_true] at hmem
  exact ⟨⟨hmem.1, Pairing.not_hasDst_iff.1 hmem.2.1.1.1, hmem.2.1.2⟩,
    fun _ hv => isDescendant_of_ancestryAgrees hmem.2.2 hv⟩

/-- What settling the source node `a` can do: nothing, or linking it to a node that fits, if it is
free.  It is known whether leaves are settled or inner nodes. -/
inductive Settled (task : Task) (leaf : Bool) (a : NodeId) (p : Pairing) : Pairing → Prop
  | pass : Settled task leaf a p p
  | link {b : NodeId} (ofKind : task.src.isLeaf a = leaf) (free : p.dst? a = none)
      (fits : Fits task p a b) : Settled task leaf a p (p.insert a b)

/-- Settling a node makes the pairing grow. -/
lemma Settled.grows {leaf : Bool} {a : NodeId} (h : Settled task leaf a p q)
    (ha : a ∈ task.src.preOrder) : Grows task p q := by
  cases h with
  | pass => exact .refl
  | link _ hfree hfits =>
    obtain ⟨hb, hfree', hk⟩ := hfits.suits
    exact .link .refl hfree hfree' ha hb hk

/-- **Settling an inner node.**

**Proof sketch.** A free inner node is linked to the node in the same slot, to the best contender,
or to the other root.  The first two fit by the lemmas above.  The root fits because it is tried
only for a node without a parent, so that there is no partner of a parent to lie below. -/
theorem returns_settleInner (task : Task) (p : Pairing) (a : NodeId) :
    Returns (settleInner task a) p fun _ => Settled task false a p := by
  refine returns_pairing_bind ?_
  split
  · next hcond =>
    rw [Bool.and_eq_true, Pairing.not_hasSrc_iff, Bool.not_eq_true'] at hcond
    obtain ⟨hfree, hinner⟩ := hcond
    have hlink : ∀ b, Fits task p a b →
        Returns (link a b) p fun _ => Settled task false a p := fun b hb =>
      returns_link hfree hb.suits.2.1 (.link hinner hfree hb)
    split
    · next b hb => exact hlink b (fits_of_sameSlot? hb)
    · refine returns_tally_bind ?_
      dsimp only
      split
      · next b hb => exact hlink b (fits_of_mem_contenders (mem_of_best? hb))
      · split
        · -- there is no parent, so there is no partner below which the root would have to lie
          next hroot =>
          simp only [Bool.and_eq_true, Option.isNone_iff_eq_none] at hroot
          obtain ⟨⟨hparent, hd⟩, hk⟩ := hroot
          refine hlink _ ⟨⟨Tree.root_mem_preOrder, Pairing.not_hasDst_iff.1 hd, hk⟩, ?_⟩
          intro v hv
          rw [parentPartner?, hparent] at hv
          cases hv
        · exact returns_pure .pass
  · exact returns_pure .pass

/-- **Settling a leaf.**

**Proof sketch.** A free leaf is linked to a sibling leaf if its parent has a partner, and to a leaf
anywhere otherwise; both fit. -/
theorem returns_settleLeaf (task : Task) (p : Pairing) (a : NodeId) :
    Returns (settleLeaf task a) p fun _ => Settled task true a p := by
  refine returns_pairing_bind ?_
  split
  · next hcond =>
    rw [Bool.and_eq_true, Pairing.not_hasSrc_iff] at hcond
    dsimp only
    split
    · next b hb =>
      have hfits : Fits task p a b := by
        split at hb
        · next q hq => exact fits_of_siblingLeaf? hq hb
        · exact fits_of_anyLeaf? hb
      exact returns_link hcond.1 hfits.suits.2.1 (.link hcond.2 hcond.1 hfits)
    · exact returns_pure .pass
  · exact returns_pure .pass

/-- Linking nodes to the partner that fits best only adds. -/
theorem onlyAdds_run : OnlyAdds task (run task) := by
  refine (onlyAdds_forM fun a ha p _ => ?_).bind fun _ => onlyAdds_forM fun a ha p _ => ?_
  · exact (returns_settleInner task p a).mono fun _ _ h => h.grows ha
  · exact (returns_settleLeaf task p a).mono fun _ _ h => h.grows ha

end BestFit

/-! ### Leaves and labels -/

/-- What a scan of the free leaves of two trees finds are nodes of the same kind. -/
lemma nodes_of_joinsLeaves {judge : NodeId → NodeId → String → Memo → Option Score × Memo}
    {c : Candidate} (h : (LeafScan.ofFree task.src task.dst p judge).JoinsLeaves c) :
    c.src ∈ task.src.preOrder ∧ c.dst ∈ task.dst.preOrder ∧
      task.src.sameKind task.dst c.src c.dst = true :=
  ⟨Tree.mem_preOrder_of_mem_leaves (List.mem_filter.1 h.1).1,
    Tree.mem_preOrder_of_mem_leaves (List.mem_filter.1 h.2.1).1, h.2.2⟩

/-- Candidates are looked for, and then chosen greedily: if none are found because the search
fails, nothing happens, and otherwise the pairing grows.

**Proof sketch.** The search either fails, and its fault is thrown before anything is linked, or it
finds candidates, among which the greedy choice only adds. -/
lemma scanAndChoose_spec (find : Pairing → Except Fault (List Candidate))
    (hp : p.OneToOne)
    (hfind : ∀ found, find p = .ok found → ∀ c ∈ found, c.src ∈ task.src.preOrder ∧
      c.dst ∈ task.dst.preOrder ∧ task.src.sameKind task.dst c.src c.dst = true) :
    let x : Matching Unit := do
      match find (← pairing) with
      | .ok found => chooseGreedily found
      | .error fault => throw fault
    (∃ fault, find p = .error fault ∧ Refuses x p fault) ∨
      ((∃ found, find p = .ok found) ∧ Returns x p fun _ => Grows task p) := by
  intro x
  cases hfound : find p with
  | error fault =>
    refine .inl ⟨fault, rfl, refuses_pairing_bind ?_⟩
    rw [hfound]
    exact refuses_throw
  | ok found =>
    refine .inr ⟨⟨found, rfl⟩, returns_pairing_bind ?_⟩
    rw [hfound]
    exact onlyAdds_chooseGreedily (hfind found hfound) p hp

namespace Leaves

/-- Linking leaves with similar labels only adds. -/
theorem onlyAdds_run : OnlyAdds task (run task) := by
  refine onlyAdds_pairing_bind fun p hp => ?_
  have hfound := (scan measure task p).sharded_eq_plain (transparent_scan measure task p)
    (le_refl 1)
  rw [← (scan measure task p).sequential_eq_plain (transparent_scan measure task p)] at hfound
  exact onlyAdds_chooseGreedily
    (fun c hc => nodes_of_joinsLeaves (LeafScan.joinsLeaves_of_mem_sharded hfound hc)) p hp

/-- Linking leaves in parts only adds, unless a part breaks down, and then nothing happens. -/
theorem runSharded_spec (task : Task) (hp : p.OneToOne) :
    (∃ fault, candidatesSharded task p task.shardCount = .error fault ∧
        Refuses (runSharded task) p fault) ∨
      ((∃ found, candidatesSharded task p task.shardCount = .ok found) ∧
        Returns (runSharded task) p fun _ => Grows task p) :=
  scanAndChoose_spec (candidatesSharded task · task.shardCount) hp fun _ hfound _ hc =>
    nodes_of_joinsLeaves (LeafScan.joinsLeaves_of_mem_sharded hfound hc)

end Leaves

namespace LabelAware

/-- The only element of a list belongs to it. -/
lemma mem_of_only? {nodes : List NodeId} {n : NodeId} (h : only? nodes = some n) : n ∈ nodes := by
  unfold only? at h
  split at h
  · cases h
    exact List.mem_singleton_self n
  · cases h

/-- Linking the only free class declarations only adds.

**Proof sketch.** The only free declaration of a tree is a node of that tree, free, and of the kind
for classes; so the two have the same kind. -/
lemma onlyAdds_linkSingleClass : OnlyAdds task (linkSingleClass task) := by
  unfold linkSingleClass
  split
  · next k hk =>
    refine onlyAdds_pairing_bind fun p _ => ?_
    dsimp only
    split
    · next a b h =>
      have ha := mem_of_only? (congrArg Prod.fst h)
      have hb := mem_of_only? (congrArg Prod.snd h)
      simp only [List.mem_filter, Bool.and_eq_true, beq_iff_eq] at ha hb
      exact returns_link_grows (Pairing.not_hasSrc_iff.1 ha.2.2) (Pairing.not_hasDst_iff.1 hb.2.2)
        ha.1 hb.1 (Tree.sameKind_iff.2 ⟨ha.1, hb.1, ha.2.1.trans hb.2.1.symm⟩)
    · exact returns_pure .refl
  · exact onlyAdds_pure ()

/-- Linking the roots only adds. -/
lemma onlyAdds_linkRoots : OnlyAdds task (linkRoots task) := by
  unfold linkRoots
  split
  · dsimp only
    split
    · next h =>
      simp only [Bool.and_eq_true, beq_iff_eq] at h
      exact onlyAdds_linkIfFree Tree.root_mem_preOrder Tree.root_mem_preOrder
        (Tree.sameKind_iff.2 ⟨Tree.root_mem_preOrder, Tree.root_mem_preOrder, h.1.trans h.2.symm⟩)
    · exact onlyAdds_pure ()
  · exact onlyAdds_pure ()

/-- Candidates among inner nodes are nodes of the same kind. -/
lemma nodes_of_mem_innerCandidates {height : Nat} {c : Candidate}
    (h : c ∈ innerCandidates task p height) :
    c.src ∈ task.src.preOrder ∧ c.dst ∈ task.dst.preOrder ∧
      task.src.sameKind task.dst c.src c.dst = true := by
  obtain ⟨⟨a, i⟩, ha, h⟩ := List.mem_flatMap.1 h
  obtain ⟨⟨b, j⟩, hb, h⟩ := List.mem_filterMap.1 h
  dsimp only at h
  split at h
  · next hcond =>
    cases h
    have ha' := (List.mem_filter.1 (List.fst_mem_of_mem_zipIdx ha)).1
    have hb' := (List.mem_filter.1 (List.fst_mem_of_mem_zipIdx hb)).1
    exact ⟨Tree.mem_postOrder_iff.1 ha', Tree.mem_postOrder_iff.1 hb',
      (Bool.and_eq_true_iff.1 hcond).1⟩
  · cases h

/-- The candidates among the leaves, found in parts. -/
def leavesFound (task : Task) (p : Pairing) : Except Fault (List Candidate) :=
  (scan (comparer task) task p).sharded task.readLabel task.shardCount

/-- Linking leaves only adds, unless a part of the scan breaks down, and then nothing happens. -/
lemma linkLeaves_spec (task : Task) (hp : p.OneToOne) :
    (∃ fault, leavesFound task p = .error fault ∧ Refuses (linkLeaves task) p fault) ∨
      ((∃ found, leavesFound task p = .ok found) ∧
        Returns (linkLeaves task) p fun _ => Grows task p) :=
  scanAndChoose_spec (leavesFound task) hp fun _ hfound _ hc =>
    nodes_of_joinsLeaves (LeafScan.joinsLeaves_of_mem_sharded hfound hc)

/-- Linking nodes by the meaning of their labels only adds, unless a part of the scan of leaves
breaks down, and then nothing happens. -/
theorem run_spec (task : Task) (hp : p.OneToOne) :
    (∃ fault, leavesFound task p = .error fault ∧ Refuses (run task) p fault) ∨
      ((∃ found, leavesFound task p = .ok found) ∧
        Returns (run task) p fun _ => Grows task p) := by
  rcases linkLeaves_spec task hp with ⟨fault, hfault, h⟩ | ⟨hfound, h⟩
  · exact .inl ⟨fault, hfault, h.bind _⟩
  · refine .inr ⟨hfound, h.bind fun _ q hq => ?_⟩
    have hinner : OnlyAdds task
        ((List.range' 1 (task.src.height task.src.root)).forM (linkInner task)) :=
      onlyAdds_forM fun height _ => onlyAdds_pairing_bind fun p hp =>
        onlyAdds_chooseGreedily (fun c hc => nodes_of_mem_innerCandidates hc) p hp
    have hrest := onlyAdds_linkSingleClass.bind fun _ => hinner.bind fun _ => onlyAdds_linkRoots
    exact (hrest q (hq.oneToOne hp)).mono fun _ _ hr => hq.trans hr

end LabelAware

/-! ### Realignment -/

/-- What an alignment pairs are entries of the two sequences that may be aligned. -/
lemma Alignment.of_mem_trace {α β : Type} {aligns : α → β → Bool} {as : Array α} {bs : Array β}
    {table : Grid Nat} {i j : Nat} {x : α × β} (h : x ∈ trace aligns as bs table i j) :
    x.1 ∈ as ∧ x.2 ∈ bs ∧ aligns x.1 x.2 = true := by
  fun_induction trace aligns as bs table i j with
  | case1 | case2 => cases h
  | case3 i j a b hb ha hcond ih =>
    rcases List.mem_cons.1 h with rfl | h
    · exact ⟨Array.mem_of_getElem? ha, Array.mem_of_getElem? hb, (Bool.and_eq_true_iff.1 hcond).1⟩
    · exact ih h
  | case4 _ _ _ _ _ _ _ _ ih | case5 _ _ _ _ _ _ _ _ ih => exact ih h
  | case6 => cases h

namespace Realign

/-- Nodes of the two trees that may be aligned below; the destination node may also be one that has
a partner already, from wherever that came. -/
def Anchored (task : Task) (p : Pairing) (x : Pair) : Prop :=
  x.src ∈ task.src.preOrder ∧ (x.dst ∈ task.dst.preOrder ∨ ∃ s, p.src? x.dst = some s)

/-- A subtree consists of nodes of the tree; only its top need not be one. -/
lemma mem_preOrder_or_eq_of_mem_subtreePostOrder {t : Tree} {id n : NodeId}
    (h : n ∈ t.subtreePostOrder id) : n ∈ t.preOrder ∨ n = id := by
  rw [Tree.subtreePostOrder, List.mem_mergeSort, List.mem_append, List.mem_singleton] at h
  exact h.imp_left Tree.mem_preOrder_of_mem_descendants

/-- The nearest linked ancestor is a node of the source tree, and its partner has a partner. -/
lemma anchored_of_anchor? {node : NodeId} {x : Pair} (hp : p.OneToOne)
    (h : anchor? task p node = some x) : Anchored task p x := by
  simp only [anchor?, Option.orElse_eq_orElse, Option.orElse_eq_or, Option.or_eq_some_iff] at h
  rcases h with h | ⟨-, h⟩
  · obtain ⟨a, ha, h⟩ := List.exists_of_findSome?_eq_some h
    obtain ⟨b, hb, rfl⟩ := Option.map_eq_some_iff.1 h
    exact ⟨Tree.mem_preOrder_of_mem_climb ha, .inr ⟨a, (hp a b).1 hb⟩⟩
  · obtain ⟨a, ha, rfl⟩ := Option.map_eq_some_iff.1 h
    exact ⟨Tree.mem_preOrder_of_mem_climb (List.mem_of_getLast? ha), .inl Tree.root_mem_preOrder⟩

/-- Aligned nodes are of the same kind and may be aligned below in turn. -/
lemma anchored_of_mem_alignment {x : Pair} (hx : Anchored task p x) {y : NodeId × NodeId}
    (h : y ∈ alignment task p x) :
    Anchored task p ⟨y.1, y.2⟩ ∧ task.src.sameKind task.dst y.1 y.2 = true := by
  simp only [alignment] at h
  split at h
  · cases h
  · obtain ⟨h1, h2, h3⟩ := Alignment.of_mem_trace h
    refine ⟨⟨?_, ?_⟩, (Bool.and_eq_true_iff.1 h3).1⟩
    · rcases mem_preOrder_or_eq_of_mem_subtreePostOrder (List.mem_toArray.1 h1) with hs | hs
      · exact hs
      · exact hs ▸ hx.1
    · rcases mem_preOrder_or_eq_of_mem_subtreePostOrder (List.mem_toArray.1 h2) with hd | hd
      · exact .inl hd
      · exact hd ▸ hx.2

/-- Linking aligned nodes makes the pairing grow.  A destination node that had a partner before has
one still, and is left alone. -/
lemma returns_linkCounting {s d : NodeId} (hy : Anchored task p ⟨s, d⟩)
    (hk : task.src.sameKind task.dst s d = true) (hq : Grows task p q) :
    Returns (linkCounting s d) q fun _ => Grows task p := by
  refine returns_pairing_bind ?_
  split
  · next hfree =>
    obtain ⟨hsf, hdf⟩ := Pairing.bothFree_iff.1 hfree
    rcases hy.2 with hd | ⟨a, ha⟩
    · have hlink := returns_link_grows hsf hdf hy.1 hd hk
      exact hlink.bind fun _ r hr => returns_pure (hq.trans hr)
    · rw [hq.src? ha] at hdf
      cases hdf
  · exact returns_pure hq

/-- Aligning what lies below an anchored pair makes the pairing grow. -/
lemma returns_realign {x : Pair} (hx : Anchored task p x) :
    Returns (realign task x) p fun _ => Grows task p := by
  refine returns_pairing_bind (returns_foldlM .refl fun y hy added q hq => ?_)
  obtain ⟨hy, hk⟩ := anchored_of_mem_alignment hx hy
  exact (returns_linkCounting hy hk hq).bind fun _ r hr => returns_pure hr

/-- Considering a free node only adds. -/
lemma onlyAdds_consider {visited : List NodeId} {added : Nat} {node : NodeId} :
    OnlyAdds task (consider task visited added node) := by
  refine onlyAdds_pairing_bind fun p hp => ?_
  split
  · exact returns_pure .refl
  · split
    · exact returns_pure .refl
    · next x hx =>
      split
      · exact returns_pure .refl
      · exact (returns_realign (anchored_of_anchor? hp hx)).bind fun _ q hq => returns_pure hq

/-- One pass over the free nodes only adds. -/
lemma onlyAdds_pass : OnlyAdds task (pass task) := by
  refine onlyAdds_pairing_bind fun p hp => ?_
  have hfold : OnlyAdds task ((task.src.postOrder.filter fun n => !p.hasSrc n).foldlM
      (fun state node => consider task state.1 state.2 node) ([], 0)) :=
    onlyAdds_foldlM (fun _ _ _ => onlyAdds_consider) ([], 0)
  exact (hfold.bind fun _ => onlyAdds_pure _) p hp

/-- However many passes are made, they only add. -/
lemma onlyAdds_passes (limit : Nat) : OnlyAdds task (passes task limit) := by
  induction limit with
  | zero => exact onlyAdds_pure 0
  | succ limit ih =>
    refine onlyAdds_pass.bind fun added => ?_
    split
    · exact onlyAdds_pure 1
    · exact ih.bind fun _ => onlyAdds_pure _

/-- Realigning free nodes below linked nodes only adds. -/
theorem onlyAdds_run : OnlyAdds task (run task) :=
  onlyAdds_pairing_bind fun p hp =>
    ((onlyAdds_passes _).bind fun _ => onlyAdds_pure ()) p hp

end Realign

/-! ### Edit scripts -/

namespace Script

variable {κ : Type} [Cost κ] {a b : Numbering}

/-- Everything found so far is within the bounds of the two numberings. -/
structure Findings.Within (found : Findings) (a b : Numbering) : Prop where
  pairs : ∀ x ∈ found.pairs, (∃ i ≤ a.size, x.1 = (a.node i).id) ∧ ∃ j ≤ b.size, x.2 = (b.node j).id
  pending : ∀ y ∈ found.pending, y.1 ≤ a.size ∧ y.2 ≤ b.size

/-- The walk back through a table stays within the two numberings.

**Proof sketch.** Induction along the walk.  A deletion or an insertion only moves a place down.  An
alignment adds the pair of the two places, and a pair of subtrees that is put aside is the pair of
the two places; both lie within the bounds. -/
lemma within_walk {table : Grid κ} {top top' i j : Nat} {found : Findings} (hi : i ≤ a.size)
    (hj : j ≤ b.size) (h : found.Within a b) : (walk a b table top top' i j found).Within a b := by
  fun_induction walk a b table top top' i j found with
  | case1 i j found _ _ ih => exact ih (by omega) hj h
  | case2 i j found _ _ ih => exact ih hi (by omega) h
  | case3 i j found _ _ ih =>
    refine ih (by omega) (by omega) ⟨fun x hx => ?_, h.pending⟩
    rcases Array.mem_push.1 hx with hx | rfl
    · exact h.pairs x hx
    · exact ⟨⟨i, hi, rfl⟩, j, hj, rfl⟩
  | case4 i j found _ _ ih =>
    have := a.first_le i
    have := b.first_le j
    refine ih (by omega) (by omega) ⟨h.pairs, fun y hy => ?_⟩
    rcases List.mem_cons.1 hy with rfl | hy
    · exact ⟨hi, hj⟩
    · exact h.pending y hy
  | case5 => exact h

/-- **All pairs of a script are pairs of nodes of the two numberings**, however many tables are gone
through.

**Proof sketch.** Induction on the number of tables.  Each walk notes pairs of the two numberings
only, by `within_walk`. -/
lemma within_resolve {cost : κ} {limit : Nat} {trees : Grid κ} {found : Findings}
    (h : found.Within a b) : ∀ x ∈ resolve a b cost limit trees found,
      (∃ i ≤ a.size, x.1 = (a.node i).id) ∧ ∃ j ≤ b.size, x.2 = (b.node j).id := by
  induction limit generalizing trees found with
  | zero => exact h.pairs
  | succ limit ih =>
    obtain ⟨pairs, pending⟩ := found
    cases pending with
    | nil => exact h.pairs
    | cons y pending =>
      obtain ⟨hi, hj⟩ := h.pending y (List.mem_cons_self ..)
      refine ih (within_walk hi hj ⟨h.pairs, fun z hz => ?_⟩)
      exact h.pending z (List.mem_cons_of_mem y hz)

/-- **Whatever the costs, an edit script only mentions nodes of the two trees.** -/
theorem nodes_of_mem_mapping {src dst : Tree} {mirrored : Bool} {place place' : Entry → Nat}
    (ha : a.Describes src mirrored place) (hb : b.Describes dst mirrored place') {cost : κ}
    {x : NodeId × NodeId} (h : x ∈ mapping a b cost) : x.1 ∈ src.preOrder ∧ x.2 ∈ dst.preOrder := by
  have hstart : (⟨#[], [(a.size, b.size)]⟩ : Findings).Within a b :=
    ⟨by simp, fun y hy => by rw [List.mem_singleton.1 hy]; exact ⟨le_rfl, le_rfl⟩⟩
  obtain ⟨⟨i, hi, h1⟩, j, hj, h2⟩ := within_resolve hstart x (Array.mem_toList_iff.1 h)
  rw [h1, h2]
  exact ⟨ha.node_mem hi, hb.node_mem hj⟩

end Script

namespace LeastEdit

/-- Linking the nodes of an edit script only adds; if the trees are too large, nothing happens.

**Proof sketch.** Numbering the trees fails exactly if they are too large, before anything is
linked.  Otherwise the pairs of the script are nodes of the two trees, and each is linked only if
its nodes are free and of one kind. -/
theorem run_spec (task : Task) (hp : p.OneToOne) :
    (task.settings.cellLimit < task.src.count * task.dst.count ∧
      Refuses (run task) p
        (.setting (.tooLarge task.src.count task.dst.count task.settings.cellLimit))) ∨
      (task.src.count * task.dst.count ≤ task.settings.cellLimit ∧
        Returns (run task) p fun _ => Grows task p) := by
  rcases EditDistance.prepare_cases task.src task.dst task.settings.cellLimit with
    ⟨hlimit, heq⟩ | ⟨hlimit, a, b, mirrored, place, place', heq, ha, hb⟩
  · refine .inl ⟨hlimit, ?_⟩
    rw [run, heq]
    exact refuses_throw
  · refine .inr ⟨hlimit, ?_⟩
    rw [run, heq]
    refine onlyAdds_forM (fun x hx => ?_) p hp
    obtain ⟨hs, hd⟩ := Script.nodes_of_mem_mapping ha hb hx
    change OnlyAdds task (linkAligned task x.1 x.2)
    unfold linkAligned
    split
    · next hk => exact onlyAdds_linkIfFree hs hd hk
    · exact onlyAdds_pure ()

end LeastEdit

end TreeMatching
