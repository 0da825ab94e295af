import Mathlib.Data.List.Find
import TreeMatching.Plan
import TreeMatching.Proofs.DistanceTables
import TreeMatching.Proofs.Growth
import TreeMatching.Proofs.Renaming

set_option autoImplicit false

/-!
# Stages do not see the names of kinds

If all kinds of a task are renamed, every stage is the same computation as before: it links the same
nodes, counts the same overlaps and fails in the same way.  So a plan leaves the same pairing after
every stage, and it does not matter in which order the names of kinds have been met.

## Main definitions

* `Task.ofNames` — the task of matching two trees whose kinds are given by their names.

## Main results

* `Script.mapping_rename` — renaming kinds does not change the edit script.
* `Stage.run_rename` — a stage of the renamed task is the stage of the task itself.
* `kinds_matter_only_up_to_renaming` — plans leave the same pairings, whatever the renaming and
  whatever the order of names.

## Design

The lemmas are equations between computations and not between their results, so they hold for every
pairing, and those of a stage follow from those of its parts by rewriting.  This works wherever a
stage compares kinds.  Labels are the exception: their comparer is asked with the kinds themselves,
and a number that is not in use has the default kind under every renaming.  The stages that ask it
have made sure before that both nodes are of the same kind, which only nodes of the trees can be.
Edit scripts look up nodes by their place in post-order instead, and the tables ask only for places
within the trees.
-/

namespace TreeMatching

variable (f : Kind ↪ Kind) (task : Task)

/-! ### Identical subtrees -/

namespace Identical

variable {φ ψ : Node → Node}

/-- Linking forests depends on the numbers of their nodes alone. -/
lemma linkForests_map (hφ : ∀ n, (φ n).id = n.id) (hψ : ∀ n, (ψ n).id = n.id) (g h : Forest Node) :
    linkForests (g.map φ) (h.map ψ) = linkForests g h := by
  induction g generalizing h with
  | nil => cases h <;> rfl
  | node a below next ihb ihn =>
    cases h with
    | nil => rfl
    | node b below' next' => simp only [Forest.map, linkForests, hφ, hψ, ihb, ihn]

/-- Two subtrees are linked node by node, whatever the kinds of their nodes are called. -/
lemma linkTrees_rename (s d : NodeId) :
    linkTrees ((task.src.rename f).subtree s) ((task.dst.rename f).subtree d) =
      linkTrees (task.src.subtree s) (task.dst.subtree d) := by
  obtain ⟨φ, hφ, hs⟩ := task.src.exists_subtree_rename f s
  obtain ⟨ψ, hψ, hd⟩ := task.dst.exists_subtree_rename f d
  rw [hs, hd]
  simp only [linkTrees, Rooted.map, hφ, hψ, linkForests_map hφ hψ]

/-- The same occurrences of a subtree are linked to each other. -/
lemma linkOccurrences_rename : linkOccurrences (task.rename f) = linkOccurrences task := by
  funext r
  simp [linkOccurrences, srcUntouched, dstUntouched, linkTrees_rename]

/-- The same nodes stand for their subtrees: which subtrees are equal does not depend on the names
of kinds. -/
lemma representatives_rename : representatives (task.rename f) = representatives task := by
  funext p
  simp [representatives, firsts, shared]

/-- Linking identical subtrees does the same for renamed kinds. -/
lemma run_rename : run (task.rename f) = run task := by
  simp only [run, representatives_rename, linkOccurrences_rename]

end Identical

/-! ### Identical subtrees from the top down -/

namespace TopDown

variable {φ ψ : Node → Node}

/-- Two forests are linked node by node by the numbers of their nodes, so that a change of anything
else does not matter. -/
lemma linkForests_map (hφ : ∀ n, (φ n).id = n.id) (hψ : ∀ n, (ψ n).id = n.id) (g h : Forest Node) :
    linkForests (g.map φ) (h.map ψ) = linkForests g h := by
  induction g generalizing h with
  | nil => cases h <;> rfl
  | node a below next ihb ihn =>
    cases h with
    | nil => rfl
    | node b below' next' => simp only [Forest.map, linkForests, hφ, hψ, ihb, ihn]

/-- A visit to a pair of nodes links the same nodes and leaves the same pairs to be visited. -/
lemma visit_rename : visit (task.rename f) = visit task := by
  funext x
  obtain ⟨φ, hφ, hs⟩ := task.src.exists_subtree_rename f x.src
  obtain ⟨ψ, hψ, hd⟩ := task.dst.exists_subtree_rename f x.dst
  have hlink : linkTrees ((task.src.rename f).subtree x.src) ((task.dst.rename f).subtree x.dst) =
      linkTrees (task.src.subtree x.src) (task.dst.subtree x.dst) := by
    rw [hs, hd]
    exact linkForests_map hφ hψ (task.src.subtree x.src).toForest (task.dst.subtree x.dst).toForest
  simp [visit, openChildren, hlink]

/-- The search visits the same pairs in the same order. -/
lemma loop_rename : loop (task.rename f) = loop task := by
  funext steps stack
  fun_induction loop task steps stack with
  | case1 => rfl
  | case2 => simp only [loop]
  | case3 steps x stack ih => simp only [loop, visit_rename, ih]

/-- The search from the top down does the same for renamed kinds. -/
lemma run_rename : run (task.rename f) = run task := by
  simp [run, loop_rename]

end TopDown

/-! ### Inner nodes and leaves that fit -/

namespace BestFit

variable {task} in
/-- Labels of nodes of the same kind are compared as before. -/
lemma labelsAgree_rename {a b : NodeId} (hk : task.src.sameKind task.dst a b = true) :
    labelsAgree (task.rename f) a b = labelsAgree task a b := by
  obtain ⟨ha, hb, -⟩ := Tree.sameKind_iff.1 hk
  simp only [labelsAgree, Task.src_rename, Task.dst_rename, Task.settings_rename,
    Tree.isLeaf_rename, Tree.label_rename, Tree.kind_rename f _ ha, Tree.kind_rename f _ hb]
  exact congrArg (fun x => decide (task.settings.leafThreshold ≤ x))
    (LabelComparer.compare_rename f { rules := task.rules } _ _ _ _ _)

/-- The partner of the parent is the same node. -/
lemma parentPartner?_rename : parentPartner? (task.rename f) = parentPartner? task := by
  funext p a
  simp [parentPartner?]

/-- Whether the ancestors of two nodes agree does not depend on the names of kinds. -/
lemma ancestryAgrees_rename : ancestryAgrees (task.rename f) = ancestryAgrees task := by
  funext p a b
  simp [ancestryAgrees]

/-- The node of the same kind and position below the partner of the parent is the same. -/
lemma sameSlot?_rename : sameSlot? (task.rename f) = sameSlot? task := by
  funext p a
  simp only [sameSlot?, parentPartner?_rename, Task.src_rename, Task.dst_rename,
    Tree.children_rename, Tree.sameKind_rename, Tree.position_rename]
  refine Option.bind_congr fun q _ => Option.bind_congr fun b hb => ?_
  have hk := List.find?_some hb
  simp only [Bool.and_eq_true] at hk
  rw [labelsAgree_rename f hk.1.2]

/-- An inner node has the same contenders. -/
lemma contenders_rename : contenders (task.rename f) = contenders task := by
  funext p a
  simp only [contenders, ancestryAgrees_rename, Task.src_rename, Task.dst_rename,
    Tree.preOrder_rename, Tree.isLeaf_rename, Tree.sameKind_rename]
  refine List.filter_congr fun b _ => ?_
  cases hk : task.src.sameKind task.dst a b with
  | false => simp
  | true => rw [labelsAgree_rename f hk]

/-- The same contender is chosen for an inner node. -/
lemma settleInner_rename : settleInner (task.rename f) = settleInner task := by
  funext a
  simp [settleInner, sameSlot?_rename, contenders_rename, Overlap.between]

/-- The same sibling is found for a leaf. -/
lemma siblingLeaf?_rename : siblingLeaf? (task.rename f) = siblingLeaf? task := by
  funext p a q
  simp only [siblingLeaf?, Task.src_rename, Task.dst_rename, Tree.children_rename,
    Tree.isLeaf_rename, Tree.sameKind_rename, Tree.position_rename, Tree.sameSubtree_rename]
  refine congrArg (_ <|> _ <|> ·) (List.find?_congr fun b hb => ?_)
  have hk := (List.mem_filter.1 hb).2
  simp only [Bool.and_eq_true] at hk
  rw [labelsAgree_rename f hk.2]

/-- The same leaf is found anywhere in the tree. -/
lemma anyLeaf?_rename : anyLeaf? (task.rename f) = anyLeaf? task := by
  funext p a
  simp only [anyLeaf?, ancestryAgrees_rename, Task.src_rename, Task.dst_rename,
    Tree.preOrder_rename, Tree.isLeaf_rename, Tree.sameKind_rename, Tree.sameSubtree_rename]
  refine congrArg (_ <|> ·) (List.find?_congr fun b hb => ?_)
  have hk := (List.mem_filter.1 hb).2
  simp only [Bool.and_eq_true] at hk
  rw [labelsAgree_rename f hk.1.2]

/-- A leaf is settled in the same way. -/
lemma settleLeaf_rename : settleLeaf (task.rename f) = settleLeaf task := by
  funext a
  simp [settleLeaf, parentPartner?_rename, siblingLeaf?_rename, anyLeaf?_rename]

/-- Looking for the best fit does the same for renamed kinds. -/
lemma run_rename : run (task.rename f) = run task := by
  simp [run, settleInner_rename, settleLeaf_rename]

end BestFit

namespace FirstFit

/-- The first partner that fits an inner node is the same. -/
lemma settle_rename : settle (task.rename f) = settle task := by
  have hfits : fits (task.rename f) = fits task := by
    funext p a b
    simp [fits, Overlap.between]
  funext a
  simp [settle, eligible, hfits]

/-- Looking for the first fit does the same for renamed kinds. -/
lemma run_rename : run (task.rename f) = run task := by
  simp [run, settle_rename]

end FirstFit

/-! ### Scans of leaves -/

namespace LeafScan

variable {scan scan' : LeafScan} (hdst : scan'.dstLeaves = scan.dstLeaves)
  (hkind : scan'.src.sameKind scan'.dst = scan.src.sameKind scan.dst)
  (hjudge : ∀ a b, scan.src.sameKind scan.dst a b = true → scan'.judge a b = scan.judge a b)

include hdst hkind hjudge

/-- A scan only judges leaves of the same kind. -/
lemma sweep_congr {m : Type → Type} [Monad m] (read : NodeId → m String) :
    scan'.sweep read = scan.sweep read := by
  have hlook : scan'.look read = scan.look read := by
    funext x y seen
    unfold look
    rw [hkind, hdst]
    split
    · next hk => rw [hjudge _ _ hk]
    · rfl
  funext leaves
  simp only [sweep, hlook, hdst]

/-- Scans by parts are the same if the leaves that are dealt out are the same and pairs are judged
alike. -/
lemma sharded_congr (hsrc : scan'.srcLeaves = scan.srcLeaves) :
    scan'.sharded = scan.sharded := by
  funext read w
  simp only [sharded, part, hsrc, sweep_congr hdst hkind hjudge]

/-- Scans in one go are the same if, besides, the labels that are read are the same. -/
lemma sequential_congr (hsrc : scan'.srcLeaves = scan.srcLeaves)
    (hlabel : scan'.src.label = scan.src.label) : scan'.sequential = scan.sequential := by
  simp only [sequential, hsrc, hlabel, sweep_congr hdst hkind hjudge]

end LeafScan

namespace Leaves

/-- Linking similar leaves does the same for renamed kinds. -/
lemma run_rename : run (task.rename f) = run task := by
  have hscan : candidates (task.rename f) = candidates task := by
    funext p
    refine LeafScan.sequential_congr ?_ ?_ ?_ ?_ ?_ <;> simp [scan, LeafScan.ofFree]
  simp only [run, hscan]

/-- Linking similar leaves in parts does the same for renamed kinds. -/
lemma runSharded_rename : runSharded (task.rename f) = runSharded task := by
  have hscan : candidatesSharded (task.rename f) = candidatesSharded task := by
    funext p w
    have hcongr : (scan measure (task.rename f) p).sharded = (scan measure task p).sharded := by
      refine LeafScan.sharded_congr ?_ ?_ ?_ ?_ <;> simp [scan, LeafScan.ofFree]
    simp [candidatesSharded, hcongr]
  simp [runSharded, hscan]

end Leaves

/-! ### The meaning of labels -/

namespace LabelAware

/-- The relative position of a node does not depend on its kind. -/
lemma relativePosition_rename (t : Tree) : relativePosition (t.rename f) = relativePosition t := by
  funext id
  simp [relativePosition]

/-- The label-aware stage links the same leaves.

**Proof sketch.** The scans agree in the free leaves, and two leaves of one kind are judged alike,
since their labels are compared by the rules for a kind that has been renamed in the tree and in the
rules.  Nothing else of a scan is used. -/
lemma linkLeaves_rename : linkLeaves (task.rename f) = linkLeaves task := by
  have hscan : ∀ p, (scan (comparer (task.rename f)) (task.rename f) p).sharded =
      (scan (comparer task) task p).sharded := by
    intro p
    refine LeafScan.sharded_congr ?_ ?_ (fun a b hk => ?_) ?_
    · simp [scan, LeafScan.ofFree]
    · simp [scan, LeafScan.ofFree]
    · -- only leaves of one kind are judged, and these are nodes whose kinds have been renamed
      obtain ⟨ha, hb, -⟩ := Tree.sameKind_iff.1 hk
      change a ∈ task.src.preOrder at ha
      change b ∈ task.dst.preOrder at hb
      funext label memo
      simp only [scan, LeafScan.ofFree, Task.src_rename, Task.dst_rename, Task.settings_rename,
        Tree.kind_rename f _ ha, Tree.kind_rename f _ hb, Tree.label_rename,
        relativePosition_rename]
      rw [show comparer (task.rename f) = (comparer task).rename f from rfl,
        LabelComparer.compareMemo_rename]
    · simp [scan, LeafScan.ofFree]
  simp [linkLeaves, hscan]

/-- The same two class declarations are the only free ones: the rules name their kind, which is
renamed as well. -/
lemma linkSingleClass_rename : linkSingleClass (task.rename f) = linkSingleClass task := by
  have hfilter : ∀ (t : Tree) (k : Kind) (free : NodeId → Bool),
      (t.preOrder.filter fun n => (t.rename f).kind n == f k && free n) =
        t.preOrder.filter fun n => t.kind n == k && free n := by
    intro t k free
    refine List.filter_congr fun n hn => ?_
    rw [Tree.kind_rename f t hn]
    simp [Bool.beq_eq_decide_eq]
  unfold linkSingleClass
  cases hk : task.rules.classKind with
  | none => simp [LabelRules.rename, hk]
  | some k => simp [LabelRules.rename, hk, hfilter]

/-- The roots are linked under the same conditions. -/
lemma linkRoots_rename : linkRoots (task.rename f) = linkRoots task := by
  unfold linkRoots
  cases hk : task.rules.rootKind with
  | none => simp [LabelRules.rename, hk]
  | some k =>
    simp [LabelRules.rename, hk, Tree.kind_rename f _ Tree.root_mem_preOrder,
      Bool.beq_eq_decide_eq]

/-- The similarity of children depends on leaves and links only.

**Proof sketch.** Shares are counted from leaves and links, neither of which contains a kind. -/
lemma childrenSimilarity_rename :
    childrenSimilarity (task.rename f) = childrenSimilarity task := by
  have hshare : ∀ t : Tree, shareUnder (t.rename f) = shareUnder t := by
    intro t
    funext id property
    simp [shareUnder, leavesUnder]
  have hdst : leadsBelowDst (task.rename f) = leadsBelowDst task := by
    funext p b leaf
    simp [leadsBelowDst]
  have hsrc : leadsBelowSrc (task.rename f) = leadsBelowSrc task := by
    funext p a leaf
    simp [leadsBelowSrc]
  funext p a b
  simp [childrenSimilarity, childShares, hshare, hdst, hsrc]

variable {task} in
/-- The labels of two nodes of one kind are as similar as before: the rule for their kind has been
renamed together with it. -/
lemma innerSimilarity_rename {a b : NodeId} (hk : task.src.sameKind task.dst a b = true) :
    innerSimilarity (task.rename f) a b = innerSimilarity task a b := by
  obtain ⟨ha, hb, -⟩ := Tree.sameKind_iff.1 hk
  simp only [innerSimilarity, Task.src_rename, Task.dst_rename, Tree.kind_rename f _ ha,
    Tree.kind_rename f _ hb, Tree.label_rename]
  exact LabelComparer.compare_rename f (comparer task) _ _ _ _ _

/-- Inner nodes of a level have the same candidates. -/
lemma innerCandidates_rename : innerCandidates (task.rename f) = innerCandidates task := by
  funext p height
  simp only [innerCandidates, innerFits, childrenSimilarity_rename, Task.src_rename,
    Task.dst_rename, Task.settings_rename, Tree.postOrder_rename, Tree.height_rename,
    Tree.isLeaf_rename, Tree.sameKind_rename, Tree.leafCount_rename]
  refine List.flatMap_congr fun x _ => List.filterMap_congr fun y _ => ?_
  cases hk : task.src.sameKind task.dst x.1 y.1 with
  | false => simp
  | true =>
    rw [innerSimilarity_rename f hk]
    rfl

/-- Linking nodes by the meaning of their labels does the same for renamed kinds. -/
lemma run_rename : run (task.rename f) = run task := by
  have hinner : linkInner (task.rename f) = linkInner task := by
    funext height
    simp only [linkInner, innerCandidates_rename]
  simp [run, linkLeaves_rename, linkSingleClass_rename, linkRoots_rename, hinner]

end LabelAware

/-! ### Edit scripts -/

/-- Flipping a forest commutes with a change of its values. -/
lemma Forest.flipOnto_map {α β : Type} (g : α → β) (t acc : Forest α) :
    (t.map g).flipOnto (acc.map g) = (t.flipOnto acc).map g := by
  induction t generalizing acc with
  | nil => rfl
  | node a below next ihb ihn =>
    rw [map, flipOnto, flipOnto, ← ihn, map, ← ihb]
    rfl

/-- The step of a node whose kind is renamed. -/
def Step.rename (x : Step) : Step := { x with node := x.node.rename f }

/-- The steps of a forest in post-order are renamed one by one. -/
lemma Forest.postSteps_rename (g : Forest Node) :
    (g.map (Node.rename f)).postSteps = g.postSteps.map (Step.rename f) := by
  induction g with
  | nil => rfl
  | node n below next ihb ihn => simp [map, postSteps, ihb, ihn, Step.rename]

namespace Numbering

variable (a b : Numbering)

/-- The numbering of a tree whose kinds are renamed. -/
def rename : Numbering := ⟨a.steps.map (Step.rename f)⟩

/-- The numbering of a renamed tree is the renamed numbering. -/
lemma ofTree_rename (t : Rooted Node) : ofTree (t.map (Node.rename f)) = (ofTree t).rename f := by
  have hsteps : (ofTree (t.map (Node.rename f))).steps = (ofTree t).steps.map (Step.rename f) := by
    rw [steps_ofTree, steps_ofTree, List.map_toArray, ← Forest.postSteps_rename]
    rfl
  rw [rename, ← hsteps]

/-- So is the numbering of the flipped tree. -/
lemma ofTree_flip_rename (t : Rooted Node) :
    ofTree (t.map (Node.rename f)).flip = (ofTree t.flip).rename f := by
  rw [← ofTree_rename]
  exact congrArg (fun below => ofTree ⟨_, below⟩) (Forest.flipOnto_map _ t.below .nil)

/-- A renamed numbering has equally many steps. -/
@[simp] lemma size_rename : (a.rename f).size = a.size := Array.size_map

/-- The steps of a renamed numbering are looked up before they are renamed. -/
lemma getElem?_steps_rename (i : Nat) :
    (a.rename f).steps[i]? = a.steps[i]?.map (Step.rename f) := by
  simp [rename]

/-- What does not depend on kinds is the same in the renamed numbering. -/
lemma apply_step_rename {α : Type} (g : Step → α) (hg : ∀ x, g (x.rename f) = g x) (i : Nat) :
    g ((a.rename f).step i) = g (a.step i) := by
  simp only [step, Array.getD_eq_getD_getElem?, getElem?_steps_rename]
  cases a.steps[i - 1]? with
  | none => rfl
  | some x => exact hg x

/-- The first step of each subtree is at the same place. -/
@[simp] lemma first_rename : (a.rename f).first = a.first := by
  funext i
  rw [first, first, a.apply_step_rename f Step.descendants fun _ => rfl]

/-- The keyroots are at the same places. -/
@[simp] lemma keyroots_rename : (a.rename f).keyroots = a.keyroots := by
  have hcollect : (a.rename f).collectKeyroots = a.collectKeyroots := by
    funext i seen found
    induction i generalizing seen found with
    | zero => rfl
    | succ i ih => simp only [collectKeyroots, first_rename, ih]
  simp [keyroots, hcollect]

/-- Equally many table rows are computed: the subtrees at the keyroots have the same sizes. -/
@[simp] lemma weight_rename : (a.rename f).weight = a.weight := by
  simp [weight]

variable {a b}

/-- The nodes of a numbering are renamed. -/
lemma node_rename (ha : 0 < a.size) {i : Nat} (hi : i ≤ a.size) :
    (a.rename f).node i = (a.node i).rename f := by
  have hlt : i - 1 < a.steps.size := by
    change i - 1 < a.size
    omega
  simp only [node, step, Array.getD_eq_getD_getElem?, getElem?_steps_rename,
    Array.getElem?_eq_getElem hlt]
  rfl

end Numbering

/-- The same pairs of trees are refused for their size, and the others are numbered in the same
direction. -/
lemma EditDistance.prepare_rename (src dst : Tree) (limit : Nat) :
    prepare (src.rename f) (dst.rename f) limit =
      (prepare src dst limit).map fun x => (x.1.rename f, x.2.rename f) := by
  simp only [prepare, Tree.count_rename, Tree.shape_rename, Numbering.ofTree_rename,
    Numbering.ofTree_flip_rename, Numbering.weight_rename]
  split
  · rfl
  · split <;> rfl

section Tables

variable {κ : Type} [Cost κ] {a b : Numbering} (ha : 0 < a.size) (hb : 0 < b.size)

include ha hb

namespace EditDistance

variable {i j : Nat} (hi : i ≤ a.size) (hj : j ≤ b.size)

include hi hj

/-- A relabelling costs the same: different kinds remain different. -/
lemma relabel_rename (cost : κ) :
    relabel (a.rename f) (b.rename f) cost i j = relabel a b cost i j := by
  rw [relabel, relabel, Numbering.node_rename f ha hi, Numbering.node_rename f hb hj]
  by_cases hk : (a.node i).kind = (b.node j).kind <;> simp [Node.rename, hk]

/-- The table of distances between forests holds the same numbers. -/
lemma forestTable_rename (cost : κ) (trees : Grid κ) :
    forestTable (a.rename f) (b.rename f) cost trees i j = forestTable a b cost trees i j := by
  have hi' := a.first_le i
  have hj' := b.first_le j
  simp only [forestTable, Numbering.first_rename]
  refine Grid.build_congr fun g x y hx hy => ?_
  rcases x with _ | x <;> rcases y with _ | y
  · rfl
  · rfl
  · rfl
  · simp only
    rw [relabel_rename f ha hb (by omega) (by omega)]

end EditDistance

omit ha hb [Cost κ] in
/-- The same distances between subtrees are recorded. -/
lemma EditDistance.record_rename (table trees : Grid κ) (i j : Nat) :
    record (a.rename f) (b.rename f) table trees i j = record a b table trees i j := by
  simp [record]

/-- The table of distances between subtrees holds the same numbers. -/
lemma EditDistance.solve_rename (cost : κ) (trees : Grid κ) :
    solve (a.rename f) (b.rename f) cost trees = solve a b cost trees := by
  simp only [solve, Numbering.keyroots_rename, record_rename]
  refine List.foldl_ext _ _ _ fun trees i hi => List.foldl_ext _ _ _ fun trees j hj => ?_
  rw [forestTable_rename f ha hb (Numbering.mem_keyroots_iff.1 hi).2.1
    (Numbering.mem_keyroots_iff.1 hj).2.1]

namespace Script

omit ha hb in
/-- One move of a walk, and the rest of it. -/
lemma walk_eq (table : Grid κ) (top top' i j : Nat) (found : Findings) :
    walk a b table top top' i j found =
      if a.first top - 1 < i ∨ b.first top' - 1 < j then
        match move a b table top top' i j with
        | .delete => walk a b table top top' (i - 1) j found
        | .insert => walk a b table top top' i (j - 1) found
        | .align =>
          walk a b table top top' (i - 1) (j - 1)
            { found with pairs := found.pairs.push ((a.node i).id, (b.node j).id) }
        | .putAside =>
          walk a b table top top' (a.first i - 1) (b.first j - 1)
            { found with pending := (i, j) :: found.pending }
      else found := by
  rw [walk]
  split
  · split <;> next hm => simp only [hm]
  · rfl

omit ha hb in
/-- The walk back through a table takes the same moves, because it compares numbers of the table
only.

**Proof sketch.** Functional induction on the walk.  Each move is read off the table, which has not
changed, and the nodes noted are known by their ids. -/
lemma walk_rename (table : Grid κ) (top top' i j : Nat) (found : Findings) :
    walk (a.rename f) (b.rename f) table top top' i j found =
      walk a b table top top' i j found := by
  have hid : ∀ (a : Numbering) (i : Nat), ((a.rename f).node i).id = (a.node i).id :=
    fun a i => a.apply_step_rename f (·.node.id) (fun _ => rfl) i
  have hmove : ∀ i j, move (a.rename f) (b.rename f) table top top' i j =
      move a b table top top' i j := by
    intro i j
    simp [move]
  fun_induction walk a b table top top' i j found with
  | case1 i j found hin hm ih => rw [walk_eq]; simp [hin, hmove, hm, ih]
  | case2 i j found hin hm ih => rw [walk_eq]; simp [hin, hmove, hm, ih]
  | case3 i j found hin hm ih => rw [walk_eq]; simp [hin, hmove, hm, ih, hid]
  | case4 i j found hin hm ih => rw [walk_eq]; simp [hin, hmove, hm, ih]
  | case5 i j found hin => rw [walk_eq]; simp [hin]

/-- Going back through all tables finds the same pairs, as long as the pending pairs of subtrees lie
in the numberings.

**Proof sketch.** Induction on the limit.  The next table is the same, as its two subtrees lie in
the numberings, and the walk through it is the same. -/
lemma resolve_rename (cost : κ) (limit : Nat) (trees : Grid κ) {found : Findings}
    (h : found.Within a b) :
    resolve (a.rename f) (b.rename f) cost limit trees found =
      resolve a b cost limit trees found := by
  induction limit generalizing trees found with
  | zero => rfl
  | succ limit ih =>
    obtain ⟨pairs, pending⟩ := found
    cases pending with
    | nil => rfl
    | cons y pending =>
      obtain ⟨hi, hj⟩ := h.pending y (List.mem_cons_self ..)
      simp only [resolve, EditDistance.forestTable_rename f ha hb hi hj,
        EditDistance.record_rename, walk_rename]
      refine ih _ (within_walk hi hj ⟨h.pairs, fun z hz => ?_⟩)
      exact h.pending z (List.mem_cons_of_mem y hz)

/-- **Renaming kinds does not change the edit script.** -/
lemma mapping_rename (cost : κ) :
    mapping (a.rename f) (b.rename f) cost = mapping a b cost := by
  have hblank : EditDistance.blank (a.rename f) (b.rename f) =
      (EditDistance.blank a b : Grid κ) := by
    simp [EditDistance.blank]
  have hstart : (⟨#[], [(a.size, b.size)]⟩ : Findings).Within a b :=
    ⟨by simp, fun y hy => by rw [List.mem_singleton.1 hy]; exact ⟨le_rfl, le_rfl⟩⟩
  simp only [mapping, Numbering.size_rename, hblank, EditDistance.solve_rename f ha hb,
    resolve_rename f ha hb cost _ _ hstart]

end Script

end Tables

namespace LeastEdit

/-- Linking nodes by a least edit script does the same for renamed kinds, and is refused for the
same trees. -/
lemma run_rename : run (task.rename f) = run task := by
  have haligned : linkAligned (task.rename f) = linkAligned task := by
    funext a b
    simp [linkAligned]
  simp only [run, haligned, Task.src_rename, Task.dst_rename, Task.settings_rename,
    EditDistance.prepare_rename]
  rcases EditDistance.prepare_cases task.src task.dst task.settings.cellLimit with
    ⟨-, heq⟩ | ⟨-, a, b, mirrored, place, place', heq, ha, hb⟩
  · rw [heq]
    rfl
  · rw [heq]
    simp only [Except.map, Script.mapping_rename f ha.laminar.pos hb.laminar.pos]

end LeastEdit

/-! ### Realignment -/

namespace Realign

/-- The nodes below two linked ones are aligned in the same way. -/
lemma realign_rename : realign (task.rename f) = realign task := by
  have haligns : aligns (task.rename f) = aligns task := by
    funext p a b
    simp [aligns]
  funext x
  simp [realign, alignment, haligns]

/-- A pass over all free nodes does the same. -/
lemma pass_rename : pass (task.rename f) = pass task := by
  have hconsider : consider (task.rename f) = consider task := by
    funext visited added node
    simp [consider, anchor?, realign_rename]
  simp [pass, hconsider]

/-- Passes are repeated equally often. -/
lemma passes_rename : passes (task.rename f) = passes task := by
  funext limit
  induction limit with
  | zero => rfl
  | succ limit ih => simp only [passes, pass_rename, ih]

/-- Realigning free nodes does the same for renamed kinds. -/
lemma run_rename : run (task.rename f) = run task := by
  simp [run, passes_rename]

end Realign

/-! ### Repairs -/

namespace OrphanLeaves

/-- The same adoption is found for an orphan of the source tree. -/
lemma adoptSrc?_rename : adoptSrc? (task.rename f) = adoptSrc? task := by
  funext p node
  simp [adoptSrc?, adoptSrcSameSlot?, adoptSrcWrapped?, adoptSrcAmong?, srcParentFree]

/-- The same adoption is found for an orphan of the destination tree. -/
lemma adoptDst?_rename : adoptDst? (task.rename f) = adoptDst? task := by
  funext p unmatched node
  simp [adoptDst?, adoptDstSameSlot?, adoptDstWrapped?, adoptDstAmong?, adoptDstUnderNew?,
    dstParentFree]

/-- Adopting orphans does the same for renamed kinds. -/
lemma run_rename : run (task.rename f) = run task := by
  have hsrc : settleSrc (task.rename f) = settleSrc task := by
    funext node
    simp [settleSrc, adoptSrc?_rename]
  have hdst : settleDst (task.rename f) = settleDst task := by
    funext unmatched node
    simp [settleDst, adoptDst?_rename]
  simp [run, hsrc, hdst]

end OrphanLeaves

namespace ParentVote

/-- A parent gets the same partner by the votes of its children. -/
lemma settle_rename : settle (task.rename f) = settle task := by
  funext parent counts
  simp [settle, winner?, stays, Exchange.perform]

/-- Voting for parents does the same for renamed kinds. -/
lemma run_rename : run (task.rename f) = run task := by
  simp [run, votes, parents, settle_rename]

end ParentVote

namespace LeafMoves

/-- The same child looks like a node of the other tree. -/
lemma lookAlike?_rename (s t : Tree) (parent : NodeId) (position : Nat) (like : NodeId) :
    lookAlike? (s.rename f) parent position (t.rename f) like =
      lookAlike? s parent position t like := by
  simp [lookAlike?]

/-- The same change is admissible first for a pair of leaves. -/
lemma change?_rename : change? (task.rename f) = change? task := by
  funext p queue srcParent dstParent x
  simp [change?, forward?, backward?, lookAlike?_rename]

/-- A pair of leaves is reconsidered in the same way. -/
lemma reconsider_rename : reconsider (task.rename f) = reconsider task := by
  have hanchors : anchors? (task.rename f) = anchors? task := by
    funext p anchor x
    simp [anchors?]
  funext anchor queue x
  simp [reconsider, hanchors, change?_rename]

/-- The same pairs are unlike: only leaves and labels matter for that. -/
lemma isUnlike_rename : isUnlike (task.rename f) = isUnlike task := by
  funext x
  simp [isUnlike]

/-- The rounds go on in the same way. -/
lemma rounds_rename : rounds (task.rename f) = rounds task := by
  have hround : round (task.rename f) = round task := by
    funext anchor work
    simp [round, reconsider_rename, isUnlike_rename]
  funext anchor limit work
  fun_induction rounds task anchor limit work with
  | case1 => rfl
  | case2 => simp only [rounds]
  | case3 limit work hne ih => simp only [rounds, hround, ih]

/-- Moving leaves does the same for renamed kinds. -/
lemma run_rename : run (task.rename f) = run task := by
  simp [run, reconcile, rounds_rename, isUnlike_rename]

end LeafMoves

/-! ### Plans -/

/-- **No stage sees the names of kinds.**

**Proof sketch.** Case distinction on the stage; each one has its lemma above. -/
theorem Stage.run_rename (stage : Stage) : stage.run (task.rename f) = stage.run task := by
  cases stage with
  | identical => exact Identical.run_rename f task
  | topDown => exact TopDown.run_rename f task
  | bestFit => exact BestFit.run_rename f task
  | leaves => exact Leaves.run_rename f task
  | leavesSharded => exact Leaves.runSharded_rename f task
  | firstFit => exact FirstFit.run_rename f task
  | labelAware => exact LabelAware.run_rename f task
  | leastEdit => exact LeastEdit.run_rename f task
  | realign => exact Realign.run_rename f task
  | repair =>
    simp only [run, OrphanLeaves.run_rename, ParentVote.run_rename, LeafMoves.run_rename]
  | orphanLeaves => exact OrphanLeaves.run_rename f task
  | parentVote => exact ParentVote.run_rename f task
  | leafMoves => exact LeafMoves.run_rename f task

/-- A plan leaves the same pairings after every stage, with the same faults. -/
lemma Plan.steps_rename (plan : Plan) (p : Pairing) :
    plan.steps (task.rename f) p = plan.steps task p := by
  induction plan generalizing p with
  | nil => rfl
  | cons stage plan ih =>
    have hstage : stage.perform (task.rename f) p = stage.perform task p := by
      rw [Stage.perform, Stage.run_rename]
      rfl
    rw [steps, steps, hstage, ih]

/-- A plan leaves the same outcome if all kinds are renamed. -/
lemma Plan.perform_rename (plan : Plan) (p : Pairing) :
    plan.perform (task.rename f) p = plan.perform task p := by
  simp only [perform, Plan.run, Stage.run_rename]

/-! ### Kinds given by their names -/

/-- The tree whose kinds are given by their names, under a table that knows them. -/
def Tree.ofNames (t : KindTable) (c : Rooted (String × String)) : Tree :=
  .ofContents (c.map fun x => ((t.get? x.1).getD default, x.2))

/-- The task of matching two trees whose kinds are given by their names. -/
def Task.ofNames (t : KindTable) (src dst : Rooted (String × String)) (settings : Settings)
    (rules : LabelRules) (threads : Nat) : Task :=
  { src := .ofNames t src, dst := .ofNames t dst, settings, rules, threads }

section

variable {t t' : KindTable} (h : ∀ name, t'.get? name = (t.get? name).map f)

include h

/-- Under a table whose kinds are renamed, the tree is the renamed one. -/
lemma Tree.ofNames_rename {c : Rooted (String × String)}
    (hc : ∀ x ∈ c.preOrder, ∃ k, t.get? x.1 = some k) : ofNames t' c = (ofNames t c).rename f := by
  rw [ofNames, ofNames, ← ofContents_rename, Rooted.map_map]
  refine congrArg ofContents (Rooted.map_congr fun x hx => ?_)
  obtain ⟨k, hk⟩ := hc x hx
  simp [h, hk]

/-- Under a table whose kinds are renamed, the task is the renamed one. -/
lemma Task.ofNames_rename {src dst : Rooted (String × String)}
    (hnames : ∀ x ∈ src.preOrder ++ dst.preOrder, ∃ k, t.get? x.1 = some k) (settings : Settings)
    (rules : LabelRules) (threads : Nat) :
    ofNames t' src dst settings (rules.rename f) threads =
      (ofNames t src dst settings rules threads).rename f := by
  have hsrc := Tree.ofNames_rename f h fun x hx => hnames x (List.mem_append_left _ hx)
  have hdst := Tree.ofNames_rename f h fun x hx => hnames x (List.mem_append_right _ hx)
  simp only [ofNames, hsrc, hdst, rename, Tree.label_rename]

end

/-- **Kinds matter only up to renaming.**  If all kinds of two trees and of the label rules are
renamed, so that different kinds remain different, then a plan leaves the same pairing after every
stage and at its end, and stops with the same fault, whatever the settings and the pairing at the
beginning.  Tables that meet the same names in different order differ by such a renaming, as long as
there are enough numbers for all names; so the order does not matter.

**Proof sketch.** The first half is `Plan.steps_rename`, stage by stage.  For the second half, two
tables that have met the same names number them differently, and this gives an injection of kinds.
It carries the task with the one table to the task with the other. -/
theorem kinds_matter_only_up_to_renaming :
    (∀ (f : Kind ↪ Kind) (task : Task) (plan : Plan) (p : Pairing),
      plan.steps (task.rename f) p = plan.steps task p ∧
        plan.perform (task.rename f) p = plan.perform task p) ∧
    ∀ names names' : List String, (∀ name, name ∈ names ↔ name ∈ names') →
      names.toFinset.card ≤ 2 ^ 32 →
      let t := KindTable.empty.internAll names
      let t' := KindTable.empty.internAll names'
      ∃ f : Kind ↪ Kind, (∀ name, t'.get? name = (t.get? name).map f) ∧
        ∀ src dst : Rooted (String × String),
          (∀ x ∈ src.preOrder ++ dst.preOrder, x.1 ∈ names) →
          ∀ (settings : Settings) (rules : LabelRules) (threads : Nat) (plan : Plan) (p : Pairing),
            plan.steps (.ofNames t' src dst settings (rules.rename f) threads) p =
              plan.steps (.ofNames t src dst settings rules threads) p := by
  refine ⟨fun f task plan p => ⟨plan.steps_rename f task p, plan.perform_rename f task p⟩, ?_⟩
  intro names names' hsame hcard t t'
  obtain ⟨f, hf⟩ := KindTable.exists_rename_internAll hsame hcard
  refine ⟨f, hf, fun src dst hnames settings rules threads plan p => ?_⟩
  have hknown : ∀ x ∈ src.preOrder ++ dst.preOrder, ∃ k, t.get? x.1 = some k := fun x hx =>
    ((KindTable.exact_empty.internAll names).known x.1).2
      (KindTable.mem_names_internAll.2 (hnames x hx))
  rw [Task.ofNames_rename f hf hknown, Plan.steps_rename]

/-- Calls whose arguments were partly linked before: the calls are linked although their kind and
that of the arguments have changed places, and also if the names of these kinds are met in another
order. -/
theorem swapped_kinds_of_call_leave_same_pairs :
    let f : Kind ↪ Kind := (Equiv.swap ⟨0⟩ ⟨1⟩).toEmbedding
    let src : Tree := .ofContents ⟨(⟨0⟩, "f"), .node (⟨1⟩, "x") .nil (.leaf (⟨1⟩, "y"))⟩
    let dst : Tree := .ofContents ⟨(⟨0⟩, "f"), .node (⟨1⟩, "y") .nil (.leaf (⟨1⟩, "z"))⟩
    let task : Task := { src, dst, rules := { rootKind := some ⟨0⟩ } }
    let p := Pairing.empty.insert 3 2
    let names := ["call", "name"]
    let names' := ["name", "call", "name"]
    let t := KindTable.empty.internAll names
    let t' := KindTable.empty.internAll names'
    let x : Rooted (String × String) := ⟨("call", "f"), .leaf ("name", "x")⟩
    let y : Rooted (String × String) := ⟨("call", "f"), .leaf ("name", "y")⟩
    ((task.rename f).src.kind 1 = ⟨1⟩ ∧
      (Plan.steps (task.rename f) [.topDown, .firstFit] p).map (·.2.pairing.pairs) =
        [[⟨3, 2⟩], [⟨1, 1⟩, ⟨3, 2⟩]]) ∧
    (∀ name, name ∈ names ↔ name ∈ names') ∧ names.toFinset.card ≤ 2 ^ 32 ∧
    t.get? "call" = some ⟨0⟩ ∧ t'.get? "call" = some ⟨1⟩ ∧
    ∃ f : Kind ↪ Kind, f ⟨0⟩ = ⟨1⟩ ∧ ∀ (rules : LabelRules) (threads : Nat) (plan : Plan),
      plan.steps (.ofNames t' x y {} (rules.rename f) threads) .empty =
        plan.steps (.ofNames t x y {} rules threads) .empty := by
  intro f src dst task p names names' t t' x y
  have hsame : ∀ name, name ∈ names ↔ name ∈ names' := by
    intro name
    simp only [names, names', List.mem_cons, List.not_mem_nil, or_false]
    tauto
  have hcard : names.toFinset.card ≤ 2 ^ 32 :=
    (List.toFinset_card_le names).trans (by decide)
  have hget : t.get? "call" = some ⟨0⟩ := by
    simp [t, names, KindTable.internAll, KindTable.intern, KindTable.get?, KindTable.empty,
      Std.HashMap.getElem_insert]
  have hget' : t'.get? "call" = some ⟨1⟩ := by
    simp [t', names', KindTable.internAll, KindTable.intern, KindTable.get?, KindTable.empty,
      Std.HashMap.getElem_insert]
  refine ⟨⟨by decide +kernel, ?_⟩, hsame, hcard, hget, hget', ?_⟩
  · rw [(kinds_matter_only_up_to_renaming.1 f task _ _).1]
    decide +kernel
  · obtain ⟨g, hg, hsteps⟩ := kinds_matter_only_up_to_renaming.2 names names' hsame hcard
    refine ⟨g, ?_, fun rules threads plan =>
      hsteps x y ?_ {} rules threads plan .empty⟩
    · have hcall := hg "call"
      rw [hget, hget'] at hcall
      exact (Option.some.inj hcall).symm
    · decide

end TreeMatching
