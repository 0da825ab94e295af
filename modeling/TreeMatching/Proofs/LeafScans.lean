import Mathlib.Data.List.Nodup
import Mathlib.Data.List.Perm.Basic
import Mathlib.Data.List.Range
import TreeMatching.Proofs.TreeTables
import TreeMatching.Stage

set_option autoImplicit false

/-!
# Scans of leaves do not depend on how they are carried out

A scan of leaves remembers similarities in a memo and may be split into parts, each with a memo of
its own.  Neither changes what it finds: the candidates are those of a plain double loop over the
leaves, in which every similarity is computed anew.

## Main definitions

* `Memo.Agrees` — everything in the memo is right.
* `LeafScan.Transparent` — a pair of leaves is judged as if there were no memo.
* `LeafScan.plain` — the candidates of the plain double loop.
* `LeafScan.BreaksDownAt` — which part of a scan is the first to break down.
* `Leaves.plain`, `LabelAware.plain` — the plain double loops of the two stages.
* `Task.withWorkers`, `Task.withThreads` — the same task, to be carried out by so many workers, or
  with so many threads at hand.

## Main results

* `LeafScan.sweep_eq_pure` — a sweep finds what the plain loop finds.
* `LeafScan.sharded_eq_plain` — so do the parts together, in the same order.
* `LeafScan.joinsLeaves_of_mem_sharded` — what is found by parts are pairs of leaves of the same
  kind.
* `LeafScan.sharded_eq_error_iff` — a scan by parts fails exactly if a part breaks down.
* `exists_mem_pairs_iff` — the candidates that a double loop finds.
* `sharding_preserves_candidates_and_stages` — the two stages that scan leaves depend neither on
  the number of workers nor on the memo.
-/

namespace TreeMatching

/-! ### The memo -/

namespace Memo

/-- Every similarity in the memo is the one that would be computed. -/
def Agrees (memo : Memo) (value : String → String → Float) : Prop :=
  ∀ a b x, memo.entries[(a, b)]? = some x → x = value a b

variable {memo : Memo} {value : String → String → Float}

/-- Everything in the empty memo is right. -/
lemma agrees_empty : empty.Agrees value := by
  intro a b x h
  simp [empty] at h

/-- A similarity fetched from a memo that agrees is the one that would be computed. -/
lemma Agrees.fst_fetch (h : memo.Agrees value) (a b : String) :
    (memo.fetch a b fun _ => value a b).1 = value a b := by
  unfold fetch
  cases he : memo.entries[(a, b)]? with
  | some x => exact h a b x he
  | none => rfl

/-- Fetching a similarity keeps a memo right.

**Proof sketch.** A similarity that is remembered has been right.  One that is computed is added
under its two labels, and for other labels nothing changes. -/
lemma Agrees.snd_fetch (h : memo.Agrees value) (a b : String) :
    (memo.fetch a b fun _ => value a b).2.Agrees value := by
  unfold fetch
  cases he : memo.entries[(a, b)]? with
  | some x => exact h
  | none =>
    intro a' b' x hx
    rw [Std.HashMap.getElem?_insert] at hx
    split at hx
    · next heq =>
      obtain ⟨rfl, rfl⟩ : a = a' ∧ b = b' := by simpa using heq
      cases hx
      rfl
    · exact h a' b' x hx

end Memo

namespace LeafScan

variable (scan : LeafScan) {score : NodeId → NodeId → String → Option Score}
  {value : String → String → Float}

/-! ### The plain double loop -/

/-- With any memo that agrees with `value`, a pair of leaves gets the score that `score` gives it,
and the memo still agrees afterwards. -/
def Transparent (score : NodeId → NodeId → String → Option Score)
    (value : String → String → Float) : Prop :=
  ∀ a b label memo, memo.Agrees value →
    (scan.judge a b label memo).1 = score a b label ∧ (scan.judge a b label memo).2.Agrees value

/-- The candidate that a pair of leaves gives, if any; each leaf comes with its place. -/
def pick (score : NodeId → NodeId → String → Option Score) (x y : NodeId × Nat) :
    Option Candidate :=
  if scan.src.sameKind scan.dst x.1 y.1 then
    (score x.1 y.1 (scan.src.label x.1)).map fun s =>
      ⟨x.1, y.1, s, x.2 * scan.dstLeaves.length + y.2⟩
  else none

variable {scan} in
/-- A pair of leaves gives a candidate exactly if their kinds are the same and there is a score for
them. -/
lemma pick_eq_some_iff {x y : NodeId × Nat} {c : Candidate} :
    scan.pick score x y = some c ↔ scan.src.sameKind scan.dst x.1 y.1 = true ∧
      ∃ s, score x.1 y.1 (scan.src.label x.1) = some s ∧
        c = ⟨x.1, y.1, s, x.2 * scan.dstLeaves.length + y.2⟩ := by
  unfold pick
  split
  · next hk =>
    rw [Option.map_eq_some_iff]
    simp only [hk, true_and, @eq_comm _ _ c]
  · next hk => simp [hk]

/-- The candidates that a source leaf gives with all destination leaves. -/
def row (score : NodeId → NodeId → String → Option Score) (x : NodeId × Nat) : List Candidate :=
  scan.dstLeaves.zipIdx.filterMap (scan.pick score x)

/-- The candidates of the plain double loop over all leaves: every pair of leaves is judged on its
own. -/
def plain (score : NodeId → NodeId → String → Option Score) : List Candidate :=
  scan.srcLeaves.zipIdx.flatMap (scan.row score)

/-! ### Sweeps -/

section Sweep

variable {m : Type → Type} [Monad m] [LawfulMonad m]

/-- Looking at one pair of leaves adds its candidate, if it gives one. -/
lemma look_eq_pure (ht : scan.Transparent score value) (x y : NodeId × Nat) (seen : Sightings)
    (hs : seen.1.Agrees value) :
    ∃ memo : Memo, memo.Agrees value ∧
      scan.look (m := m) (fun a => pure (scan.src.label a)) x y seen =
        pure (memo, seen.2 ++ (scan.pick score x y).toList.toArray) := by
  unfold look pick
  by_cases hk : scan.src.sameKind scan.dst x.1 y.1 = true
  · obtain ⟨hfst, hsnd⟩ := ht x.1 y.1 (scan.src.label x.1) seen.1 hs
    refine ⟨_, hsnd, ?_⟩
    simp only [hk, ↓reduceIte, pure_bind]
    rw [← hfst]
    rcases scan.judge x.1 y.1 (scan.src.label x.1) seen.1 with ⟨_ | s, memo⟩
    · simp
    · simp
  · exact ⟨seen.1, hs, by simp [hk]⟩

/-- Looking at a source leaf and all destination leaves adds a row of candidates. -/
lemma foldlM_look_eq_pure (ht : scan.Transparent score value) (x : NodeId × Nat)
    (ys : List (NodeId × Nat)) (seen : Sightings) (hs : seen.1.Agrees value) :
    ∃ memo : Memo, memo.Agrees value ∧
      ys.foldlM (fun seen y => scan.look (m := m) (fun a => pure (scan.src.label a)) x y seen)
        seen = pure (memo, seen.2 ++ (ys.filterMap (scan.pick score x)).toArray) := by
  induction ys generalizing seen with
  | nil => exact ⟨seen.1, hs, by simp⟩
  | cons y ys ih =>
    obtain ⟨memo, hmemo, hlook⟩ := scan.look_eq_pure (m := m) ht x y seen hs
    obtain ⟨memo', hmemo', hrest⟩ := ih (memo, _) hmemo
    refine ⟨memo', hmemo', ?_⟩
    rw [List.foldlM_cons, hlook, pure_bind, hrest]
    cases h : scan.pick score x y with
    | none => simp [List.filterMap_cons_none h]
    | some c => simp [List.filterMap_cons_some h]

/-- **A sweep finds what the plain loop finds**, whatever the effects with which labels could be
read.

**Proof sketch.** Induction on the source leaves.  The memo always agrees with the measure, so each
pair of leaves is judged as in the plain loop, and its candidate is put behind those found
before. -/
lemma sweep_eq_pure (ht : scan.Transparent score value) (xs : List (NodeId × Nat)) :
    scan.sweep (m := m) (fun a => pure (scan.src.label a)) xs =
      pure (xs.flatMap (scan.row score)) := by
  have hfold : ∀ seen : Sightings, seen.1.Agrees value →
      ∃ memo : Memo, memo.Agrees value ∧
        xs.foldlM (fun seen x => scan.dstLeaves.zipIdx.foldlM (fun seen y =>
          scan.look (m := m) (fun a => pure (scan.src.label a)) x y seen) seen) seen =
        pure (memo, seen.2 ++ (xs.flatMap (scan.row score)).toArray) := by
    induction xs with
    | nil => exact fun seen hs => ⟨seen.1, hs, by simp⟩
    | cons x xs ih =>
      intro seen hs
      obtain ⟨memo, hmemo, hrow⟩ :=
        scan.foldlM_look_eq_pure (m := m) ht x scan.dstLeaves.zipIdx seen hs
      obtain ⟨memo', hmemo', hrest⟩ := ih (memo, _) hmemo
      refine ⟨memo', hmemo', ?_⟩
      rw [List.foldlM_cons, hrow, pure_bind, hrest]
      simp [row]
  obtain ⟨memo, -, h⟩ := hfold (Memo.empty, #[]) Memo.agrees_empty
  rw [sweep, h, pure_bind]
  simp

end Sweep

/-- **The scan in one go is the plain double loop.** -/
lemma sequential_eq_plain (ht : scan.Transparent score value) :
    scan.sequential = scan.plain score := by
  rw [sequential, scan.sweep_eq_pure (m := Id) ht]
  rfl

/-! ### Parts -/

/-- Items that are sorted into `w` classes are the items of all classes together.

**Proof sketch.** Induction on the number of classes.  The items of the classes below `w + 1` are
those of the classes below `w` and those of the class `w`. -/
lemma flatMap_filter_perm {α : Type} (g : α → Nat) (items : List α) (w : Nat) :
    ((List.range w).flatMap fun k => items.filter fun x => g x == k).Perm
      (items.filter fun x => g x < w) := by
  induction w with
  | zero => simp
  | succ w ih =>
    rw [List.range_succ, List.flatMap_append, List.flatMap_singleton]
    -- the items below `w + 1` are those below `w` and those in the class `w`
    have h := List.filter_append_perm (fun x => decide (g x < w))
      (items.filter fun x => g x < w + 1)
    rw [List.filter_filter, List.filter_filter] at h
    refine (ih.append_right _).trans (List.Perm.trans (.of_eq ?_) h)
    congr 1 <;> refine List.filter_congr fun x _ => ?_
    · rw [Bool.eq_iff_iff]
      simp only [decide_eq_true_eq, Bool.and_eq_true]
      omega
    · rw [Bool.eq_iff_iff]
      simp only [beq_iff_eq, Bool.not_eq_true', decide_eq_false_iff_not, Bool.and_eq_true,
        decide_eq_true_eq]
      omega

/-- The parts of a scan share out the source leaves. -/
lemma flatMap_part_perm {w : Nat} (hw : 1 ≤ w) :
    ((List.range w).flatMap (scan.part w)).Perm scan.srcLeaves.zipIdx := by
  have h := flatMap_filter_perm (fun x : NodeId × Nat => x.2 % w) scan.srcLeaves.zipIdx w
  rwa [List.filter_eq_self.2 fun x _ => decide_eq_true (Nat.mod_lt _ hw)] at h

/-- A candidate of a row lies within the places that belong to the source leaf. -/
lemma bounds_of_mem_row {x : NodeId × Nat} {c : Candidate} (hc : c ∈ scan.row score x) :
    x.2 * scan.dstLeaves.length ≤ c.id ∧ c.id < (x.2 + 1) * scan.dstLeaves.length := by
  obtain ⟨y, hy, hpick⟩ := List.mem_filterMap.1 hc
  have hlt : y.2 < scan.dstLeaves.length := by
    have := List.snd_lt_of_mem_zipIdx hy
    omega
  obtain ⟨-, s, -, rfl⟩ := pick_eq_some_iff.1 hpick
  rw [Nat.succ_mul]
  exact ⟨Nat.le_add_right .., Nat.add_lt_add_left hlt _⟩

/-- Places in a list of leaves increase. -/
lemma pairwise_snd_zipIdx (leaves : List NodeId) :
    leaves.zipIdx.Pairwise fun x y => x.2 < y.2 := by
  have h : (leaves.zipIdx.map Prod.snd).Pairwise (· < ·) := by
    rw [List.zipIdx_map_snd]
    exact List.pairwise_lt_range'
  exact List.pairwise_map.1 h

/-- The ids of the plain loop increase.

**Proof sketch.** Within a row the place of the destination leaf increases.  From one row to the
next the id passes a multiple of the number of destination leaves. -/
lemma pairwise_id_plain (score : NodeId → NodeId → String → Option Score) :
    (scan.plain score).Pairwise fun c d => c.id < d.id := by
  refine List.pairwise_flatMap.2 ⟨fun x _ => ?_, ?_⟩
  · refine List.pairwise_filterMap.2 ((pairwise_snd_zipIdx scan.dstLeaves).imp ?_)
    intro y z hyz c hc d hd
    obtain ⟨-, s, -, rfl⟩ := pick_eq_some_iff.1 hc
    obtain ⟨-, s', -, rfl⟩ := pick_eq_some_iff.1 hd
    exact Nat.add_lt_add_left hyz _
  · refine (pairwise_snd_zipIdx scan.srcLeaves).imp ?_
    intro x y hxy c hc d hd
    have h1 := (scan.bounds_of_mem_row hc).2
    have h2 := (scan.bounds_of_mem_row hd).1
    have h3 := Nat.mul_le_mul_right scan.dstLeaves.length (Nat.succ_le_of_lt hxy)
    exact (h1.trans_le h3).trans_le h2

/-- **The parts of a scan find together what the plain loop finds**, in the same order.

**Proof sketch.** Each part finds the rows of its source leaves.  The parts share out the source
leaves, so their candidates are a rearrangement of those of the plain loop.  Ordering by ids undoes
it, because the ids of the plain loop increase. -/
theorem sharded_eq_plain (ht : scan.Transparent score value) {w : Nat} (hw : 1 ≤ w) :
    scan.sharded (fun a => .ok (scan.src.label a)) w = .ok (scan.plain score) := by
  have hpart : ∀ k, scan.sweep (fun a => (.ok (scan.src.label a) : Except (Option String) String))
      (scan.part w k) = .ok ((scan.part w k).flatMap (scan.row score)) := fun k =>
    scan.sweep_eq_pure (m := Except (Option String)) ht (scan.part w k)
  have hperm : (((List.range w).map fun k =>
      (scan.part w k).flatMap (scan.row score)).flatten).Perm (scan.plain score) := by
    rw [← List.flatMap_def, ← List.flatMap_assoc]
    exact (scan.flatMap_part_perm hw).flatMap_right _
  have hids := scan.pairwise_id_plain score
  have hnodup : ((scan.plain score).map Candidate.id).Nodup :=
    List.pairwise_map.2 (hids.imp Nat.ne_of_lt)
  have hsorted : List.Pairwise (fun c d : Candidate => decide (c.id ≤ d.id) = true)
      (((List.range w).map fun k => (scan.part w k).flatMap (scan.row score)).flatten.mergeSort
        fun c d => c.id ≤ d.id) := by
    apply List.pairwise_mergeSort
    · intro c d e h1 h2
      exact decide_eq_true ((of_decide_eq_true h1).trans (of_decide_eq_true h2))
    · intro c d
      rw [Bool.or_eq_true, decide_eq_true_eq, decide_eq_true_eq]
      exact Nat.le_total ..
  have hmap : ((List.range w).mapM fun k =>
      (.ok ((scan.part w k).flatMap (scan.row score)) : Except Fault (List Candidate))) =
        .ok ((List.range w).map fun k => (scan.part w k).flatMap (scan.row score)) :=
    List.mapM_pure
  simp only [sharded, hpart, hmap]
  refine congrArg Except.ok (List.Perm.eq_of_pairwise ?_ hsorted
    (hids.imp fun h => decide_eq_true h.le) ((List.mergeSort_perm _ _).trans hperm))
  intro c d hc hd h1 h2
  exact List.inj_on_of_nodup_map hnodup (hperm.mem_iff.1 (List.mem_mergeSort.1 hc)) hd
    (Nat.le_antisymm (of_decide_eq_true h1) (of_decide_eq_true h2))

/-- So they do with any way to read labels that does not fail. -/
lemma sharded_eq_plain_of_read (ht : scan.Transparent score value) {w : Nat} (hw : 1 ≤ w)
    {read : NodeId → Except (Option String) String}
    (hread : ∀ a, read a = .ok (scan.src.label a)) :
    scan.sharded read w = .ok (scan.plain score) := by
  rw [funext hread]
  exact scan.sharded_eq_plain ht hw

/-! ### What is found when labels cannot always be read -/

/-- A computation in two steps that succeeds has a first step that does. -/
lemma exists_of_bind_eq_ok {α β ε : Type} {x : Except ε α} {f : α → Except ε β} {b : β}
    (h : x >>= f = .ok b) : ∃ a, x = .ok a ∧ f a = .ok b := by
  cases x with
  | error e => cases h
  | ok a => exact ⟨a, rfl, h⟩

/-- If the second of two steps cannot fail, the computation fails where the first step does. -/
lemma bind_pure_eq_error_iff {α β ε : Type} {x : Except ε α} {f : α → β} {e : ε} :
    (x >>= fun a => pure (f a)) = .error e ↔ x = .error e := by
  cases x with
  | error e' => exact ⟨fun h => by cases h; rfl, fun h => by cases h; rfl⟩
  | ok a => exact ⟨nofun, nofun⟩

/-- What every round of a loop preserves, unless it fails, holds after the loop, unless that
fails. -/
lemma foldlM_ok_preserves {σ α ε : Type} {P : σ → Prop} {f : σ → α → Except ε σ} {items : List α}
    {s s' : σ} (hs : P s) (hf : ∀ x ∈ items, ∀ s s', P s → f s x = .ok s' → P s')
    (h : items.foldlM f s = .ok s') : P s' := by
  induction items generalizing s with
  | nil =>
    cases h
    exact hs
  | cons x items ih =>
    rw [List.foldlM_cons] at h
    obtain ⟨u, hx, h⟩ := exists_of_bind_eq_ok h
    exact ih (hf x (List.mem_cons_self ..) s u hs hx)
      (fun y hy => hf y (List.mem_cons_of_mem x hy)) h

/-- The results of parts that all succeed are those of the single parts.

**Proof sketch.** Induction on the list, with the first result split off. -/
lemma exists_of_mem_mapM_ok {α β ε : Type} {f : α → Except ε β} {items : List α} {ys : List β}
    (h : items.mapM f = .ok ys) {y : β} (hy : y ∈ ys) : ∃ x ∈ items, f x = .ok y := by
  induction items generalizing ys with
  | nil =>
    cases h
    cases hy
  | cons x items ih =>
    rw [List.mapM_cons] at h
    obtain ⟨z, hx, h⟩ := exists_of_bind_eq_ok h
    obtain ⟨zs, hr, h⟩ := exists_of_bind_eq_ok h
    cases h
    rcases List.mem_cons.1 hy with rfl | hy
    · exact ⟨x, List.mem_cons_self .., hx⟩
    · obtain ⟨x', hx', h'⟩ := ih hr hy
      exact ⟨x', List.mem_cons_of_mem x hx', h'⟩

/-- If parts do not all succeed, the failure is that of the first one that does not.

**Proof sketch.** Induction on the list.  If the first part fails, its failure is reported, and no
other part can be the first one to fail.  If it succeeds, the failure is that of the others, one
place further on. -/
lemma mapM_eq_error_iff {α β ε : Type} {f : α → Except ε β} {items : List α} {e : ε} :
    items.mapM f = .error e ↔
      ∃ (k : Nat) (x : α), items[k]? = some x ∧ f x = .error e ∧
        ∀ j < k, ∀ y, items[j]? = some y → ∃ z, f y = .ok z := by
  induction items with
  | nil =>
    constructor
    · intro h
      cases h
    · rintro ⟨k, x, hx, -⟩
      simp at hx
  | cons x items ih =>
    rw [List.mapM_cons]
    cases hx : f x with
    | error e' =>
      constructor
      · intro h
        cases h
        exact ⟨0, x, rfl, hx, by simp⟩
      · rintro ⟨k, y, hy, he, hfirst⟩
        cases k with
        | zero =>
          obtain rfl : x = y := by simpa using hy
          rw [hx] at he
          cases he
          rfl
        | succ k =>
          obtain ⟨z, hz⟩ := hfirst 0 (Nat.succ_pos k) x rfl
          rw [hx] at hz
          cases hz
    | ok z =>
      -- the first part succeeds, so the failure is that of the others, one place further on
      change (items.mapM f >>= fun ys => pure (z :: ys)) = .error e ↔ _
      rw [bind_pure_eq_error_iff, ih]
      constructor
      · rintro ⟨k, y, hy, he, hfirst⟩
        refine ⟨k + 1, y, hy, he, fun j hj w hw => ?_⟩
        cases j with
        | zero =>
          obtain rfl : x = w := by simpa using hw
          exact ⟨z, hx⟩
        | succ j => exact hfirst j (by omega) w (by simpa using hw)
      · rintro ⟨k, y, hy, he, hfirst⟩
        cases k with
        | zero =>
          obtain rfl : x = y := by simpa using hy
          rw [hx] at he
          cases he
        | succ k =>
          refine ⟨k, y, by simpa using hy, he, fun j hj w hw => ?_⟩
          exact hfirst (j + 1) (by omega) w (by simpa using hw)

/-- The candidate joins a source leaf and a destination leaf of the scan that have the same
kind. -/
def JoinsLeaves (c : Candidate) : Prop :=
  c.src ∈ scan.srcLeaves ∧ c.dst ∈ scan.dstLeaves ∧ scan.src.sameKind scan.dst c.src c.dst = true

variable {scan}

/-- Looking at one pair of leaves finds at most that pair.

**Proof sketch.** If the kinds agree and the pair is judged similar, the pair is added to what has
been found; in all other cases nothing is added. -/
lemma joinsLeaves_of_look {ε : Type} {read : NodeId → Except ε String} {x y : NodeId × Nat}
    {seen seen' : Sightings} (hx : x.1 ∈ scan.srcLeaves) (hy : y.1 ∈ scan.dstLeaves)
    (hs : ∀ c ∈ seen.2, scan.JoinsLeaves c) (h : scan.look read x y seen = .ok seen') :
    ∀ c ∈ seen'.2, scan.JoinsLeaves c := by
  unfold look at h
  by_cases hk : scan.src.sameKind scan.dst x.1 y.1 = true
  · simp only [hk, ↓reduceIte] at h
    obtain ⟨label, -, h⟩ := exists_of_bind_eq_ok h
    intro c hc
    split at h <;> cases h
    · rcases Array.mem_push.1 hc with hc | rfl
      · exact hs c hc
      · exact ⟨hx, hy, hk⟩
    · exact hs c hc
  · simp only [hk, Bool.false_eq_true, ↓reduceIte] at h
    cases h
    exact hs

/-- **Whatever a divided scan finds are pairs of leaves of the same kind**, also if not all labels
can be read.

**Proof sketch.** Within a part, looking at two leaves adds at most the pair of them, and only if
they are of the same kind; so the property is kept along both loops.  Merging the parts only
rearranges what they have found. -/
theorem joinsLeaves_of_mem_sharded {read : NodeId → Except (Option String) String} {w : Nat}
    {found : List Candidate} (h : scan.sharded read w = .ok found) {c : Candidate}
    (hc : c ∈ found) : scan.JoinsLeaves c := by
  have hsweep : ∀ k cs, scan.sweep read (scan.part w k) = .ok cs →
      ∀ c ∈ cs, scan.JoinsLeaves c := by
    intro k cs hcs
    unfold sweep at hcs
    obtain ⟨seen, hf, hcs⟩ := exists_of_bind_eq_ok hcs
    cases hcs
    -- both loops of a sweep add pairs of the leaves they look at and nothing else
    have hall : ∀ c ∈ seen.2, scan.JoinsLeaves c := by
      refine foldlM_ok_preserves (P := fun seen : Sightings =>
        ∀ c ∈ seen.2, scan.JoinsLeaves c) (by simp) ?_ hf
      intro x hx s s' hs hrow
      refine foldlM_ok_preserves (P := fun seen : Sightings =>
        ∀ c ∈ seen.2, scan.JoinsLeaves c) hs ?_ hrow
      intro y hy u u' hu hlook
      have hx' := List.fst_mem_of_mem_zipIdx (List.mem_filter.1 hx).1
      exact joinsLeaves_of_look hx' (List.fst_mem_of_mem_zipIdx hy) hu hlook
    exact fun c hc => hall c (Array.mem_toList_iff.1 hc)
  unfold sharded at h
  obtain ⟨parts, hm, h⟩ := exists_of_bind_eq_ok h
  cases h
  obtain ⟨cs, hcs, hc⟩ := List.mem_flatten.1 (List.mem_mergeSort.1 hc)
  obtain ⟨k, -, hk⟩ := exists_of_mem_mapM_ok hm hcs
  split at hk
  · next heq =>
    cases hk
    exact hsweep k _ heq c hc
  · cases hk

variable (scan) in
/-- Part `k` of `w` parts is the first one that breaks down, and it leaves the text `note`. -/
structure BreaksDownAt (read : NodeId → Except (Option String) String) (w k : Nat)
    (note : Option String) : Prop where
  /-- There is such a part. -/
  isPart : k < w
  /-- The part breaks down. -/
  breaks : scan.sweep read (scan.part w k) = .error note
  /-- The parts before it are carried out. -/
  first : ∀ j < k, ∃ found, scan.sweep read (scan.part w j) = .ok found

/-- **A divided scan fails exactly if a part of it breaks down**, and it reports the first one.

**Proof sketch.** The parts are run in order of their numbers, so `mapM_eq_error_iff` says that the
first one to fail is reported.  A part that fails is reported with its number and its note, and this
is what breaking down means. -/
theorem sharded_eq_error_iff {read : NodeId → Except (Option String) String} {w : Nat}
    {fault : Fault} :
    scan.sharded read w = .error fault ↔
      ∃ k note, fault = .worker k note ∧ scan.BreaksDownAt read w k note := by
  unfold sharded
  rw [bind_pure_eq_error_iff, mapM_eq_error_iff]
  constructor
  · rintro ⟨k, x, hx, he, hfirst⟩
    obtain ⟨hk, rfl⟩ : k < w ∧ k = x := by simpa [List.getElem?_eq_some_iff] using hx
    split at he
    · cases he
    · next note hbreak =>
      cases he
      refine ⟨k, note, rfl, hk, hbreak, fun j hj => ?_⟩
      obtain ⟨found, hfound⟩ := hfirst j hj j (List.getElem?_range (by omega))
      split at hfound
      · next cs hcs => exact ⟨cs, hcs⟩
      · cases hfound
  · rintro ⟨k, note, rfl, hk, hbreak, hfirst⟩
    refine ⟨k, k, List.getElem?_range hk, by simp [hbreak], fun j hj y hy => ?_⟩
    obtain ⟨-, rfl⟩ : j < w ∧ j = y := by simpa [List.getElem?_eq_some_iff] using hy
    obtain ⟨found, hfound⟩ := hfirst j hj
    exact ⟨found, by simp [hfound]⟩

end LeafScan

/-! ### The two stages that scan leaves -/

/-- **The candidates that a double loop finds** are the pairs that meet its condition.

**Proof sketch.** A candidate comes from its two places in the lists; conversely two entries have
places, and these give a candidate. -/
lemma exists_mem_pairs_iff {srcs dsts : List NodeId} {f : NodeId → NodeId → Bool}
    {g : NodeId → NodeId → Score} {a b : NodeId} :
    (∃ c ∈ srcs.zipIdx.flatMap fun (a, i) => dsts.zipIdx.filterMap fun (b, j) =>
      if f a b then some (⟨a, b, g a b, i * dsts.length + j⟩ : Candidate) else none,
        c.src = a ∧ c.dst = b) ↔ a ∈ srcs ∧ b ∈ dsts ∧ f a b = true := by
  simp only [List.mem_flatMap, List.mem_filterMap, Option.ite_none_right_eq_some,
    Option.some.injEq]
  constructor
  · rintro ⟨c, ⟨x, hx, y, hy, hf, rfl⟩, rfl, rfl⟩
    exact ⟨List.fst_mem_of_mem_zipIdx hx, List.fst_mem_of_mem_zipIdx hy, hf⟩
  · rintro ⟨ha, hb, hf⟩
    obtain ⟨i, hi⟩ := List.mem_iff_getElem?.1 ha
    obtain ⟨j, hj⟩ := List.mem_iff_getElem?.1 hb
    exact ⟨_, ⟨(a, i), List.mk_mem_zipIdx_iff_getElem?.2 hi, (b, j),
      List.mk_mem_zipIdx_iff_getElem?.2 hj, hf, rfl⟩, rfl, rfl⟩

/-- The candidates of the plain double loop over the free leaves: every similarity is computed
anew. -/
def Leaves.plain (measure : String → String → Float) (task : Task) (p : Pairing) :
    List Candidate :=
  let srcs := task.src.leaves.filter fun a => !p.hasSrc a
  let dsts := task.dst.leaves.filter fun b => !p.hasDst b
  srcs.zipIdx.flatMap fun (a, i) =>
    dsts.zipIdx.filterMap fun (b, j) =>
      let x := measure (task.src.label a) (task.dst.label b)
      if task.src.sameKind task.dst a b && task.settings.leafThreshold < x then
        some ⟨a, b, .ofFloat x, i * dsts.length + j⟩
      else none

/-- The candidates of the plain double loop over the free leaves, with labels compared by the rules
for their kinds and every similarity computed anew. -/
def LabelAware.plain (comparer : LabelComparer) (task : Task) (p : Pairing) : List Candidate :=
  let s := task.settings.labelAware
  let srcs := task.src.leaves.filter fun a => !p.hasSrc a
  let dsts := task.dst.leaves.filter fun b => !p.hasDst b
  srcs.zipIdx.flatMap fun (a, i) =>
    dsts.zipIdx.filterMap fun (b, j) =>
      let x := comparer.compare .leaf (task.src.kind a) (task.src.label a) (task.dst.kind b)
        (task.dst.label b)
      if task.src.sameKind task.dst a b && !(x < s.leafThreshold) then
        some ⟨a, b, .ofFloat (leafScore s x (relativePosition task.src a)
          (relativePosition task.dst b)), i * dsts.length + j⟩
      else none

section Stages

variable (measure : String → String → Float) (comparer : LabelComparer) (task : Task) (p : Pairing)

/-- The score of two leaves by a measure of their labels. -/
def Leaves.score (_ b : NodeId) (label : String) : Option Score :=
  let x := measure label (task.dst.label b)
  if task.settings.leafThreshold < x then some (.ofFloat x) else none

/-- The scan for similar leaves judges a pair as if there were no memo. -/
lemma Leaves.transparent_scan :
    (Leaves.scan measure task p).Transparent (Leaves.score measure task) measure := by
  intro a b label memo h
  simp only [Leaves.scan, LeafScan.ofFree, Leaves.score]
  exact ⟨by rw [h.fst_fetch], h.snd_fetch _ _⟩

/-- For the scan for similar leaves, the plain double loop is the one written out.

**Proof sketch.** Pair by pair: both loops ask for the same kind and for a similarity above the
threshold. -/
lemma Leaves.plain_scan :
    (Leaves.scan measure task p).plain (Leaves.score measure task) =
      Leaves.plain measure task p := by
  refine List.flatMap_congr fun x _ => List.filterMap_congr fun y _ => ?_
  change (if task.src.sameKind task.dst x.1 y.1 = true then
    Option.map _ (Leaves.score measure task x.1 y.1 (task.src.label x.1)) else none) = _
  unfold Leaves.score
  by_cases hk : task.src.sameKind task.dst x.1 y.1 = true
  · by_cases hx : task.settings.leafThreshold <
        measure (task.src.label x.1) (task.dst.label y.1)
    · simp only [hk, hx, ↓reduceIte, decide_true, Bool.and_self, Option.map_some]
      rfl
    · simp only [hk, hx, ↓reduceIte, decide_false, Bool.and_false, Bool.false_eq_true,
        Option.map_none]
  · simp only [hk, ↓reduceIte, Bool.false_and, Bool.false_eq_true]

/-- The score of two leaves by the rules for their kinds and by their positions. -/
def LabelAware.score (a b : NodeId) (label : String) : Option Score :=
  let s := task.settings.labelAware
  let x := comparer.compare .leaf (task.src.kind a) label (task.dst.kind b) (task.dst.label b)
  if x < s.leafThreshold then none
  else some (.ofFloat (leafScore s x (relativePosition task.src a) (relativePosition task.dst b)))

/-- Comparing labels with a memo that agrees is comparing them without. -/
lemma LabelComparer.compareMemo_spec {memo : Memo}
    (h : memo.Agrees comparer.texts.similarity) (place : Place) (kind : Kind) (a : String)
    (kind' : Kind) (b : String) :
    (comparer.compareMemo place kind a kind' b memo).1 = comparer.compare place kind a kind' b ∧
      (comparer.compareMemo place kind a kind' b memo).2.Agrees comparer.texts.similarity := by
  unfold LabelComparer.compareMemo LabelComparer.compare
  by_cases hk : kind = kind'
  · simp only [hk, ↓reduceIte]
    cases hc : comparer.rules.comparison kind' with
    | text => exact ⟨h.fst_fetch a b, h.snd_fetch a b⟩
    | _ =>
      dsimp only
      exact ⟨rfl, h⟩
  · simp only [hk, ↓reduceIte]
    exact ⟨trivial, h⟩

/-- The label-aware scan judges a pair as if there were no memo. -/
lemma LabelAware.transparent_scan :
    (LabelAware.scan comparer task p).Transparent (LabelAware.score comparer task)
      comparer.texts.similarity := by
  intro a b label memo h
  obtain ⟨h1, h2⟩ := comparer.compareMemo_spec h .leaf (task.src.kind a) label (task.dst.kind b)
    (task.dst.label b)
  simp only [LabelAware.scan, LeafScan.ofFree, LabelAware.score]
  rw [h1]
  split
  · exact ⟨rfl, h2⟩
  · exact ⟨rfl, h2⟩

/-- For the label-aware scan, the plain double loop is the one written out.

**Proof sketch.** Pair by pair: both loops ask for the same kind and for a similarity that is not
below the threshold. -/
lemma LabelAware.plain_scan :
    (LabelAware.scan comparer task p).plain (LabelAware.score comparer task) =
      LabelAware.plain comparer task p := by
  refine List.flatMap_congr fun x _ => List.filterMap_congr fun y _ => ?_
  change (if task.src.sameKind task.dst x.1 y.1 = true then
    Option.map _ (LabelAware.score comparer task x.1 y.1 (task.src.label x.1)) else none) = _
  unfold LabelAware.score
  by_cases hk : task.src.sameKind task.dst x.1 y.1 = true
  · by_cases hx : comparer.compare .leaf (task.src.kind x.1) (task.src.label x.1)
        (task.dst.kind y.1) (task.dst.label y.1) < task.settings.labelAware.leafThreshold
    · simp only [hk, hx, ↓reduceIte, decide_true, Bool.not_true, Bool.and_false,
        Bool.false_eq_true, Option.map_none]
    · simp only [hk, hx, ↓reduceIte, decide_false, Bool.not_false, Bool.and_self, Option.map_some]
      rfl
  · simp only [hk, ↓reduceIte, Bool.false_and, Bool.false_eq_true]

/-- The same task, with the number of workers fixed. -/
def Task.withWorkers (task : Task) (w : Nat) : Task :=
  { task with settings := { task.settings with workers := some w } }

/-- The same task, with another number of threads at hand. -/
def Task.withThreads (task : Task) (n : Nat) : Task := { task with threads := n }

/-- A divided stage has at least one part. -/
lemma Task.one_le_shardCount : 1 ≤ task.shardCount := le_max_left 1 _

/-- A divided stage has as many parts as there are workers. -/
lemma Task.shardCount_withWorkers {w : Nat} (hw : 1 ≤ w) : (task.withWorkers w).shardCount = w := by
  change max 1 w = w
  omega

/-- The undivided stage for leaves chooses among what the plain double loop finds. -/
lemma Leaves.run_eq :
    Leaves.run task = (do
      chooseGreedily (Leaves.plain Leaves.measure task (← Matching.pairing))) := by
  have hwhole : ∀ p, Leaves.candidates task p = Leaves.plain Leaves.measure task p := by
    intro p
    rw [← Leaves.plain_scan]
    exact LeafScan.sequential_eq_plain _ (Leaves.transparent_scan Leaves.measure task p)
  simp only [Leaves.run, hwhole]

section Readable

variable {task} (hread : ∀ a, task.readLabel a = .ok (task.src.label a))

include hread

/-- If labels can be read, the parts of the scan for leaves find what the plain double loop does. -/
lemma Leaves.candidatesSharded_eq_plain :
    Leaves.candidatesSharded task p task.shardCount = .ok (Leaves.plain Leaves.measure task p) := by
  rw [← Leaves.plain_scan]
  exact LeafScan.sharded_eq_plain_of_read _ (Leaves.transparent_scan Leaves.measure task p)
    task.one_le_shardCount hread

/-- If labels can be read, the divided stage for leaves does what the undivided one does. -/
lemma Leaves.runSharded_eq_run : Leaves.runSharded task = Leaves.run task := by
  rw [Leaves.run_eq]
  unfold Leaves.runSharded
  simp only [Leaves.candidatesSharded_eq_plain _ hread]

/-- If labels can be read, the parts of the label-aware scan find what the plain double loop
does. -/
lemma LabelAware.sharded_scan_eq_plain :
    (LabelAware.scan (LabelAware.comparer task) task p).sharded task.readLabel task.shardCount =
      .ok (LabelAware.plain (LabelAware.comparer task) task p) := by
  rw [← LabelAware.plain_scan]
  exact LeafScan.sharded_eq_plain_of_read _
    (LabelAware.transparent_scan (LabelAware.comparer task) task p) task.one_le_shardCount hread

/-- If labels can be read, the label-aware stage starts from the leaves that the plain double loop
finds. -/
lemma LabelAware.run_eq :
    LabelAware.run task = (do
      chooseGreedily (LabelAware.plain (LabelAware.comparer task) task (← Matching.pairing))
      LabelAware.linkSingleClass task
      (List.range' 1 (task.src.height task.src.root)).forM (LabelAware.linkInner task)
      LabelAware.linkRoots task) := by
  unfold LabelAware.run LabelAware.linkLeaves
  simp only [LabelAware.sharded_scan_eq_plain _ hread]
  rfl

end Readable

end Stages

/-- **Sharding changes nothing.**  For every measure of labels and every number of parts, the two
scans of leaves find in parts what they find in one go, in the same order and with the same scores
and ids, and that is what the plain double loop without a memo finds.  Hence the divided stage for
leaves does what the undivided one does, and the label-aware stage does the same for all numbers of
workers; and if it is left to the number of threads at hand, however many there are, nothing changes
either.

**Proof sketch.** The scans are transparent, so that dividing them finds what the plain loops find,
by `sharded_eq_plain`.  Labels of readable tasks can all be read.  Hence the divided stage reads as
the undivided one, and the label-aware stage as a run in which the number of parts no longer
occurs. -/
theorem sharding_preserves_candidates_and_stages (src dst : Tree) (settings : Settings)
    (rules : LabelRules) (p : Pairing) (measure : String → String → Float)
    (comparer : LabelComparer) {w : Nat} (hw : 1 ≤ w) :
    let task : Task := { src, dst, settings, rules }
    ((Leaves.scan measure task p).sharded task.readLabel w =
        .ok (Leaves.scan measure task p).sequential ∧
      (Leaves.scan measure task p).sequential = Leaves.plain measure task p) ∧
    ((LabelAware.scan comparer task p).sharded task.readLabel w =
        .ok (LabelAware.scan comparer task p).sequential ∧
      (LabelAware.scan comparer task p).sequential = LabelAware.plain comparer task p) ∧
    Stage.leavesSharded.perform (task.withWorkers w) p = Stage.leaves.perform task p ∧
    (∀ v, 1 ≤ v →
      Stage.labelAware.perform (task.withWorkers v) p =
        Stage.labelAware.perform (task.withWorkers w) p) ∧
    ∀ n, Stage.leavesSharded.perform (task.withThreads n) p = Stage.leaves.perform task p ∧
      Stage.labelAware.perform (task.withThreads n) p =
        Stage.labelAware.perform (task.withWorkers w) p := by
  intro task
  have hleaves := (Leaves.scan measure task p).sharded_eq_plain
    (Leaves.transparent_scan measure task p) hw
  have hleaves' := (Leaves.scan measure task p).sequential_eq_plain
    (Leaves.transparent_scan measure task p)
  have haware := (LabelAware.scan comparer task p).sharded_eq_plain
    (LabelAware.transparent_scan comparer task p) hw
  have haware' := (LabelAware.scan comparer task p).sequential_eq_plain
    (LabelAware.transparent_scan comparer task p)
  have hdivided : ∀ task' : Task, (∀ a, task'.readLabel a = .ok (task'.src.label a)) →
      Leaves.run task' = Leaves.run task →
      Stage.leavesSharded.perform task' p = Stage.leaves.perform task p := by
    intro task' hread hrun
    rw [Stage.perform, Stage.perform, Stage.run, Stage.run, Leaves.runSharded_eq_run hread, hrun]
  have hrun : LabelAware.run task = _ := LabelAware.run_eq fun _ => rfl
  have hworkers : ∀ v, LabelAware.run (task.withWorkers v) = LabelAware.run task := fun v =>
    (LabelAware.run_eq fun _ => rfl).trans hrun.symm
  have hthreads : ∀ n, LabelAware.run (task.withThreads n) = LabelAware.run task := fun n =>
    (LabelAware.run_eq fun _ => rfl).trans hrun.symm
  refine ⟨⟨hleaves.trans (by rw [hleaves']), hleaves'.trans (Leaves.plain_scan ..)⟩,
    ⟨haware.trans (by rw [haware']), haware'.trans (LabelAware.plain_scan ..)⟩,
    hdivided _ (fun _ => rfl) rfl, fun v _ => ?_, fun n => ⟨hdivided _ (fun _ => rfl) rfl, ?_⟩⟩
  · rw [Stage.perform, Stage.perform, Stage.run, Stage.run, hworkers, hworkers]
  · rw [Stage.perform, Stage.perform, Stage.run, Stage.run, hthreads, hworkers]

/-- Two leaves against three, scanned in three parts, and linked by two workers, by three, or by as
many as there are threads, of which there are four. -/
theorem sharding_of_two_leaves_against_three :
    let src : Tree := .ofContents ⟨(⟨0⟩, ""), .node (⟨1⟩, "alpha") .nil (.leaf (⟨1⟩, "beta"))⟩
    let dst : Tree := .ofContents
      ⟨(⟨0⟩, ""), .node (⟨1⟩, "beta") .nil (.node (⟨2⟩, "beta") .nil (.leaf (⟨1⟩, "alphas")))⟩
    let task : Task := { src, dst }
    1 ≤ 3 ∧ 1 ≤ 2 ∧
      (Leaves.scan Leaves.measure task .empty).sharded task.readLabel 3 =
        .ok (Leaves.plain Leaves.measure task .empty) ∧
      (LabelAware.scan { rules := {} } task .empty).sharded task.readLabel 3 =
        .ok (LabelAware.plain { rules := {} } task .empty) ∧
      Stage.leavesSharded.perform (task.withWorkers 3) .empty = Stage.leaves.perform task .empty ∧
      Stage.labelAware.perform (task.withWorkers 2) .empty =
        Stage.labelAware.perform (task.withWorkers 3) .empty ∧
      Stage.labelAware.perform (task.withThreads 4) .empty =
        Stage.labelAware.perform (task.withWorkers 3) .empty := by
  intro src dst task
  obtain ⟨⟨h1, h2⟩, ⟨h3, h4⟩, h5, h6, h7⟩ := sharding_preserves_candidates_and_stages src dst {} {}
    .empty Leaves.measure { rules := {} } (show 1 ≤ 3 by decide)
  exact ⟨by decide, by decide, h1.trans (congrArg _ h2), h3.trans (congrArg _ h4), h5,
    h6 2 (by decide), (h7 4).2⟩

end TreeMatching
