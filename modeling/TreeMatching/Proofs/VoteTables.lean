import Mathlib.Data.List.Dedup
import Mathlib.Data.List.Induction
import Mathlib.Data.List.Nodup
import Mathlib.Data.List.Perm.Basic
import TreeMatching.Proofs.Runs
import TreeMatching.Proofs.TreeTables

set_option autoImplicit false

/-!
# Votes in any order

The votes for parents are counted in a table of tables: under each parent stands a table of the
nodes that are voted for, with their counts.  A table has no order of its own, and there are two
places where the stage could depend on the order in which entries are looked at.  The search for a
clear winner goes through the counts of a parent once, with the best entry so far and the number of
its ties; what it finds depends on the counts alone.  And the parents are settled one after the
other, but they are sorted before.

## Main definitions

* `ParentVote.Lead.Leads`, `ParentVote.Lead.After` — what a lead says about the entries seen so far.
* `ParentVote.Table`, `ParentVote.Table.Lists` — a table, and its entries in some order.
* `ParentVote.canvass` — the table of tables in which votes are counted.
* `ParentVote.Table.ListsAll` — all entries of a table of tables in some order.

## Main results

* `ParentVote.Lead.After.next`, `ParentVote.Lead.After.foldl` — taking one more entry into account,
  and all entries of a list.
* `ParentVote.Table.Lists.uniqueMax_eq_some_iff`, `ParentVote.Table.Lists.uniqueMax_eq_none_iff` —
  when there is a clear winner and when there is none.
* `ParentVote.lists_tallyFor` — the counts of a parent are those in the table.
* `ParentVote.Table.ListsAll.map_fst_eq_parents` — there is one way only to sort the parents.
* `votes_can_be_counted_in_any_order` — the winners and the outcome of the stage do not depend on
  the order of the tables.
-/

namespace TreeMatching

namespace ParentVote

/-! ### The search for a clear winner -/

namespace Lead

variable {l : Lead} {lead : Option Lead} {seen entries : List (NodeId × Nat)} {e : NodeId × Nat}

/-- The lead is one of the entries seen, none of them has a larger count, and there are as many ties
as further entries with the same count. -/
structure Leads (l : Lead) (seen : List (NodeId × Nat)) : Prop where
  mem : l.best ∈ seen
  le : ∀ e ∈ seen, e.2 ≤ l.best.2
  shared : seen.countP (fun e => e.2 == l.best.2) = l.ties + 1

/-- What is known after some entries have been seen: there is a lead unless there were none. -/
def After (seen : List (NodeId × Nat)) : Option Lead → Prop
  | none => seen = []
  | some l => l.Leads seen

/-- A single entry leads, without ties. -/
lemma leads_singleton (e : NodeId × Nat) : Leads ⟨e, 0⟩ [e] where
  mem := List.mem_singleton_self e
  le x hx := by rw [List.mem_singleton.1 hx]
  shared := by simp

/-- An entry with a smaller count changes nothing. -/
lemma Leads.append_of_lt (h : l.Leads seen) (hlt : e.2 < l.best.2) : l.Leads (seen ++ [e]) where
  mem := List.mem_append_left _ h.mem
  le := List.forall_mem_append.2 ⟨h.le, List.forall_mem_singleton.2 hlt.le⟩
  shared := by simp [h.shared, hlt.ne]

/-- An entry with the same count is one more tie. -/
lemma Leads.append_of_eq (h : l.Leads seen) (heq : e.2 = l.best.2) :
    Leads { l with ties := l.ties + 1 } (seen ++ [e]) where
  mem := List.mem_append_left _ h.mem
  le := List.forall_mem_append.2 ⟨h.le, List.forall_mem_singleton.2 heq.le⟩
  shared := by simp [h.shared, heq]

/-- An entry with a larger count takes the lead, and nothing that was seen before is a tie. -/
lemma Leads.append_of_gt (h : l.Leads seen) (hgt : l.best.2 < e.2) :
    Leads ⟨e, 0⟩ (seen ++ [e]) where
  mem := List.mem_append_right _ (List.mem_singleton_self e)
  le := List.forall_mem_append.2
    ⟨fun x hx => (h.le x hx).trans hgt.le, List.forall_mem_singleton.2 le_rfl⟩
  shared := by
    have hnone : seen.countP (fun x => x.2 == e.2) = 0 := by
      refine List.countP_eq_zero.2 fun x hx heq => ?_
      exact absurd (h.le x hx) (by rw [beq_iff_eq.1 heq]; exact hgt.not_ge)
    simp [hnone]

/-- **One more entry is taken into account.**

**Proof sketch.** The entry is larger than the lead, as large, or smaller, and there is a lemma for
each of these cases. -/
lemma After.next (h : After seen lead) (e : NodeId × Nat) : After (seen ++ [e]) (next lead e) := by
  cases lead with
  | none =>
    obtain rfl : seen = [] := h
    exact leads_singleton e
  | some l =>
    have hl : l.Leads seen := h
    rw [Lead.next]
    split
    · next hlt => exact hl.append_of_lt hlt
    · next hge =>
      split
      · next heq => exact hl.append_of_eq heq
      · next hne => exact hl.append_of_gt (by omega)

/-- **All further entries are taken into account**, one after the other. -/
theorem After.foldl (h : After seen lead) (entries : List (NodeId × Nat)) :
    After (seen ++ entries) (entries.foldl Lead.next lead) := by
  induction entries generalizing seen lead with
  | nil => rwa [List.append_nil]
  | cons e entries ih =>
    have hrest := ih (h.next e)
    rwa [List.append_assoc] at hrest

/-- There are no ties exactly when all other entries have smaller counts.

**Proof sketch.** Of the entries with the largest count one is the lead itself, and the ties are the
others.  So there are no ties exactly if no other entry has this count. -/
lemma Leads.ties_eq_zero_iff (h : l.Leads entries) (hnodup : entries.Nodup) :
    l.ties = 0 ↔ ∀ e ∈ entries, e ≠ l.best → e.2 < l.best.2 := by
  -- one of the entries that share the count is the lead itself, the ties are the others
  have hties : (entries.erase l.best).countP (fun e => e.2 == l.best.2) = l.ties := by
    have hcount := h.shared
    rw [(List.perm_cons_erase h.mem).countP_eq, List.countP_cons_of_pos (by simp)] at hcount
    omega
  rw [← hties, List.countP_eq_zero]
  constructor
  · intro hnone e he hne
    have hshare := hnone e (hnodup.mem_erase_iff.2 ⟨hne, he⟩)
    exact lt_of_le_of_ne (h.le e he) (by simpa using hshare)
  · intro hlt e he
    obtain ⟨hne, he⟩ := hnodup.mem_erase_iff.1 he
    simpa using (hlt e he hne).ne

end Lead

section UniqueMax

variable {entries : List (NodeId × Nat)} {x : NodeId × Nat}

/-- The search fails if there are no entries, and otherwise the ties of the lead decide. -/
lemma uniqueMax_cases (entries : List (NodeId × Nat)) :
    (entries = [] ∧ uniqueMax entries = none) ∨ ∃ l : Lead, l.Leads entries ∧
      uniqueMax entries = if l.ties = 0 then some l.best else none := by
  have h : Lead.After entries (entries.foldl Lead.next none) :=
    (show Lead.After [] none from rfl).foldl entries
  rw [uniqueMax]
  cases hlead : entries.foldl Lead.next none with
  | none =>
    rw [hlead] at h
    exact .inl ⟨h, rfl⟩
  | some l =>
    rw [hlead] at h
    exact .inr ⟨l, h, rfl⟩

/-- The winner is one of the entries. -/
lemma mem_of_uniqueMax (h : uniqueMax entries = some x) : x ∈ entries := by
  rcases uniqueMax_cases entries with ⟨-, hnone⟩ | ⟨l, hl, hmax⟩
  · cases hnone.symm.trans h
  · rw [hmax] at h
    split at h
    · cases h
      exact hl.mem
    · cases h

/-- **The winner is the entry with a larger count than all others.**

**Proof sketch.** The search ends with an entry of the largest count, and it is the winner exactly
if there are no ties.  Conversely an entry with a larger count than all others is the one with which
the search ends. -/
lemma uniqueMax_eq_some_iff (hnodup : entries.Nodup) :
    uniqueMax entries = some x ↔ x ∈ entries ∧ ∀ e ∈ entries, e ≠ x → e.2 < x.2 := by
  rcases uniqueMax_cases entries with ⟨rfl, hnone⟩ | ⟨l, hl, hmax⟩
  · simp [hnone]
  · rw [hmax, Option.ite_none_right_eq_some, hl.ties_eq_zero_iff hnodup, Option.some_inj]
    constructor
    · rintro ⟨hlt, rfl⟩
      exact ⟨hl.mem, hlt⟩
    · rintro ⟨hx, hlt⟩
      -- the lead is not smaller than the winner, so it is the winner
      obtain rfl : l.best = x := by
        by_contra hne
        exact (hl.le x hx).not_gt (hlt l.best hl.mem hne)
      exact ⟨hlt, rfl⟩

/-- **There is no winner exactly when there are no entries or two of them share the largest
count.**

**Proof sketch.** The search ends with an entry of the largest count and with the number of others
that tie with it.  There is no winner exactly if this number is positive, and then one of the others
has the same count. -/
lemma uniqueMax_eq_none_iff (hnodup : entries.Nodup) :
    uniqueMax entries = none ↔ entries = [] ∨
      ∃ x ∈ entries, ∃ y ∈ entries, x ≠ y ∧ y.2 = x.2 ∧ ∀ e ∈ entries, e.2 ≤ x.2 := by
  constructor
  · intro hnone
    rcases uniqueMax_cases entries with ⟨rfl, -⟩ | ⟨l, hl, hmax⟩
    · exact .inl rfl
    · rw [hmax, ite_eq_right_iff] at hnone
      have hties : ¬ ∀ e ∈ entries, e ≠ l.best → e.2 < l.best.2 := fun hlt =>
        Option.some_ne_none _ (hnone ((hl.ties_eq_zero_iff hnodup).2 hlt))
      push Not at hties
      obtain ⟨y, hy, hne, hge⟩ := hties
      exact .inr ⟨l.best, hl.mem, y, hy, hne.symm, (hl.le y hy).antisymm hge, hl.le⟩
  · rintro (rfl | ⟨x, hx, y, hy, hne, heq, hle⟩)
    · rfl
    · rw [Option.eq_none_iff_forall_ne_some]
      intro z hz
      obtain ⟨hz, hlt⟩ := (uniqueMax_eq_some_iff hnodup).1 hz
      -- at most one of the two is the winner, and the other one is as large
      by_cases hxz : x = z
      · subst hxz
        exact (hlt y hy hne.symm).ne heq
      · exact (hlt x hx hxz).not_ge (hle z hz)

end UniqueMax

/-! ### Tables and the orders of their entries -/

/-- A table: what stands under each key, if anything does. -/
def Table (β : Type) : Type := NodeId → Option β

namespace Table

variable {β : Type} {t : Table β} {entries order : List (NodeId × β)}

/-- The table without entries. -/
def empty : Table β := fun _ => none

/-- Changes what stands under a key; if nothing does, `init` is put there before. -/
def change (t : Table β) (key : NodeId) (init : β) (f : β → β) : Table β :=
  fun k => if key = k then some (f ((t key).getD init)) else t k

/-- The list goes through the table: it has every entry of the table and no other, and no key
twice. -/
structure Lists (t : Table β) (entries : List (NodeId × β)) : Prop where
  nodup_keys : (entries.map Prod.fst).Nodup
  mem_iff : ∀ k c, (k, c) ∈ entries ↔ t k = some c

/-- No entry is listed twice. -/
lemma Lists.nodup (h : t.Lists entries) : entries.Nodup := h.nodup_keys.of_map

/-- Two lists go through the same table exactly when one is a rearrangement of the other. -/
lemma Lists.lists_iff_perm (h : t.Lists entries) : t.Lists order ↔ order.Perm entries := by
  constructor
  · intro h'
    refine (List.perm_ext_iff_of_nodup h'.nodup h.nodup).2 fun e => ?_
    rw [h'.mem_iff, h.mem_iff]
  · intro hperm
    refine ⟨(hperm.map Prod.fst).nodup_iff.2 h.nodup_keys, fun k c => ?_⟩
    rw [hperm.mem_iff, h.mem_iff]

/-- The empty list goes through the table without entries. -/
lemma lists_empty : (empty : Table β).Lists [] := ⟨List.nodup_nil, by simp [empty]⟩

/-- Looking up a key in a list, entry by entry. -/
lemma lookup_cons_eq_ite (e : NodeId × β) (entries : List (NodeId × β)) (k : NodeId) :
    (e :: entries).lookup k = if e.1 = k then some e.2 else entries.lookup k := by
  rw [List.lookup_cons]
  by_cases hk : k = e.1
  · simp [hk]
  · simp [beq_eq_false_iff_ne.2 hk, Ne.symm hk]

/-- A list without repeated keys goes through the table in which its entries are looked up. -/
lemma lists_lookup (h : (entries.map Prod.fst).Nodup) :
    Lists (fun k => entries.lookup k) entries := by
  refine ⟨h, fun k c => ?_⟩
  induction entries with
  | nil => simp
  | cons e entries ih =>
    obtain ⟨hfresh, h⟩ := List.nodup_cons.1 h
    rw [List.mem_cons, lookup_cons_eq_ite]
    split
    · next hk =>
      -- the key does not occur again
      subst hk
      have hrest : (e.1, c) ∉ entries := fun hc => hfresh (List.mem_map.2 ⟨_, hc, rfl⟩)
      simp [hrest, Prod.ext_iff, eq_comm]
    · next hk => simp [← ih h, Prod.ext_iff, Ne.symm hk]

/-- Looking up a key in a list that goes through a table gives what stands under it. -/
lemma Lists.lookup_eq (h : t.Lists entries) (k : NodeId) : entries.lookup k = t k :=
  Option.ext fun c => by rw [← h.mem_iff, (lists_lookup h.nodup_keys).mem_iff]

section UniqueMax

variable {t : Table Nat} {entries order : List (NodeId × Nat)} {k c : Nat}

/-- **There is a clear winner exactly when one key has a larger count than all others.** -/
theorem Lists.uniqueMax_eq_some_iff (h : t.Lists entries) :
    uniqueMax entries = some (k, c) ↔
      t k = some c ∧ ∀ k' c', t k' = some c' → k' ≠ k → c' < c := by
  rw [ParentVote.uniqueMax_eq_some_iff h.nodup, h.mem_iff]
  refine and_congr_right fun hk => ⟨fun hlt k' c' hk' hne => ?_, fun hlt e he hne => ?_⟩
  · exact hlt (k', c') ((h.mem_iff k' c').2 hk') fun heq => hne (congrArg Prod.fst heq)
  · have he' : t e.1 = some e.2 := (h.mem_iff e.1 e.2).1 he
    refine hlt e.1 e.2 he' fun heq => hne ?_
    -- a key has one count only
    rw [heq, hk, Option.some_inj] at he'
    exact Prod.ext heq he'.symm

/-- **There is no clear winner exactly when the table is empty or two keys share the largest
count.**

**Proof sketch.** This is `uniqueMax_eq_none_iff`, with entries of the list read as values of the
table. -/
theorem Lists.uniqueMax_eq_none_iff (h : t.Lists entries) :
    uniqueMax entries = none ↔ (∀ k, t k = none) ∨
      ∃ k₁ k₂ c, k₁ ≠ k₂ ∧ t k₁ = some c ∧ t k₂ = some c ∧ ∀ k' c', t k' = some c' → c' ≤ c := by
  rw [ParentVote.uniqueMax_eq_none_iff h.nodup]
  refine or_congr ?_ ?_
  · simp only [List.eq_nil_iff_forall_not_mem, Prod.forall, h.mem_iff,
      Option.eq_none_iff_forall_ne_some, ne_eq]
  · constructor
    · rintro ⟨⟨k₁, c⟩, hx, ⟨k₂, _⟩, hy, hne, rfl, hle⟩
      refine ⟨k₁, k₂, _, fun hk => hne (by rw [hk]), (h.mem_iff _ _).1 hx, (h.mem_iff _ _).1 hy, ?_⟩
      exact fun k' c' hk' => hle (k', c') ((h.mem_iff k' c').2 hk')
    · rintro ⟨k₁, k₂, c, hne, hk₁, hk₂, hle⟩
      refine ⟨(k₁, c), (h.mem_iff _ _).2 hk₁, (k₂, c), (h.mem_iff _ _).2 hk₂,
        fun heq => hne (congrArg Prod.fst heq), rfl, fun e he => ?_⟩
      exact hle e.1 e.2 ((h.mem_iff e.1 e.2).1 he)

/-- The clear winner does not depend on the order of the entries. -/
lemma Lists.uniqueMax_eq (h : t.Lists entries) (h' : t.Lists order) :
    uniqueMax order = uniqueMax entries :=
  Option.ext fun x => by rw [h.uniqueMax_eq_some_iff, h'.uniqueMax_eq_some_iff]

end UniqueMax

end Table

/-! ### Counting votes -/

/-- The table in which the votes are counted: under each parent for which there is a vote, the
counts of the nodes. -/
def canvass (ballots : List Pair) : Table (Table Nat) :=
  ballots.foldl (fun t x => t.change x.src .empty fun counts => counts.change x.dst 0 (· + 1))
    .empty

section Counting

variable {counts : List (NodeId × Nat)} {t : Table Nat} {node k : NodeId}

/-- A vote for a node raises its count by one, and leaves all other counts alone.

**Proof sketch.** Induction on the counts.  The first entry is the one of the node, and then its
count is raised, or it is another one, and then it is passed over by the vote as well as by the
look-up. -/
lemma lookup_addVote : (addVote counts node).lookup k =
    if node = k then some ((counts.lookup node).getD 0 + 1) else counts.lookup k := by
  induction counts with
  | nil => exact Table.lookup_cons_eq_ite (node, 1) [] k
  | cons x counts ih =>
    rw [addVote]
    split
    · next hx =>
      subst hx
      simp only [Table.lookup_cons_eq_ite, if_pos, Option.getD_some]
      split_ifs <;> rfl
    · next hx =>
      simp only [Table.lookup_cons_eq_ite, ih, if_neg hx]
      split_ifs with hk hnode
      · exact absurd (hk.trans hnode.symm) hx
      all_goals rfl

/-- A vote adds its node to the keys, if it is not among them. -/
lemma map_fst_addVote : (addVote counts node).map Prod.fst =
    if node ∈ counts.map Prod.fst then counts.map Prod.fst else counts.map Prod.fst ++ [node] := by
  induction counts with
  | nil => rfl
  | cons x counts ih =>
    rw [addVote]
    split
    · next hx => simp [hx]
    · next hx =>
      simp only [List.map_cons, ih, List.mem_cons, Ne.symm hx, false_or]
      split <;> rfl

/-- **One more vote is counted.**

**Proof sketch.** The keys stay distinct, and the look-up of every key changes as the table does. -/
lemma Table.Lists.addVote (h : t.Lists counts) (node : NodeId) :
    (t.change node 0 (· + 1)).Lists (addVote counts node) := by
  have hnodup : ((ParentVote.addVote counts node).map Prod.fst).Nodup := by
    rw [map_fst_addVote]
    split
    · exact h.nodup_keys
    · next hnew => simpa using h.nodup_keys.concat hnew
  have htable : t.change node 0 (· + 1) = fun k => (ParentVote.addVote counts node).lookup k := by
    funext k
    rw [lookup_addVote, h.lookup_eq, h.lookup_eq, Table.change]
  rw [htable]
  exact lists_lookup hnodup

/-- One more ballot changes one count for one parent. -/
lemma canvass_append_singleton (ballots : List Pair) (x : Pair) :
    canvass (ballots ++ [x]) =
      (canvass ballots).change x.src .empty fun counts => counts.change x.dst 0 (· + 1) := by
  rw [canvass, List.foldl_append]
  rfl

/-- One more ballot changes the tally for its own parent only. -/
lemma tallyFor_append_singleton (ballots : List Pair) (x : Pair) (parent : NodeId) :
    tallyFor (ballots ++ [x]) parent = if x.src = parent then
      addVote (tallyFor ballots parent) x.dst else tallyFor ballots parent := by
  rw [tallyFor, List.filter_append, List.foldl_append]
  by_cases hx : x.src = parent
  · simp [hx, tallyFor]
  · simp [hx, tallyFor]

/-- **All votes are counted**: the counts of a parent go through what stands under it in the table,
where nothing stands for no votes.

**Proof sketch.** Induction along the ballots, from their end.  A vote for the parent is counted by
one more vote for the node, and other votes do not concern the parent. -/
theorem lists_tallyFor (ballots : List Pair) (parent : NodeId) :
    ((canvass ballots parent).getD .empty).Lists (tallyFor ballots parent) := by
  -- the table is filled from the front, so the last vote is the next one
  induction ballots using List.reverseRecOn with
  | nil => exact Table.lists_empty
  | append_singleton ballots x ih =>
    rw [canvass_append_singleton, tallyFor_append_singleton, Table.change]
    split
    · next hx =>
      subst hx
      exact ih.addVote x.dst
    · exact ih

/-- Something stands under the parents for which there are votes. -/
lemma isSome_canvass_iff (ballots : List Pair) (parent : NodeId) :
    (canvass ballots parent).isSome = true ↔ parent ∈ ballots.map Pair.src := by
  induction ballots using List.reverseRecOn with
  | nil => simp [canvass, Table.empty]
  | append_singleton ballots x ih =>
    rw [canvass_append_singleton, Table.change, List.map_append, List.mem_append, ← ih]
    split
    · next hx => simp [hx]
    · next hx => simp [Ne.symm hx]

end Counting

/-! ### Going through all votes -/

/-- The rows go through a table of tables: the tables under all keys, each once and with its entries
in some order. -/
structure Table.ListsAll (t : Table (Table Nat)) (rows : List (NodeId × List (NodeId × Nat))) :
    Prop where
  nodup_keys : (rows.map Prod.fst).Nodup
  mem_keys_iff : ∀ k, k ∈ rows.map Prod.fst ↔ (t k).isSome = true
  lists : ∀ row ∈ rows, ∃ counts, t row.1 = some counts ∧ counts.Lists row.2

/-- It does not matter in which order the rows are listed. -/
lemma Table.ListsAll.perm {t : Table (Table Nat)} {rows order : List (NodeId × List (NodeId × Nat))}
    (h : t.ListsAll rows) (hperm : order.Perm rows) : t.ListsAll order where
  nodup_keys := (hperm.map Prod.fst).nodup_iff.2 h.nodup_keys
  mem_keys_iff k := by rw [(hperm.map Prod.fst).mem_iff, h.mem_keys_iff]
  lists row hrow := h.lists row (hperm.mem_iff.1 hrow)

section Rows

variable {task : Task} {p : Pairing} {ballots : List Pair}
  {rows : List (NodeId × List (NodeId × Nat))}

/-- Under a parent with votes, the lists that go through its counts are the rearrangements of its
tally. -/
lemma lists_iff_perm_tallyFor {parent : NodeId} {counts : Table Nat} {entries : List (NodeId × Nat)}
    (h : canvass ballots parent = some counts) :
    counts.Lists entries ↔ entries.Perm (tallyFor ballots parent) := by
  have htally := lists_tallyFor ballots parent
  rw [h] at htally
  exact htally.lists_iff_perm

/-- The rows that go through the votes are the tallies of the parents with votes, rearranged among
each other and inside.

**Proof sketch.** The keys of the rows are the parents with votes, each once, hence a rearrangement
of them.  That a row lists the counts of its parent means that it is a rearrangement of the
tally. -/
lemma listsAll_canvass_iff : (canvass ballots).ListsAll rows ↔
    (rows.map Prod.fst).Perm (ballots.map Pair.src).dedup ∧
      ∀ row ∈ rows, row.2.Perm (tallyFor ballots row.1) := by
  constructor
  · intro h
    refine ⟨?_, fun row hrow => ?_⟩
    · refine (List.perm_ext_iff_of_nodup h.nodup_keys (List.nodup_dedup _)).2 fun k => ?_
      rw [h.mem_keys_iff, isSome_canvass_iff, List.mem_dedup]
    · obtain ⟨counts, hcounts, hlists⟩ := h.lists row hrow
      exact (lists_iff_perm_tallyFor hcounts).1 hlists
  · rintro ⟨hkeys, hperm⟩
    have hmem : ∀ k, k ∈ rows.map Prod.fst ↔ (canvass ballots k).isSome = true := fun k => by
      rw [hkeys.mem_iff, List.mem_dedup, isSome_canvass_iff]
    refine ⟨hkeys.nodup_iff.2 (List.nodup_dedup _), hmem, fun row hrow => ?_⟩
    obtain ⟨counts, hcounts⟩ := Option.isSome_iff_exists.1 ((hmem _).1 (List.mem_map_of_mem hrow))
    exact ⟨counts, hcounts, (lists_iff_perm_tallyFor hcounts).2 (hperm row hrow)⟩

/-- The parents that are settled are those with votes.

**Proof sketch.** A vote is for the parent of a node, and this is a node of the tree, so that it is
among the numbers that are looked through. -/
lemma mem_parents_votes_iff {n : NodeId} :
    n ∈ parents task (votes task p) ↔ n ∈ (votes task p).map Pair.src := by
  rw [parents, List.mem_filter]
  constructor
  · rintro ⟨-, hn⟩
    obtain ⟨x, hx, hsrc⟩ := List.any_eq_true.1 hn
    exact List.mem_map.2 ⟨x, hx, beq_iff_eq.1 hsrc⟩
  · intro hn
    obtain ⟨x, hx, rfl⟩ := List.mem_map.1 hn
    refine ⟨?_, List.any_eq_true.2 ⟨x, hx, beq_self_eq_true _⟩⟩
    -- a vote is for the parent of a node, and that is a node of the tree
    simp only [votes, List.mem_filterMap, Option.bind_eq_bind, Option.bind_eq_some_iff] at hx
    obtain ⟨y, -, a, ha, b, -, hx⟩ := hx
    cases hx
    have hnode := Tree.mem_preOrder_iff.1 (Tree.mem_preOrder_of_parent? ha)
    exact List.mem_range'_1.2 ⟨hnode.1, Nat.lt_one_add_iff.2 hnode.2⟩

/-- **There is one way only to sort the parents**: in rows that are sorted by them, they come in the
order in which they are settled. -/
lemma Table.ListsAll.map_fst_eq_parents (h : (canvass (votes task p)).ListsAll rows)
    (hsorted : rows.Pairwise fun x y => x.1 ≤ y.1) :
    rows.map Prod.fst = parents task (votes task p) := by
  have hparents : (parents task (votes task p)).Pairwise (· < ·) :=
    List.Pairwise.filter _ List.pairwise_lt_range'
  have hperm : (rows.map Prod.fst).Perm (parents task (votes task p)) := by
    refine (List.perm_ext_iff_of_nodup h.nodup_keys hparents.nodup).2 fun n => ?_
    rw [h.mem_keys_iff, isSome_canvass_iff, mem_parents_votes_iff]
  refine hperm.eq_of_pairwise ?_ (List.pairwise_map.2 hsorted) (hparents.imp le_of_lt)
  exact fun a b _ _ => le_antisymm

/-- Settling a parent depends on the winner only. -/
lemma settle_congr {counts counts' : List (NodeId × Nat)} (h : uniqueMax counts = uniqueMax counts')
    (parent : NodeId) : settle task parent counts = settle task parent counts' := by
  simp only [settle, winner?, h]

/-- **Settling the rows in order is what the stage does.** -/
lemma Table.ListsAll.forM_settle (h : (canvass (votes task p)).ListsAll rows)
    (hsorted : rows.Pairwise fun x y => x.1 ≤ y.1) :
    rows.forM (fun row => settle task row.1 row.2) =
      (parents task (votes task p)).forM fun parent =>
        settle task parent (tallyFor (votes task p) parent) := by
  have hrow : ∀ row ∈ rows, settle task row.1 row.2 = List.forM [row.1] fun parent =>
      settle task parent (tallyFor (votes task p) parent) := by
    intro row hrow
    have htally := lists_tallyFor (votes task p) row.1
    have hlists := htally.lists_iff_perm.2 ((listsAll_canvass_iff.1 h).2 row hrow)
    rw [settle_congr (htally.uniqueMax_eq hlists)]
    simp
  rw [Matching.forM_eq_forM_flatMap hrow, ← h.map_fst_eq_parents hsorted, List.map_eq_flatMap]

end Rows

end ParentVote

open ParentVote

/-- **Votes can be counted in any order.**  In whatever order the entries of a table of counts are
gone through, the search finds a key with its count exactly when all other keys have smaller
counts, and it finds nothing exactly when the table is empty or two keys share the largest count.
In whatever order the parents and their counts are taken from the table of all votes, once they are
sorted by the parents, settling them has the outcome of the stage. -/
theorem votes_can_be_counted_in_any_order :
    (∀ (t : Table Nat) (entries : List (NodeId × Nat)), t.Lists entries →
      (∀ k c, uniqueMax entries = some (k, c) ↔
        t k = some c ∧ ∀ k' c', t k' = some c' → k' ≠ k → c' < c) ∧
      (uniqueMax entries = none ↔ (∀ k, t k = none) ∨
        ∃ k₁ k₂ c, k₁ ≠ k₂ ∧ t k₁ = some c ∧ t k₂ = some c ∧ ∀ k' c', t k' = some c' → c' ≤ c)) ∧
    ∀ (task : Task) (p : Pairing) (rows sorted : List (NodeId × List (NodeId × Nat))),
      (canvass (votes task p)).ListsAll rows → sorted.Perm rows →
      sorted.Pairwise (fun x y => x.1 ≤ y.1) →
      Matching.perform (sorted.forM fun row => settle task row.1 row.2) p =
        Stage.parentVote.perform task p := by
  refine ⟨fun t entries h => ⟨fun k c => h.uniqueMax_eq_some_iff, h.uniqueMax_eq_none_iff⟩, ?_⟩
  intro task p rows sorted hrows hperm hsorted
  rw [(hrows.perm hperm).forM_settle hsorted]
  rfl

/-- A block has three values, of which the first votes for another node than the other two.  The
counts are listed with the winner first, although its votes come last, and the parents are listed
backwards; still the block is moved to where two of its values are. -/
theorem block_wins_votes_listed_backwards :
    let src : Tree := .ofContents ⟨(⟨0⟩, "r"),
      .node (⟨1⟩, "a") (.node (⟨2⟩, "1") .nil (.node (⟨2⟩, "2") .nil (.leaf (⟨2⟩, "3"))))
        (.node (⟨3⟩, "s") (.leaf (⟨1⟩, "z")) .nil)⟩
    let dst : Tree := .ofContents ⟨(⟨0⟩, "r"),
      .node (⟨4⟩, "g") (.node (⟨1⟩, "a") (.node (⟨2⟩, "2") .nil (.leaf (⟨2⟩, "3"))) .nil)
        (.node (⟨5⟩, "h") (.node (⟨2⟩, "1") .nil (.leaf (⟨1⟩, "z"))) .nil)⟩
    let task : Task := { src, dst }
    let p :=
      (((((Pairing.empty.insert 1 1).insert 2 8).insert 3 7).insert 4 4).insert 5 5).insert 7 3
    let counts : Table Nat := (canvass (votes task p) 2).getD .empty
    let rows := [(6, [(2, 1)]), (2, [(3, 2), (6, 1)]), (1, [(6, 1)])]
    let sorted := [(1, [(6, 1)]), (2, [(3, 2), (6, 1)]), (6, [(2, 1)])]
    tallyFor (votes task p) 2 = [(6, 1), (3, 2)] ∧ counts.Lists [(3, 2), (6, 1)] ∧
    uniqueMax [(3, 2), (6, 1)] = some (3, 2) ∧
    (counts 3 = some 2 ∧ ∀ k c, counts k = some c → k ≠ 3 → c < 2) ∧
    (canvass (votes task p)).ListsAll rows ∧ sorted.Perm rows ∧
    sorted.Pairwise (fun x y => x.1 ≤ y.1) ∧
    Matching.perform (sorted.forM fun row => settle task row.1 row.2) p =
      Stage.parentVote.perform task p ∧
    (Stage.parentVote.perform task p).pairing.pairs =
      [⟨1, 1⟩, ⟨2, 3⟩, ⟨3, 7⟩, ⟨4, 4⟩, ⟨5, 5⟩, ⟨7, 8⟩] := by
  intro src dst task p counts rows sorted
  have htally : tallyFor (votes task p) 2 = [(6, 1), (3, 2)] := by decide +kernel
  have hlists : counts.Lists [(3, 2), (6, 1)] := by
    refine (lists_tallyFor (votes task p) 2).lists_iff_perm.2 ?_
    rw [htally]
    decide
  have hmax : uniqueMax [(3, 2), (6, 1)] = some (3, 2) := by decide
  have hrows : (canvass (votes task p)).ListsAll rows :=
    listsAll_canvass_iff.2 ⟨by decide +kernel, by decide +kernel⟩
  have hperm : sorted.Perm rows := by decide
  have hsorted : sorted.Pairwise (fun x y => x.1 ≤ y.1) := by decide
  obtain ⟨hwinner, hstage⟩ := votes_can_be_counted_in_any_order
  exact ⟨htally, hlists, hmax, ((hwinner counts _ hlists).1 3 2).1 hmax, hrows, hperm, hsorted,
    hstage task p rows sorted hrows hperm hsorted, by decide +kernel⟩

end TreeMatching
