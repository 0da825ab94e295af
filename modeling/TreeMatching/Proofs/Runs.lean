import Mathlib.Logic.Basic
import Mathlib.Tactic.Lemma
import TreeMatching.Proofs.OneToOne
import TreeMatching.Stage

set_option autoImplicit false

/-!
# Reasoning about runs

A matching computation is started on a pairing and returns with another one, or stops with a fault.
The two predicates of this module say so without mentioning how the computation is carried out; the
rules for its parts then follow the way it is put together.

## Main definitions

* `Matching.Returns` — a computation does not fail, and what it returns is as described.
* `Matching.Refuses` — a computation fails and leaves the pairing as it was.

## Main results

* `Matching.Returns.bind`, `Matching.returns_forM`, `Matching.returns_foldlM` — sequences and loops.
* `Matching.returns_forM_prefix`, `Matching.returns_foldlM_prefix` — loops whose rounds know what
  has been dealt with before.
* `Matching.returns_link`, `Matching.returns_unlink` — the two changes of a pairing succeed on free
  nodes and on linked nodes.
* `Matching.Returns.perform`, `Matching.Refuses.perform` — the outcome of a run.
-/

namespace TreeMatching.Matching

variable {α β : Type} {x : Matching α} {p : Pairing}

/-- Started on the pairing `p`, the computation returns a value and leaves a pairing such that both
satisfy `Q`; it does not fail.  The number of evaluations does not matter. -/
def Returns (x : Matching α) (p : Pairing) (Q : α → Pairing → Prop) : Prop :=
  ∀ n, ∃ a q m, x.run ⟨p, n⟩ = .ok a ⟨q, m⟩ ∧ Q a q

/-- Started on the pairing `p`, the computation fails and changes nothing. -/
def Refuses (x : Matching α) (p : Pairing) (fault : Fault) : Prop :=
  ∀ n, x.run ⟨p, n⟩ = .error fault ⟨p, n⟩

/-! ### Sequences -/

/-- A computation that only gives a value returns it, on the same pairing. -/
lemma returns_pure {a : α} {Q : α → Pairing → Prop} (h : Q a p) :
    Returns (pure a) p Q :=
  fun n => ⟨a, p, n, rfl, h⟩

/-- What holds after a run may be described less precisely. -/
lemma Returns.mono {Q R : α → Pairing → Prop} (hx : Returns x p Q) (h : ∀ a q, Q a q → R a q) :
    Returns x p R := by
  intro n
  obtain ⟨a, q, m, hrun, hq⟩ := hx n
  exact ⟨a, q, m, hrun, h a q hq⟩

/-- Two results about one computation are about the same pairing. -/
lemma Returns.and {Q R : α → Pairing → Prop} (hQ : Returns x p Q) (hR : Returns x p R) :
    Returns x p fun a q => Q a q ∧ R a q := by
  intro n
  obtain ⟨a, q, m, hrun, hq⟩ := hQ n
  obtain ⟨b, r, k, hrun', hr⟩ := hR n
  rw [hrun] at hrun'
  cases hrun'
  exact ⟨a, q, m, hrun, hq, hr⟩

/-- What a run that has taken place returns and leaves. -/
lemma Returns.of_run {Q : α → Pairing → Prop} (hx : Returns x p Q) {n : Nat} {a : α} {s : Progress}
    (hrun : x.run ⟨p, n⟩ = .ok a s) : Q a s.pairing := by
  obtain ⟨b, q, m, hrun', hq⟩ := hx n
  rw [hrun] at hrun'
  cases hrun'
  exact hq

/-- What follows a computation starts on the pairing that the computation leaves. -/
lemma Returns.bind {f : α → Matching β} {Q : α → Pairing → Prop} {R : β → Pairing → Prop}
    (hx : Returns x p Q) (hf : ∀ a q, Q a q → Returns (f a) q R) : Returns (x >>= f) p R := by
  intro n
  obtain ⟨a, q, m, hrun, hq⟩ := hx n
  obtain ⟨b, r, k, hrun', hr⟩ := hf a q hq m
  refine ⟨b, r, k, ?_, hr⟩
  rw [EStateM.run_bind, hrun]
  exact hrun'

/-- A computation that starts by looking at the pairing may be told what it is. -/
lemma returns_pairing_bind {f : Pairing → Matching β} {R : β → Pairing → Prop}
    (h : Returns (f p) p R) : Returns (pairing >>= f) p R := by
  refine Returns.bind (Q := fun a q => a = p ∧ q = p) (fun n => ⟨p, p, n, rfl, rfl, rfl⟩) ?_
  rintro a q ⟨rfl, rfl⟩
  exact h

/-! ### Changes of the pairing -/

/-- A change that succeeds replaces the pairing. -/
lemma run_update {change : Pairing → Except Fault Pairing} {q : Pairing} (n : Nat)
    (h : change p = .ok q) : (update change).run ⟨p, n⟩ = .ok () ⟨q, n⟩ := by
  rw [update, EStateM.run_bind,
    show (get : Matching Progress).run ⟨p, n⟩ = .ok ⟨p, n⟩ ⟨p, n⟩ from rfl]
  simp only [h]
  rfl

/-- Free nodes can be linked. -/
lemma returns_link {s d : NodeId} {Q : Unit → Pairing → Prop} (hs : p.dst? s = none)
    (hd : p.src? d = none) (h : Q () (p.insert s d)) : Returns (link s d) p Q := by
  have hfree : p.bothFree s d = true := Pairing.bothFree_iff.2 ⟨hs, hd⟩
  exact fun n => ⟨(), p.insert s d, n, run_update n (if_pos hfree), h⟩

/-- Linked nodes can be unlinked. -/
lemma returns_unlink {s d : NodeId} {Q : Unit → Pairing → Prop} (hsd : p.dst? s = some d)
    (h : Q () (p.erase s d)) : Returns (unlink s d) p Q := by
  have hlinked : p.has s d = true := Pairing.has_iff.2 hsd
  exact fun n => ⟨(), p.erase s d, n, run_update n (if_pos hlinked), h⟩

/-- Nodes are linked if they are free, and otherwise nothing happens. -/
lemma returns_linkIfFree {s d : NodeId} {Q : Unit → Pairing → Prop}
    (hfree : p.dst? s = none → p.src? d = none → Q () (p.insert s d)) (hkeep : Q () p) :
    Returns (linkIfFree s d) p Q := by
  refine returns_pairing_bind ?_
  split
  · next hb =>
    obtain ⟨hs, hd⟩ := Pairing.bothFree_iff.1 hb
    exact returns_link hs hd (hfree hs hd)
  · exact returns_pure hkeep

/-- A link is undone if it is there, and otherwise nothing happens. -/
lemma returns_unlinkIfLinked {s d : NodeId} {Q : Unit → Pairing → Prop}
    (hlinked : p.dst? s = some d → Q () (p.erase s d)) (hkeep : p.dst? s ≠ some d → Q () p) :
    Returns (unlinkIfLinked s d) p Q := by
  refine returns_pairing_bind ?_
  split
  · next hb =>
    have hsd := Pairing.has_iff.1 hb
    exact returns_unlink hsd (hlinked hsd)
  · next hb =>
    exact returns_pure (hkeep fun hsd => hb (Pairing.has_iff.2 hsd))

/-- Counting evaluations leaves the pairing alone. -/
lemma returns_tally_bind {k : Nat} {f : Unit → Matching β} {R : β → Pairing → Prop}
    (h : Returns (f ()) p R) : Returns (tally k >>= f) p R := by
  refine Returns.bind (Q := fun _ q => q = p) (fun n => ⟨(), p, n + k, rfl, rfl⟩) ?_
  rintro a q rfl
  exact h

/-! ### Loops -/

/-- What every round of a loop carries on, knowing the items before and behind its own, holds after
the loop.

**Proof sketch.** Induction on the items that are left, generalized over those that have been dealt
with. -/
lemma returns_foldlM_prefix {σ : Type} {I : List β → σ → Pairing → Prop} {items : List β}
    {f : σ → β → Matching σ} {a : σ} (hp : I [] a p)
    (hf : ∀ done b rest a q, items = done ++ b :: rest → I done a q →
      Returns (f a b) q (I (done ++ [b]))) :
    Returns (items.foldlM f a) p (I items) := by
  -- the induction is on the items to come, for all items that have been dealt with
  have hrun : ∀ rest done a p, items = done ++ rest → I done a p →
      Returns (rest.foldlM f a) p (I items) := by
    intro rest
    induction rest with
    | nil =>
      intro done a p hsplit hdone
      rw [List.append_nil] at hsplit
      exact returns_pure (hsplit ▸ hdone)
    | cons b rest ih =>
      intro done a p hsplit hdone
      rw [List.foldlM_cons]
      refine (hf done b rest a p hsplit hdone).bind fun a' q hq => ih (done ++ [b]) a' q ?_ hq
      rw [hsplit, List.append_assoc]
      rfl
  exact hrun items [] a p rfl hp

/-- What every round of a loop preserves holds after the loop. -/
lemma returns_foldlM {σ : Type} {I : σ → Pairing → Prop} {items : List β}
    {f : σ → β → Matching σ} {a : σ} (hp : I a p)
    (hf : ∀ b ∈ items, ∀ a q, I a q → Returns (f a b) q I) :
    Returns (items.foldlM f a) p I := by
  refine returns_foldlM_prefix (I := fun _ => I) hp fun done b rest a q hsplit hq => ?_
  exact hf b (by rw [hsplit]; simp) a q hq

/-- A loop without a result is a loop that carries nothing along. -/
lemma forM_eq_foldlM (items : List β) (f : β → Matching Unit) :
    items.forM f = items.foldlM (fun _ b => f b) () := by
  induction items with
  | nil => rfl
  | cons b items ih =>
    rw [List.foldlM_cons]
    exact congrArg (f b >>= ·) (funext fun _ => ih)

/-- The two rules for a loop that carries nothing along. -/
lemma returns_forM_prefix {I : List β → Pairing → Prop} {items : List β} {f : β → Matching Unit}
    (hp : I [] p)
    (hf : ∀ done b rest q, items = done ++ b :: rest → I done q →
      Returns (f b) q fun _ => I (done ++ [b])) :
    Returns (items.forM f) p fun _ => I items := by
  rw [forM_eq_foldlM]
  exact returns_foldlM_prefix (I := fun done _ => I done) hp fun done b rest _ => hf done b rest

/-- **The invariant rule for loops.**  What the body preserves holds after the loop. -/
lemma returns_forM {I : Pairing → Prop} {items : List β} {f : β → Matching Unit} (hp : I p)
    (hf : ∀ b ∈ items, ∀ q, I q → Returns (f b) q fun _ => I) :
    Returns (items.forM f) p fun _ => I := by
  rw [forM_eq_foldlM]
  exact returns_foldlM (I := fun _ => I) hp fun b hb _ => hf b hb

/-- **Pairs with distinct free nodes can all be linked.**

**Proof sketch.** Induction on the list: linking the first pair leaves the nodes of the others free,
since they are different nodes.  For the same reason the first pair is still there at the end; it is
added to what the rest of the loop preserves. -/
lemma returns_forM_link {I : Pairing → Prop} {pairs : List Pair} (hp : I p)
    (hsrc : (pairs.map Pair.src).Nodup) (hdst : (pairs.map Pair.dst).Nodup)
    (hfree : ∀ z ∈ pairs, p.dst? z.src = none ∧ p.src? z.dst = none)
    (hstep : ∀ z ∈ pairs, ∀ q : Pairing, I q → q.dst? z.src = none → q.src? z.dst = none →
      I (q.insert z.src z.dst)) :
    Returns (pairs.forM fun z => link z.src z.dst) p fun _ q =>
      I q ∧ ∀ z ∈ pairs, q.dst? z.src = some z.dst := by
  induction pairs generalizing p I with
  | nil => exact returns_pure ⟨hp, by simp⟩
  | cons z pairs ih =>
    rw [List.map_cons, List.nodup_cons] at hsrc hdst
    obtain ⟨hs, hd⟩ := hfree z (List.mem_cons_self ..)
    have hne : ∀ y ∈ pairs, y.src ≠ z.src := fun y hy e =>
      hsrc.1 (e ▸ List.mem_map_of_mem hy)
    have hne' : ∀ y ∈ pairs, z.dst ≠ y.dst := fun y hy e =>
      hdst.1 (e ▸ List.mem_map_of_mem hy)
    change Returns (link z.src z.dst >>= fun _ => pairs.forM fun z => link z.src z.dst) p _
    refine Returns.bind (Q := fun _ q => q = p.insert z.src z.dst) (returns_link hs hd rfl) ?_
    rintro _ _ rfl
    refine (ih (I := fun q => I q ∧ q.dst? z.src = some z.dst)
      ⟨hstep z (List.mem_cons_self ..) p hp hs hd, by simp [Pairing.dst?_insert]⟩ hsrc.2 hdst.2
      ?_ ?_).mono fun _ q hq => ?_
    · intro y hy
      rw [Pairing.dst?_insert, Pairing.src?_insert, if_neg (hne y hy).symm, if_neg (hne' y hy)]
      exact hfree y (List.mem_cons_of_mem z hy)
    · rintro y hy q ⟨hI, hz⟩ hys hyd
      refine ⟨hstep y (List.mem_cons_of_mem z hy) q hI hys hyd, ?_⟩
      rw [Pairing.dst?_insert, if_neg (hne y hy), hz]
    · exact ⟨hq.1.1, List.forall_mem_cons.2 ⟨hq.1.2, hq.2⟩⟩

/-- A loop of loops is a loop over all items. -/
lemma forM_eq_forM_flatMap {γ : Type} {items : List β} {f : β → Matching Unit}
    {parts : β → List γ} {g : γ → Matching Unit} (h : ∀ b ∈ items, f b = (parts b).forM g) :
    items.forM f = (items.flatMap parts).forM g := by
  induction items with
  | nil => rfl
  | cons b items ih =>
    have hrest := ih fun c hc => h c (List.mem_cons_of_mem b hc)
    rw [List.flatMap_cons]
    change f b >>= (fun _ => items.forM f) = forM (parts b ++ items.flatMap parts) g
    rw [List.forM_append, h b (List.mem_cons_self ..), hrest]
    rfl

/-! ### Failures and outcomes -/

/-- Throwing a fault is a refusal. -/
lemma refuses_throw {fault : Fault} : Refuses (throw fault : Matching α) p fault :=
  fun _ => rfl

/-- A computation that starts with a refusal is one. -/
lemma Refuses.bind {fault : Fault} (hx : Refuses x p fault) (f : α → Matching β) :
    Refuses (x >>= f) p fault := by
  intro n
  rw [EStateM.run_bind, hx n]

/-- Looking at the pairing before a refusal changes nothing about it. -/
lemma refuses_pairing_bind {f : Pairing → Matching β} {fault : Fault} (h : Refuses (f p) p fault) :
    Refuses (pairing >>= f) p fault :=
  fun n => h n

/-- The outcome of a run that returns. -/
lemma Returns.perform {x : Matching Unit} {Q : Unit → Pairing → Prop} (hx : Returns x p Q) :
    (x.perform p).fault = none ∧ Q () (x.perform p).pairing := by
  obtain ⟨a, q, m, hrun, hq⟩ := hx 0
  rw [Matching.perform, hrun]
  exact ⟨rfl, hq⟩

/-- The outcome of a run that fails. -/
lemma Refuses.perform {x : Matching Unit} {fault : Fault} (hx : Refuses x p fault) :
    (x.perform p).fault = some fault ∧ (x.perform p).pairing = p := by
  rw [Matching.perform, hx 0]
  exact ⟨rfl, rfl⟩

end TreeMatching.Matching
