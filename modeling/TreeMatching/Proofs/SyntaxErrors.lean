import TreeMatching.Proofs.TermRoundTrip

set_option autoImplicit false

/-!
# Where a text is refused

A text that is no tree is refused at the first character that no tree could have there.  What
stands before that character can be continued to the text of a tree, and together with it no longer
can.  If the text ends too early, all of it can be continued.

## Main definitions

* `Term.Turn`, `Term.Move` — what a character behind a token and what any character can do to the
  machine.
* `Term.State.Live` — behind a finished tree there is a finished tree.
* `Term.CanContinue` — from a state, some text with a given beginning is read.
* `Term.Stop` — where and why a run fails.
* `Term.Continuable` — a text is the beginning of one that is read.

## Main results

* `Term.allows_step` — a step of the machine is a move, or it refuses its character by name.
* `Term.State.Live.step` — a step of the machine keeps states live.
* `Term.State.Live.canContinue` — from a live state some text is read.
* `Term.stop_of_readFrom` — a run that fails stops where it says.
* `Term.canContinue_start_iff` — whether a text can be continued does not depend on the table.
* `syntax_errors_are_located_exactly` — the results together, for texts and bytes.

## Design

A live state is completed by what its mode lacks and by a closing parenthesis for each open node, so
every state that the machine reaches has read the beginning of some tree.  That the offending
character leaves no way to go on is the failure of a single step.
-/

namespace TreeMatching

namespace Term

open State

variable {q q' : State} {kinds kinds' : KindTable} {done : List (Rooted Content)}
  {above : List OpenNode} {offset n : Nat} {c : Char} {u cs : List Char} {problem : SyntaxProblem}

/-! ### What a step can do -/

/-- The problems whose message names the character at which a text is refused. -/
def refusals (c : Char) : List SyntaxProblem :=
  [.nameExpected (some c), .separatorExpected c, .trailing c]

/-- What a character behind a token leads to, if it is not blank: a parenthesis or a comma to the
next name, and a closing parenthesis to a finished tree. -/
inductive Turn (kinds : KindTable) : Char → State → Prop
  | descend (done : List (Rooted Content)) (above : List OpenNode) :
      Turn kinds '(' ⟨kinds, .name, done, above⟩
  | next (done : List (Rooted Content)) (above : List OpenNode) :
      Turn kinds ',' ⟨kinds, .name, done, above⟩
  | close (t : Rooted Content) (done : List (Rooted Content)) (above : List OpenNode) :
      Turn kinds ')' ⟨kinds, .after, t :: done, above⟩

/-- What a character behind a token leads to: a blank is skipped. -/
def SkipsOrTurns (q : State) (c : Char) (q' : State) : Prop :=
  (q' = q ∧ Text.isBlank c = true) ∨ Turn q.kinds c q'

/-- **What a step of the machine can do.** -/
inductive Move (q : State) (offset : Nat) (c : Char) : State → Prop
  | blank (hmode : q.mode = .name) (h : Text.isBlank c = true) : Move q offset c q
  | beginName (hmode : q.mode = .name) (h : isNameChar c = true) :
      Move q offset c { q with mode := .inName [c] }
  | name {read : List Char} (hmode : q.mode = .inName read) (h : isNameChar c = true) :
      Move q offset c { q with mode := .inName (c :: read) }
  | colon {read : List Char} (hmode : q.mode = .inName read) (h : c = ':') :
      Move q offset c
        { q with
          kinds := (q.kinds.intern (String.ofList read.reverse)).2
          mode := .label (q.kinds.intern (String.ofList read.reverse)).1 }
  | endName {read : List Char} {q' : State} (hmode : q.mode = .inName read)
      (h : isNameChar c = false) (turn : SkipsOrTurns q.endToken c q') : Move q offset c q'
  | openQuote {kind : Kind} (hmode : q.mode = .label kind) (h : c = '"') :
      Move q offset c { q with mode := .inQuotes kind offset [] }
  | beginLabel {kind : Kind} (hmode : q.mode = .label kind) (h : isNameChar c = true) :
      Move q offset c { q with mode := .inLabel kind [c] }
  | label {kind : Kind} {read : List Char} (hmode : q.mode = .inLabel kind read)
      (h : isNameChar c = true) : Move q offset c { q with mode := .inLabel kind (c :: read) }
  | endLabel {kind : Kind} {read : List Char} {q' : State} (hmode : q.mode = .inLabel kind read)
      (h : isNameChar c = false) (turn : SkipsOrTurns q.endToken c q') : Move q offset c q'
  | closeQuote {kind : Kind} {start : Nat} {read : List Char}
      (hmode : q.mode = .inQuotes kind start read) (h : c = '"') :
      Move q offset c { q with mode := .atom (kind, String.ofList read.reverse) }
  | backslash {kind : Kind} {start : Nat} {read : List Char}
      (hmode : q.mode = .inQuotes kind start read) (h : c = '\\') :
      Move q offset c { q with mode := .escaped kind start read }
  | quoted {kind : Kind} {start : Nat} {read : List Char}
      (hmode : q.mode = .inQuotes kind start read) (hquote : c ≠ '"') (hbackslash : c ≠ '\\') :
      Move q offset c { q with mode := .inQuotes kind start (c :: read) }
  | escaped {kind : Kind} {start : Nat} {read : List Char}
      (hmode : q.mode = .escaped kind start read) :
      Move q offset c { q with mode := .inQuotes kind start (c :: read) }
  | atom {content : Content} {q' : State} (hmode : q.mode = .atom content)
      (turn : SkipsOrTurns q c q') : Move q offset c q'
  | after {q' : State} (hmode : q.mode = .after) (turn : SkipsOrTurns q c q') : Move q offset c q'

/-- The outcome of a character: it does what is allowed, or it is refused by name. -/
def Allows (allowed : State → Prop) (c : Char) : Except SyntaxProblem State → Prop
  | .ok q => allowed q
  | .error problem => problem ∈ refusals c

/-- What is allowed may be described less precisely. -/
lemma Allows.imp {P Q : State → Prop} {outcome : Except SyntaxProblem State}
    (h : Allows P c outcome) (hPQ : ∀ q, P q → Q q) : Allows Q c outcome := by
  cases outcome with
  | ok q => exact hPQ q h
  | error problem => exact h

/-- Behind a tree, a character is skipped or turns to the next tree, or it is refused by name.

**Proof sketch.** A blank is skipped.  Within a node a comma or a closing parenthesis is a turn.
Everything else is refused, also at top level. -/
lemma allows_step_after (kinds : KindTable) (done : List (Rooted Content)) (above : List OpenNode)
    (offset : Nat) (c : Char) :
    Allows (SkipsOrTurns ⟨kinds, .after, done, above⟩ c) c
      (State.step ⟨kinds, .after, done, above⟩ offset c) := by
  change Allows _ c (separate _ c)
  unfold separate
  split
  · next hblank => exact .inl ⟨rfl, hblank⟩
  · cases above with
    | nil => simp [Allows, refusals]
    | cons node above =>
      dsimp only
      split
      · next hcomma => exact .inr (hcomma ▸ .next done (node :: above))
      · split
        · next hclose => exact .inr (hclose ▸ .close _ node.before above)
        · simp [Allows, refusals]

/-- Behind name and label the same holds; besides, the children may begin there. -/
lemma allows_step_atom (kinds : KindTable) (content : Content) (done : List (Rooted Content))
    (above : List OpenNode) (offset : Nat) (c : Char) :
    Allows (SkipsOrTurns ⟨kinds, .atom content, done, above⟩ c) c
      (State.step ⟨kinds, .atom content, done, above⟩ offset c) := by
  change Allows _ c (descend _ content c)
  unfold descend
  split
  · next hblank => exact .inl ⟨rfl, hblank⟩
  · next hblank =>
    split
    · next hopen => exact .inr (hopen ▸ .descend [] (⟨content, done⟩ :: above))
    · -- the node has no children, and the character stands behind a finished tree
      refine (allows_step_after kinds (⟨content, .nil⟩ :: done) above offset c).imp fun q' h => ?_
      exact h.imp (fun hskip => absurd hskip.2 hblank) id

/-- **A step of the machine is a move, or it refuses its character by name.**

**Proof sketch.** Case distinction on the mode of the machine and then on the classes of characters
that this mode distinguishes.  A character that ends a name or a label is dealt with as if the
machine had been behind the token already. -/
lemma allows_step (q : State) (offset : Nat) (c : Char) :
    Allows (Move q offset c) c (q.step offset c) := by
  obtain ⟨kinds, mode, done, above⟩ := q
  cases mode with
  | name =>
    simp only [State.step]
    split
    · next hblank => exact .blank rfl hblank
    · split
      · next hname => exact .beginName rfl hname
      · simp [Allows, refusals]
  | inName read =>
    by_cases hname : isNameChar c = true
    · rw [step_inName read offset c hname]
      exact .name rfl hname
    · by_cases hcolon : c = ':'
      · subst hcolon
        exact .colon rfl rfl
      · -- the name has ended, and the character is dealt with as behind an atom
        rw [Bool.not_eq_true] at hname
        have hstep : State.step ⟨kinds, .inName read, done, above⟩ offset c =
            (endToken ⟨kinds, .inName read, done, above⟩).step offset c := by
          simp [State.step, hname, hcolon, endToken, punctuate]
        rw [hstep]
        exact (allows_step_atom ..).imp fun q' h => .endName rfl hname h
  | label kind =>
    simp only [State.step]
    split
    · next hquote => exact .openQuote rfl hquote
    · split
      · next hname => exact .beginLabel rfl hname
      · simp [Allows, refusals]
  | inLabel kind read =>
    by_cases hname : isNameChar c = true
    · rw [step_inLabel read offset c hname]
      exact .label rfl hname
    · rw [Bool.not_eq_true] at hname
      have hstep : State.step ⟨kinds, .inLabel kind read, done, above⟩ offset c =
          (endToken ⟨kinds, .inLabel kind read, done, above⟩).step offset c := by
        simp [State.step, hname, endToken, punctuate]
      rw [hstep]
      exact (allows_step_atom ..).imp fun q' h => .endLabel rfl hname h
  | inQuotes kind start read =>
    simp only [State.step]
    split
    · next hquote => exact .closeQuote rfl hquote
    · next hquote =>
      split
      · next hbackslash => exact .backslash rfl hbackslash
      · next hbackslash => exact .quoted rfl hquote hbackslash
  | escaped kind start read => exact .escaped rfl
  | atom content => exact (allows_step_atom ..).imp fun q' h => .atom rfl h
  | after => exact (allows_step_after ..).imp fun q' h => .after rfl h

/-- **A character that is accepted makes one of the moves.** -/
lemma move_of_step (h : q.step offset c = .ok q') : Move q offset c q' := by
  have hallows := allows_step q offset c
  rwa [h] at hallows

/-- A character that is refused is refused by one of its names. -/
lemma mem_refusals_of_step (h : q.step offset c = .error problem) : problem ∈ refusals c := by
  have hallows := allows_step q offset c
  rwa [h] at hallows

/-! ### Every state that is reached can be completed -/

/-- Behind a finished tree there is a finished tree. -/
def State.Live (q : State) : Prop := q.mode = .after → q.done ≠ []

/-- In all modes but one there is nothing to show. -/
lemma live_of_mode_ne (h : q.mode ≠ .after) : q.Live := fun hafter => absurd hafter h

/-- The machine starts in a live state. -/
lemma live_start (kinds : KindTable) : (State.start kinds).Live :=
  live_of_mode_ne (by simp [State.start])

/-- Skipping a character, or turning to another tree, keeps states live. -/
lemma SkipsOrTurns.live (h : SkipsOrTurns q c q') (hq : q.Live) : q'.Live := by
  rcases h with ⟨rfl, -⟩ | hturn
  · exact hq
  · cases hturn with
    | descend done above => exact live_of_mode_ne (by simp)
    | next done above => exact live_of_mode_ne (by simp)
    | close t done above => exact fun _ => List.cons_ne_nil t done

/-- **A step of the machine keeps states live.**

**Proof sketch.** By the moves of the machine.  Only a turn leads behind a tree, and then there is a
tree. -/
lemma State.Live.step (hq : q.Live) (h : q.step offset c = .ok q') : q'.Live := by
  cases move_of_step h with
  | blank hmode _ => exact hq
  | endName hmode _ turn =>
    exact turn.live (live_of_mode_ne (by simp [endToken, hmode]))
  | endLabel hmode _ turn =>
    exact turn.live (live_of_mode_ne (by simp [endToken, hmode]))
  | atom _ turn => exact turn.live hq
  | after _ turn => exact turn.live hq
  | _ => exact live_of_mode_ne (by simp)

/-- From a state, some text with the given beginning is read as a tree. -/
def CanContinue (q : State) (offset : Nat) (u : List Char) : Prop :=
  ∃ more kinds' t, readFrom q offset (u ++ more) = (kinds', .ok t)

/-- A text can be continued behind a character exactly if its rest can be from the next state. -/
lemma canContinue_cons_iff (h : q.step offset c = .ok q') :
    CanContinue q offset (c :: u) ↔ CanContinue q' (offset + c.utf8Size) u := by
  simp only [CanContinue, List.cons_append, readFrom_cons h]

/-- A refused character leaves no way to go on. -/
lemma not_canContinue_of_step (h : q.step offset c = .error problem) :
    ¬ CanContinue q offset [c] := by
  rintro ⟨more, kinds', t, hread⟩
  rw [List.singleton_append, readFrom, h] at hread
  cases hread

/-- The closing parentheses of all open nodes. -/
def closing (above : List OpenNode) : List Char := List.replicate above.length ')'

/-- Closing parentheses end a node. -/
lemma endsNode_closing (above : List OpenNode) : EndsNode (closing above) := by
  refine ⟨[], closing above, rfl, List.forall_mem_nil _, fun c hc => .inr ?_⟩
  exact List.eq_of_mem_replicate (List.mem_of_mem_head? hc)

/-- **Behind a finished tree it suffices to close what is open.** -/
lemma exists_readFrom_closing (t : Rooted Content) (done : List (Rooted Content)) :
    ∃ t', readFrom ⟨kinds, .after, t :: done, above⟩ offset (closing above) = (kinds, .ok t') := by
  induction above generalizing t done offset with
  | nil => exact ⟨t, rfl⟩
  | cons node above ih =>
    rw [closing, List.length_cons, List.replicate_succ, readFrom_close]
    exact ih ⟨node.content, gather (t :: done)⟩ node.before

/-- Behind name and label of a node it suffices to close what is open. -/
lemma exists_readFrom_atom (content : Content) :
    ∃ t, readFrom ⟨kinds, .atom content, done, above⟩ offset (closing above) = (kinds, .ok t) := by
  rw [(endsNode_closing above).readFrom_endAtom]
  exact exists_readFrom_closing ⟨content, .nil⟩ done

/-- Within a name it suffices to close what is open; the name then ends there. -/
lemma exists_readFrom_inName (read : List Char) :
    ∃ kinds' t, readFrom ⟨kinds, .inName read, done, above⟩ offset (closing above) =
      (kinds', .ok t) := by
  rw [readFrom_endName (endsNode_closing above).endsToken]
  exact ⟨_, exists_readFrom_atom _⟩

/-- Within a label it suffices to close what is open; the label then ends there. -/
lemma exists_readFrom_inLabel (kind : Kind) (read : List Char) :
    ∃ t, readFrom ⟨kinds, .inLabel kind read, done, above⟩ offset (closing above) =
      (kinds, .ok t) := by
  rw [readFrom_endLabel fun c hc => ((endsNode_closing above).endsToken c hc).1]
  exact exists_readFrom_atom _

/-- Within a quoted label it suffices to end the label and to close what is open. -/
lemma exists_readFrom_inQuotes (kind : Kind) (start : Nat) (read : List Char) :
    ∃ t, readFrom ⟨kinds, .inQuotes kind start read, done, above⟩ offset ('"' :: closing above) =
      (kinds, .ok t) := by
  rw [readFrom_closeQuote]
  exact exists_readFrom_atom _

/-- **From a live state some text is read.**  It has what the mode lacks, a name or a quotation
mark, and closes what is open.

**Proof sketch.** Case distinction on the mode.  Where a name or a label is missing, `x` is one;
within quotes a quotation mark comes first, and after a backslash one more character.  What follows
are closing parentheses for the open nodes. -/
theorem State.Live.canContinue (hq : q.Live) (offset : Nat) : CanContinue q offset [] := by
  obtain ⟨kinds, mode, done, above⟩ := q
  have hx : IsName ['x'] := isName_cons_iff.2 ⟨by decide, List.forall_mem_nil _⟩
  cases mode with
  | name =>
    refine ⟨['x'] ++ closing above, ?_⟩
    rw [List.nil_append, hx.readFrom_eq]
    exact exists_readFrom_inName _
  | inName read => exact ⟨closing above, exists_readFrom_inName read⟩
  | label kind =>
    refine ⟨['x'] ++ closing above, kinds, ?_⟩
    rw [List.nil_append, hx.readFrom_label_eq]
    exact exists_readFrom_inLabel kind _
  | inLabel kind read => exact ⟨closing above, kinds, exists_readFrom_inLabel kind read⟩
  | inQuotes kind start read =>
    exact ⟨'"' :: closing above, kinds, exists_readFrom_inQuotes kind start read⟩
  | escaped kind start read =>
    refine ⟨'x' :: '"' :: closing above, kinds, ?_⟩
    rw [List.nil_append, readFrom_cons rfl]
    exact exists_readFrom_inQuotes kind start _
  | atom content => exact ⟨closing above, kinds, exists_readFrom_atom content⟩
  | after =>
    cases done with
    | nil => exact absurd rfl (hq rfl)
    | cons t done => exact ⟨closing above, kinds, exists_readFrom_closing t done⟩

/-! ### Where a run fails -/

/-- Where the quoted label began that is being read. -/
def Mode.quote? : Mode → Option Nat
  | .inQuotes _ start _ | .escaped _ start _ => some start
  | _ => none

/-- **Where and why a run fails.** -/
inductive Stop (q : State) (offset : Nat) (cs : List Char) : Nat → SyntaxProblem → Prop
  /-- A character is refused, what stands before it could be continued. -/
  | refused {u v : List Char} {c : Char} {problem : SyntaxProblem} (text : cs = u ++ c :: v)
      (named : problem ∈ refusals c) (before : CanContinue q offset u)
      (hopeless : ¬ CanContinue q offset (u ++ [c])) : Stop q offset cs (offset + bytes u) problem
  /-- The text ends too early. -/
  | ended {problem : SyntaxProblem} (missing : problem ∈ [.nameExpected none, .unclosedList])
      (whole : CanContinue q offset cs) : Stop q offset cs (offset + bytes cs) problem
  /-- The text ends within a label, which began before the run or during it. -/
  | quoted {n : Nat} (whole : CanContinue q offset cs)
      (quote : q.mode.quote? = some n ∨ ∃ u v, cs = u ++ '"' :: v ∧ n = offset + bytes u) :
      Stop q offset cs n .unterminatedLabel

/-- Skipping a character, or turning to another tree, does not begin a quoted label. -/
lemma SkipsOrTurns.quote? (h : SkipsOrTurns q c q') : q'.mode.quote? = some n →
    q.mode.quote? = some n := by
  rcases h with ⟨rfl, -⟩ | hturn
  · exact id
  · cases hturn <;> simp [Mode.quote?]

/-- A quoted label that is being read began before, or begins with this character.

**Proof sketch.** By the moves of the machine.  Opening a quote notes the offset, the moves within
quotes keep it, and all others lead to modes without one. -/
lemma quote?_of_step (h : q.step offset c = .ok q') (hn : q'.mode.quote? = some n) :
    q.mode.quote? = some n ∨ c = '"' ∧ n = offset := by
  cases move_of_step h with
  | blank _ _ => exact .inl hn
  | endName hmode _ turn =>
    have hquote := turn.quote? hn
    simp [endToken, hmode, Mode.quote?] at hquote
  | endLabel hmode _ turn =>
    have hquote := turn.quote? hn
    simp [endToken, hmode, Mode.quote?] at hquote
  | openQuote _ hc => exact .inr ⟨hc, (Option.some_inj.1 hn).symm⟩
  | backslash hmode _ => exact .inl (by rw [hmode]; exact hn)
  | quoted hmode _ _ => exact .inl (by rw [hmode]; exact hn)
  | escaped hmode => exact .inl (by rw [hmode]; exact hn)
  | atom _ turn => exact .inl (turn.quote? hn)
  | after _ turn => exact .inl (turn.quote? hn)
  | _ => cases hn

/-- A step forward does not change where a run fails.

**Proof sketch.** A text goes on from `q'` exactly if the text with the character in front goes on
from `q`, so that the reason stays the same.  If the reason is an open quote, it has been opened by
this character or before. -/
lemma Stop.cons (hstep : q.step offset c = .ok q')
    (h : Stop q' (offset + c.utf8Size) cs n problem) : Stop q offset (c :: cs) n problem := by
  cases h with
  | @refused u v d _ text named before hopeless =>
    rw [Nat.add_assoc]
    refine .refused (u := c :: u) (congrArg _ text) named ((canContinue_cons_iff hstep).2 before) ?_
    rwa [List.cons_append, canContinue_cons_iff hstep]
  | ended missing whole =>
    rw [Nat.add_assoc]
    exact .ended missing ((canContinue_cons_iff hstep).2 whole)
  | quoted whole quote =>
    refine .quoted ((canContinue_cons_iff hstep).2 whole) ?_
    rcases quote with hquote | ⟨u, v, rfl, rfl⟩
    · rcases quote?_of_step hstep hquote with hbefore | ⟨rfl, hn⟩
      · exact .inl hbefore
      · exact .inr ⟨[], cs, rfl, hn⟩
    · exact .inr ⟨c :: u, v, rfl, by rw [bytes_cons, Nat.add_assoc]⟩

/-- The end of the text, seen from a live state.

**Proof sketch.** Case distinction on the mode.  In a live state a run fails at its end because a
name or a label, a closing parenthesis or a quotation mark is missing, and in all three cases more
text would help. -/
lemma State.Live.stop_of_finish (hq : q.Live) (h : q.finish offset = .error (n, problem)) :
    Stop q offset [] n problem := by
  have hwhole := hq.canContinue offset
  obtain ⟨kinds, mode, done, above⟩ := q
  cases mode with
  | name | label =>
    cases h
    exact .ended (List.mem_cons_self ..) hwhole
  | inName | inLabel | atom =>
    cases above with
    | nil => cases h
    | cons node above =>
      cases h
      exact .ended (List.mem_cons_of_mem _ (List.mem_singleton_self _)) hwhole
  | inQuotes | escaped =>
    cases h
    exact .quoted hwhole (.inl rfl)
  | after =>
    cases above with
    | nil =>
      cases done with
      | nil => exact absurd rfl (hq rfl)
      | cons t done => cases h
    | cons node above =>
      cases h
      exact .ended (List.mem_cons_of_mem _ (List.mem_singleton_self _)) hwhole

/-- **A run that fails stops where it says.**

**Proof sketch.** Induction on the text.  A step forward does not change where the run fails.  A
character that is refused is refused by name, and no text with it can go on. -/
theorem stop_of_readFrom (hq : q.Live)
    (h : readFrom q offset cs = (kinds', .error (n, problem))) : Stop q offset cs n problem := by
  induction cs generalizing q offset with
  | nil => exact hq.stop_of_finish (congrArg Prod.snd h)
  | cons c cs ih =>
    rw [readFrom] at h
    split at h
    · next q' hstep => exact (ih (hq.step hstep) h).cons hstep
    · next problem' hstep =>
      cases h
      exact .refused (u := []) rfl (mem_refusals_of_step hstep) (hq.canContinue _)
        (not_canContinue_of_step hstep)

/-! ### Texts and tables -/

/-- **Whether a text can be continued does not depend on the table of kinds**: it can if it begins a
text that has a derivation. -/
lemma canContinue_start_iff (kinds : KindTable) :
    CanContinue (.start kinds) 0 u ↔ ∃ more t, TermText t (u ++ more) := by
  constructor
  · rintro ⟨more, kinds', t, hread⟩
    exact ⟨more, exists_termText hread⟩
  · rintro ⟨more, t, ht⟩
    exact ⟨more, _, _, ht.readFrom_eq⟩

/-- What is read from a text is what the run over its characters says. -/
lemma read_cases (kinds : KindTable) (text : String) :
    (∃ kinds' t tree, readFrom (.start kinds) 0 text.toList = (kinds', .ok t) ∧
      Term.read kinds text = (kinds', .ok tree)) ∨
    ∃ kinds' n problem, readFrom (.start kinds) 0 text.toList = (kinds', .error (n, problem)) ∧
      Term.read kinds text = (kinds', .error (.syntaxAt n problem)) := by
  cases hrun : readFrom (.start kinds) 0 text.toList with
  | mk kinds' outcome =>
    cases outcome with
    | ok t => exact .inl ⟨kinds', t, _, rfl, by rw [Term.read, hrun]⟩
    | error e => exact .inr ⟨kinds', e.1, e.2, rfl, by rw [Term.read, hrun]⟩

/-- The text is the beginning of a text that is read as a tree. -/
def Continuable (kinds : KindTable) (text : String) : Prop :=
  ∃ more tree, (Term.read kinds (text ++ more)).2 = .ok tree

/-- What is known of the machine with one table holds of texts with every table.

**Proof sketch.** Whether a run succeeds depends on whether the text has a derivation, and
derivations do not mention the table. -/
lemma continuable_iff (kinds others : KindTable) (text : String) :
    Continuable others text ↔ CanContinue (.start kinds) 0 text.toList := by
  rw [canContinue_start_iff]
  constructor
  · rintro ⟨more, tree, hread⟩
    rcases read_cases others (text ++ more) with ⟨kinds', t, _, hrun, -⟩ | ⟨_, _, _, -, herror⟩
    · rw [String.toList_append] at hrun
      exact ⟨more.toList, exists_termText hrun⟩
    · rw [herror] at hread
      cases hread
  · rintro ⟨more, t, ht⟩
    have hderivation : TermText t (text ++ String.ofList more).toList := by
      rwa [String.toList_append, String.toList_ofList]
    obtain ⟨tree, hread, -⟩ := hderivation.exists_read others
    exact ⟨String.ofList more, tree, congrArg Prod.snd hread⟩

/-- A text takes as many bytes as its characters together. -/
lemma utf8ByteSize_ofList (cs : List Char) : (String.ofList cs).utf8ByteSize = bytes cs := by
  induction cs with
  | nil => rfl
  | cons c cs ih =>
    rw [String.ofList_cons, String.utf8ByteSize_append, String.utf8ByteSize_singleton, ih,
      bytes_cons]

end Term

open Term in
/-- **Syntax errors are located exactly.**  A text is refused for one of two reasons.  A character
may be named, and then it stands behind the reported number of bytes; what stands before it is the
beginning of a text that is read, and together with the character it is not.  Or the text has ended
too early, and then all of it is the beginning of a text that is read; what is reported is the
number of its bytes, or where the label began that is not closed.  None of this depends on the
table of kinds.

**Proof sketch.** The machine only ever reaches states from which some text is read: what is open
can be closed.  So the first character that makes it fail is the first one that leaves no way to go
on. -/
theorem syntax_errors_are_located_exactly (kinds : KindTable) (text : String) (fault : Fault)
    (h : (Term.read kinds text).2 = .error fault) :
    ∃ offset problem, fault = .syntaxAt offset problem ∧
      ((∃ c before after, problem ∈ [.nameExpected (some c), .separatorExpected c, .trailing c] ∧
          text = before ++ String.singleton c ++ after ∧ before.utf8ByteSize = offset ∧
          ∀ others, Continuable others before ∧
            ¬ Continuable others (before ++ String.singleton c)) ∨
        (problem ∈ [.nameExpected none, .unclosedList] ∧ text.utf8ByteSize = offset ∧
          ∀ others, Continuable others text) ∨
        (problem = .unterminatedLabel ∧
          (∃ before after, text = before ++ "\"" ++ after ∧ before.utf8ByteSize = offset) ∧
          ∀ others, Continuable others text)) := by
  rcases read_cases kinds text with ⟨kinds', t, tree, -, hok⟩ | ⟨kinds', n, problem, hrun, herror⟩
  · rw [hok] at h
    cases h
  rw [herror] at h
  cases h
  refine ⟨n, problem, rfl, ?_⟩
  cases stop_of_readFrom (live_start kinds) hrun with
  | @refused u v c _ hsplit named before hopeless =>
    refine .inl ⟨c, String.ofList u, String.ofList v, named, String.toList_injective ?_, ?_,
      fun others => ⟨?_, ?_⟩⟩
    · simp [hsplit]
    · rw [utf8ByteSize_ofList, Nat.zero_add]
    · rwa [continuable_iff kinds, String.toList_ofList]
    · rwa [continuable_iff kinds, String.toList_append, String.toList_ofList,
        String.toList_singleton]
  | ended missing whole =>
    refine .inr (.inl ⟨missing, ?_, fun others => (continuable_iff kinds others _).2 whole⟩)
    rw [← utf8ByteSize_ofList, String.ofList_toList, Nat.zero_add]
  | quoted whole quote =>
    refine .inr (.inr ⟨rfl, ?_, fun others => (continuable_iff kinds others _).2 whole⟩)
    obtain hquote | ⟨u, v, hsplit, rfl⟩ := quote
    · cases hquote
    · refine ⟨String.ofList u, String.ofList v, String.toList_injective ?_, ?_⟩
      · simp [hsplit]
      · rw [utf8ByteSize_ofList, Nat.zero_add]

/-- A second name follows without a comma.  Four characters stand before it, but five bytes, since
the first character has two. -/
theorem second_name_without_comma_is_refused :
    (Term.read .empty "é(b c)").2 = .error (.syntaxAt 5 (.separatorExpected 'c')) ∧
      ∃ before after, "é(b c)" = before ++ "c" ++ after ∧ before.utf8ByteSize = 5 ∧
        Term.Continuable .empty before ∧ ¬ Term.Continuable .empty (before ++ "c") := by
  have h : (Term.read .empty "é(b c)").2 = .error (.syntaxAt 5 (.separatorExpected 'c')) := by rfl
  refine ⟨h, ?_⟩
  obtain ⟨offset, problem, hfault, hcases⟩ := syntax_errors_are_located_exactly _ _ _ h
  cases hfault
  rcases hcases with ⟨c, before, after, hc, htext, hbytes, hothers⟩ | ⟨hmem, -⟩ | ⟨hlabel, -⟩
  · obtain rfl : 'c' = c := by simpa using hc
    exact ⟨before, after, htext, hbytes, hothers .empty⟩
  · simp at hmem
  · cases hlabel

end TreeMatching
