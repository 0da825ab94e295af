import Mathlib.Tactic.Lemma
import TreeMatching.Proofs.TreeTables
import TreeMatching.Term.Reader

set_option autoImplicit false

/-!
# The grammar of terms

The texts that can be read as trees are described by a grammar, in terms of derivations and without
any mention of the machine that reads them.  The machine accepts exactly the texts that have a
derivation, and returns the tree that the derivation describes.

## Main definitions

* `Term.IsName`, `Term.Blanks`, `Term.Quoted`, `Term.Atom` — the parts of a term.
* `Term.NodeText`, `Term.ListText`, `Term.TermText` — derivations of nodes, of lists and of texts.
* `Term.assign`, `Term.assignTree` — gives the names of a tree their kinds, in pre-order.

## Main results

* `KindTable.get?_internAll_of_get?` — a name keeps its kind when further names are met.
* `Term.NodeText.readFrom_eq`, `Term.ListText.readFrom_eq`, `Term.TermText.readFrom_eq` — what has a
  derivation is read.
* `Term.exists_atom`, `Term.exists_listText`, `Term.exists_termText` — what is read has a
  derivation.
* `reading_follows_grammar` — the two together.

## Design

Both directions look at the machine in the middle of a text, with any open nodes and any rest.  What
is read is given by an equation between two runs, from the state before a phrase and from the state
behind it; the converse direction uses these equations to go on behind a phrase it has found.
-/

namespace TreeMatching

/-! ### Tables of kinds -/

namespace KindTable

variable {t : KindTable} {name : String} {k : Kind}

/-- A name that is known stays known, and keeps its kind, when another one is met. -/
lemma get?_intern_of_get? (other : String) (h : t.get? name = some k) :
    (t.intern other).2.get? name = some k := by
  unfold intern
  cases ho : t.get? other with
  | some k' => exact h
  | none =>
    have hne : other ≠ name := by
      rintro rfl
      rw [ho] at h
      cases h
    simp only [get?, Std.HashMap.getElem?_insert, beq_iff_eq, hne, ↓reduceIte]
    exact h

/-- A name keeps its kind when further names are met. -/
lemma get?_internAll_of_get? (names : List String) (h : t.get? name = some k) :
    (t.internAll names).get? name = some k := by
  induction names generalizing t with
  | nil => exact h
  | cons other names ih => exact ih (get?_intern_of_get? other h)

end KindTable

namespace Term

open State

/-! ### The grammar -/

/-- What is written for a node: the name of its kind, and its label. -/
abbrev Spelling := String × String

/-- Blanks, or nothing. -/
def Blanks (w : List Char) : Prop := ∀ c ∈ w, Text.isBlank c = true

/-- One or more characters that are neither blank nor punctuation. -/
def IsName (u : List Char) : Prop :=
  u ≠ [] ∧ ∀ c ∈ u, Text.isBlank c = false ∧ c ∉ ['(', ')', ',', ':', '"']

/-- A label and how it is written between quotation marks: a backslash stands before any character,
and has to stand before quotation marks and backslashes. -/
inductive Quoted : List Char → List Char → Prop
  | nil : Quoted [] []
  | plain {label text : List Char} (c : Char) (notQuote : c ≠ '"') (notBackslash : c ≠ '\\')
      (rest : Quoted label text) : Quoted (c :: label) (c :: text)
  | escaped {label text : List Char} (c : Char) (rest : Quoted label text) :
      Quoted (c :: label) ('\\' :: c :: text)

/-- A name, alone or with a label that is a name or stands in quotation marks. -/
inductive Atom : Spelling → List Char → Prop
  | name {u : List Char} (name : IsName u) : Atom (String.ofList u, String.ofList u) u
  | bare {u v : List Char} (name : IsName u) (label : IsName v) :
      Atom (String.ofList u, String.ofList v) (u ++ ':' :: v)
  | quoted {u v label : List Char} (name : IsName u) (text : Quoted label v) :
      Atom (String.ofList u, String.ofList label) (u ++ ':' :: '"' :: (v ++ ['"']))

mutual

/-- A node: its name and label, and perhaps the list of its children in parentheses. -/
inductive NodeText : Rooted Spelling → List Char → Prop
  | leaf {a : Spelling} {u w : List Char} (atom : Atom a u) (blanks : Blanks w) :
      NodeText ⟨a, .nil⟩ (u ++ w)
  | parent {a : Spelling} {f : Forest Spelling} {u w v : List Char} (atom : Atom a u)
      (blanks : Blanks w) (children : ListText f v) :
      NodeText ⟨a, f⟩ (u ++ (w ++ '(' :: (v ++ [')'])))

/-- One or more nodes, separated by commas. -/
inductive ListText : Forest Spelling → List Char → Prop
  | one {t : Rooted Spelling} {w u w' : List Char} (blanks : Blanks w) (node : NodeText t u)
      (blanks' : Blanks w') : ListText (.node t.root t.below .nil) (w ++ (u ++ w'))
  | more {t : Rooted Spelling} {f : Forest Spelling} {w u w' v : List Char} (blanks : Blanks w)
      (node : NodeText t u) (blanks' : Blanks w') (others : ListText f v) :
      ListText (.node t.root t.below f) (w ++ (u ++ (w' ++ ',' :: v)))

end

/-- A text: one node, perhaps with blanks around it. -/
def TermText (t : Rooted Spelling) (text : List Char) : Prop :=
  ∃ w u w', text = w ++ (u ++ w') ∧ Blanks w ∧ NodeText t u ∧ Blanks w'

/-! ### Kinds for names -/

/-- Gives the names of a forest their kinds, in pre-order, and returns the table of all kinds met
with it. -/
def assign : Forest Spelling → KindTable → Forest Content × KindTable
  | .nil, kinds => (.nil, kinds)
  | .node a below next, kinds =>
    let (kind, kinds) := kinds.intern a.1
    let (below, kinds) := assign below kinds
    let (next, kinds) := assign next kinds
    (.node (kind, a.2) below next, kinds)

/-- The same for a tree. -/
def assignTree (t : Rooted Spelling) (kinds : KindTable) : Rooted Content × KindTable :=
  let (kind, kinds) := kinds.intern t.root.1
  let (below, kinds) := assign t.below kinds
  (⟨(kind, t.root.2), below⟩, kinds)

/-- The table then knows the names that were met. -/
lemma assign_snd (f : Forest Spelling) (kinds : KindTable) :
    (assign f kinds).2 = kinds.internAll (f.preOrder.map Prod.fst) := by
  induction f generalizing kinds with
  | nil => rfl
  | node a below next ihb ihn =>
    simp only [assign, ihb, ihn, Forest.preOrder, List.map_cons, List.map_append,
      KindTable.internAll, List.foldl_cons, List.foldl_append]

/-- Giving kinds to a tree meets its names in pre-order. -/
lemma assignTree_snd (t : Rooted Spelling) (kinds : KindTable) :
    (assignTree t kinds).2 = kinds.internAll (t.preOrder.map Prod.fst) := by
  rw [assignTree]
  exact assign_snd t.below _

/-- **Every node has the kind of its name.**  The kinds are those of any table that still knows the
names that were met.

**Proof sketch.** Induction on the forest.  The name of the first root is known as soon as it is
met, and remains known while the names below and next to it are met. -/
lemma map_assign_fst (f : Forest Spelling) (kinds later : KindTable)
    (h : ∀ name k, (assign f kinds).2.get? name = some k → later.get? name = some k) :
    (assign f kinds).1.map (fun c => (some c.1, c.2)) =
      f.map fun a => (later.get? a.1, a.2) := by
  induction f generalizing kinds with
  | nil => rfl
  | node a below next ihb ihn =>
    simp only [assign] at h
    have hbelow : ∀ name k, (assign below (kinds.intern a.1).2).2.get? name = some k →
        later.get? name = some k := by
      intro name k hk
      refine h name k ?_
      rw [assign_snd next]
      exact KindTable.get?_internAll_of_get? _ hk
    have hroot : later.get? a.1 = some (kinds.intern a.1).1 := by
      refine hbelow _ _ ?_
      rw [assign_snd below]
      exact KindTable.get?_internAll_of_get? _ (kinds.get?_intern_self a.1)
    simp only [assign, Forest.map, hroot, ihb _ hbelow, ihn _ h]

/-- In the tree with kinds, the kind of a node is the one that the table has for its name in the
end. -/
lemma map_assignTree_fst (t : Rooted Spelling) (kinds : KindTable) :
    (assignTree t kinds).1.map (fun c => (some c.1, c.2)) =
      t.map fun a => ((assignTree t kinds).2.get? a.1, a.2) := by
  have hbelow := map_assign_fst t.below (kinds.intern t.root.1).2 (assignTree t kinds).2
    fun _ _ hk => hk
  have hroot : (assignTree t kinds).2.get? t.root.1 = some (kinds.intern t.root.1).1 := by
    rw [assignTree_snd, Rooted.preOrder, List.map_cons]
    exact KindTable.get?_internAll_of_get? (t.below.preOrder.map Prod.fst)
      (kinds.get?_intern_self t.root.1)
  simp only [Rooted.map, hroot, ← hbelow]
  rfl

/-- Puts the trees of a forest on a list of finished trees, the last one first. -/
def stack : Forest Content → List (Rooted Content) → List (Rooted Content)
  | .nil, done => done
  | .node a below next, done => stack next (⟨a, below⟩ :: done)

/-- Gathering finished trees gives the forest back. -/
lemma gather_stack (f : Forest Content) (done : List (Rooted Content)) :
    gather (stack f done) = done.foldl (fun next t => .node t.root t.below next) f := by
  induction f generalizing done with
  | nil => rfl
  | node a below next _ ihn => rw [stack, ihn, List.foldl_cons]

/-! ### Single steps of the machine -/

/-- The number of bytes of a text. -/
def bytes (cs : List Char) : Nat := (cs.map Char.utf8Size).sum

/-- The empty text takes no bytes. -/
@[simp]
lemma bytes_nil : bytes [] = 0 := rfl

/-- The bytes of a text, character by character. -/
@[simp]
lemma bytes_cons (c : Char) (cs : List Char) : bytes (c :: cs) = c.utf8Size + bytes cs := rfl

/-- The bytes of two texts add up. -/
@[simp]
lemma bytes_append (u v : List Char) : bytes (u ++ v) = bytes u + bytes v := by
  simp [bytes]

/-- The characters of names are those that are neither blank nor punctuation. -/
lemma isNameChar_iff {c : Char} :
    isNameChar c = true ↔ Text.isBlank c = false ∧ c ∉ ['(', ')', ',', ':', '"'] := by
  simp [isNameChar, punctuation]

/-- A name has a first character, and all its characters are characters of names. -/
lemma isName_cons_iff {c : Char} {u : List Char} :
    IsName (c :: u) ↔ isNameChar c = true ∧ ∀ d ∈ u, isNameChar d = true := by
  simp only [IsName, isNameChar_iff, ne_eq, reduceCtorEq, not_false_eq_true, true_and,
    List.forall_mem_cons]

variable {q q' : State} {kinds kinds' : KindTable} {done : List (Rooted Content)}
  {above : List OpenNode} {offset : Nat} {c : Char} {u v w cs rest : List Char}
  {result : Rooted Content}

/-- Reading a character that is accepted goes on from the next state. -/
lemma readFrom_cons (h : q.step offset c = .ok q') :
    readFrom q offset (c :: cs) = readFrom q' (offset + c.utf8Size) cs := by
  rw [readFrom, h]

/-- A run that succeeds takes its first step. -/
lemma exists_step_of_readFrom (h : readFrom q offset (c :: cs) = (kinds', .ok result)) :
    ∃ q', q.step offset c = .ok q' ∧
      readFrom q' (offset + c.utf8Size) cs = (kinds', .ok result) := by
  rw [readFrom] at h
  split at h
  · next q' hstep => exact ⟨q', hstep, h⟩
  · cases h

/-- Two states that agree in the next step, and at the end of the text, cannot be told apart. -/
lemma readFrom_congr (hkinds : q.endToken.kinds = q'.endToken.kinds)
    (hfinish : q.finish offset = q'.finish offset)
    (hstep : ∀ c, rest.head? = some c → q.step offset c = q'.step offset c) :
    readFrom q offset rest = readFrom q' offset rest := by
  cases rest with
  | nil => rw [readFrom, readFrom, hkinds, hfinish]
  | cons c cs => rw [readFrom, readFrom, hstep c rfl, hkinds]

/-- Blanks are skipped where they do not matter. -/
lemma readFrom_blanks (hq : ∀ offset c, Text.isBlank c = true → q.step offset c = .ok q)
    (hw : Blanks w) : readFrom q offset (w ++ rest) = readFrom q (offset + bytes w) rest := by
  induction w generalizing offset with
  | nil => rfl
  | cons c w ih =>
    obtain ⟨hc, hw⟩ := List.forall_mem_cons.1 hw
    rw [List.cons_append, readFrom_cons (hq offset c hc), ih hw, bytes_cons, Nat.add_assoc]

/-- In front of a name, blanks are skipped. -/
lemma step_name_blank (offset : Nat) (c : Char) (hc : Text.isBlank c = true) :
    State.step ⟨kinds, .name, done, above⟩ offset c = .ok ⟨kinds, .name, done, above⟩ := by
  simp [State.step, hc]

/-- Behind name and label of a node, blanks are skipped. -/
lemma step_atom_blank {content : Content} (offset : Nat) (c : Char) (hc : Text.isBlank c = true) :
    State.step ⟨kinds, .atom content, done, above⟩ offset c =
      .ok ⟨kinds, .atom content, done, above⟩ := by
  simp [State.step, descend, hc]

/-- Behind a tree, blanks are skipped. -/
lemma step_after_blank (offset : Nat) (c : Char) (hc : Text.isBlank c = true) :
    State.step ⟨kinds, .after, done, above⟩ offset c = .ok ⟨kinds, .after, done, above⟩ := by
  simp [State.step, separate, hc]

/-- Characters of a name are collected. -/
lemma readFrom_collect {mode : List Char → Mode}
    (hmode : ∀ read offset c, isNameChar c = true →
      State.step ⟨kinds, mode read, done, above⟩ offset c =
        .ok ⟨kinds, mode (c :: read), done, above⟩)
    (hu : ∀ c ∈ u, isNameChar c = true) (read : List Char) :
    readFrom ⟨kinds, mode read, done, above⟩ offset (u ++ rest) =
      readFrom ⟨kinds, mode (u.reverse ++ read), done, above⟩ (offset + bytes u) rest := by
  induction u generalizing offset read with
  | nil => rfl
  | cons c u ih =>
    obtain ⟨hc, hu⟩ := List.forall_mem_cons.1 hu
    rw [List.cons_append, readFrom_cons (hmode read offset c hc), ih hu, bytes_cons,
      Nat.add_assoc, List.reverse_cons, List.append_assoc]
    rfl

/-- A name goes on with every character of names. -/
lemma step_inName (read : List Char) (offset : Nat) (c : Char) (hc : isNameChar c = true) :
    State.step ⟨kinds, .inName read, done, above⟩ offset c =
      .ok ⟨kinds, .inName (c :: read), done, above⟩ := by
  simp [State.step, hc]

/-- A label without quotation marks goes on with every character of names. -/
lemma step_inLabel {kind : Kind} (read : List Char) (offset : Nat) (c : Char)
    (hc : isNameChar c = true) :
    State.step ⟨kinds, .inLabel kind read, done, above⟩ offset c =
      .ok ⟨kinds, .inLabel kind (c :: read), done, above⟩ := by
  simp [State.step, hc]

/-- A name ends before a character that can neither be part of it nor begin a label. -/
lemma readFrom_endName {read : List Char}
    (hrest : ∀ c, rest.head? = some c → isNameChar c = false ∧ c ≠ ':') :
    readFrom ⟨kinds, .inName read, done, above⟩ offset rest =
      readFrom ⟨(kinds.intern (String.ofList read.reverse)).2,
        .atom ((kinds.intern (String.ofList read.reverse)).1, String.ofList read.reverse),
        done, above⟩ offset rest := by
  refine readFrom_congr rfl rfl fun c hc => ?_
  obtain ⟨hname, hcolon⟩ := hrest c hc
  simp [State.step, hname, hcolon, endToken, punctuate]

/-- A bare label ends before a character that cannot be part of it. -/
lemma readFrom_endLabel {kind : Kind} {read : List Char}
    (hrest : ∀ c, rest.head? = some c → isNameChar c = false) :
    readFrom ⟨kinds, .inLabel kind read, done, above⟩ offset rest =
      readFrom ⟨kinds, .atom (kind, String.ofList read.reverse), done, above⟩ offset rest := by
  refine readFrom_congr rfl rfl fun c hc => ?_
  simp [State.step, hrest c hc, endToken, punctuate]

/-- A quoted label is collected without its backslashes.

**Proof sketch.** Induction on the quoted label.  A plain character is collected in one step.  For
an escaped one the backslash changes the mode, and the next step collects the character, whatever it
is, and changes back. -/
lemma Quoted.readFrom_eq {label : List Char} (h : Quoted label v) {kind : Kind} {start : Nat}
    (read : List Char) :
    readFrom ⟨kinds, .inQuotes kind start read, done, above⟩ offset (v ++ rest) =
      readFrom ⟨kinds, .inQuotes kind start (label.reverse ++ read), done, above⟩
        (offset + bytes v) rest := by
  induction h generalizing offset read with
  | nil => rfl
  | plain c hquote hbackslash _ ih =>
    have hstep : State.step ⟨kinds, .inQuotes kind start read, done, above⟩ offset c =
        .ok ⟨kinds, .inQuotes kind start (c :: read), done, above⟩ := by
      simp [State.step, hquote, hbackslash]
    rw [List.cons_append, readFrom_cons hstep, ih, bytes_cons, Nat.add_assoc, List.reverse_cons,
      List.append_assoc]
    rfl
  | escaped c _ ih =>
    have hstep : State.step ⟨kinds, .inQuotes kind start read, done, above⟩ offset '\\' =
        .ok ⟨kinds, .escaped kind start read, done, above⟩ := rfl
    have hstep' : State.step ⟨kinds, .escaped kind start read, done, above⟩
        (offset + Char.utf8Size '\\') c =
          .ok ⟨kinds, .inQuotes kind start (c :: read), done, above⟩ := rfl
    rw [List.cons_append, List.cons_append, readFrom_cons hstep, readFrom_cons hstep', ih,
      bytes_cons, bytes_cons, Nat.add_assoc, Nat.add_assoc, List.reverse_cons, List.append_assoc]
    rfl

/-! ### What has a derivation is read -/

/-- The rest of a text does not go on with a name or a label. -/
def EndsToken (rest : List Char) : Prop :=
  ∀ c, rest.head? = some c → isNameChar c = false ∧ c ≠ ':'

/-- Behind blanks the rest of a text ends, or goes on with a comma or a closing parenthesis. -/
def EndsNode (rest : List Char) : Prop :=
  ∃ w r, rest = w ++ r ∧ Blanks w ∧ ∀ c, r.head? = some c → c = ',' ∨ c = ')'

/-- The state behind name and label of a node. -/
def behind (a : Spelling) (kinds : KindTable) (done : List (Rooted Content))
    (above : List OpenNode) : State :=
  ⟨(kinds.intern a.1).2, .atom ((kinds.intern a.1).1, a.2), done, above⟩

/-- Blanks do not belong to names. -/
lemma isNameChar_of_isBlank (hc : Text.isBlank c = true) : isNameChar c = false := by
  simp [isNameChar, hc]

/-- If a text does not go on with a name or a label, it does not do so behind blanks either. -/
lemma endsToken_blanks_append (hw : Blanks w) (hrest : EndsToken rest) : EndsToken (w ++ rest) := by
  cases w with
  | nil => exact hrest
  | cons c w =>
    intro d hd
    obtain rfl : c = d := by simpa using hd
    have hc := hw c (List.mem_cons_self ..)
    refine ⟨isNameChar_of_isBlank hc, ?_⟩
    rintro rfl
    exact absurd hc (by decide)

/-- A text that ends a node ends its name and label. -/
lemma EndsNode.endsToken (h : EndsNode rest) : EndsToken rest := by
  obtain ⟨w, r, rfl, hw, hr⟩ := h
  refine endsToken_blanks_append hw fun c hc => ?_
  rcases hr c hc with rfl | rfl <;> decide

/-- A name at the place where one is expected. -/
lemma IsName.readFrom_eq (hu : IsName u) :
    readFrom ⟨kinds, .name, done, above⟩ offset (u ++ rest) =
      readFrom ⟨kinds, .inName u.reverse, done, above⟩ (offset + bytes u) rest := by
  cases u with
  | nil => exact absurd rfl hu.1
  | cons c u =>
    obtain ⟨hc, hu⟩ := isName_cons_iff.1 hu
    have hstep : State.step ⟨kinds, .name, done, above⟩ offset c =
        .ok ⟨kinds, .inName [c], done, above⟩ := by
      simp [State.step, hc, (isNameChar_iff.1 hc).1]
    rw [List.cons_append, readFrom_cons hstep, readFrom_collect step_inName hu, bytes_cons,
      Nat.add_assoc, List.reverse_cons]

/-- A label behind a colon.

**Proof sketch.** The first character is none of a quotation, so that it opens a bare label, and the
others are collected. -/
lemma IsName.readFrom_label_eq {kind : Kind} (hv : IsName v) :
    readFrom ⟨kinds, .label kind, done, above⟩ offset (v ++ rest) =
      readFrom ⟨kinds, .inLabel kind v.reverse, done, above⟩ (offset + bytes v) rest := by
  cases v with
  | nil => exact absurd rfl hv.1
  | cons c v =>
    obtain ⟨hc, hv⟩ := isName_cons_iff.1 hv
    have hquote : c ≠ '"' := by
      rintro rfl
      exact absurd hc (by decide)
    have hstep : State.step ⟨kinds, .label kind, done, above⟩ offset c =
        .ok ⟨kinds, .inLabel kind [c], done, above⟩ := by
      simp [State.step, hc, hquote]
    rw [List.cons_append, readFrom_cons hstep, readFrom_collect step_inLabel hv, bytes_cons,
      Nat.add_assoc, List.reverse_cons]

/-- A colon behind a name. -/
lemma readFrom_colon {read : List Char} :
    readFrom ⟨kinds, .inName read, done, above⟩ offset (':' :: rest) =
      readFrom ⟨(kinds.intern (String.ofList read.reverse)).2,
        .label (kinds.intern (String.ofList read.reverse)).1, done, above⟩
        (offset + Char.utf8Size ':') rest :=
  readFrom_cons rfl

/-- A quotation mark behind a colon. -/
lemma readFrom_openQuote {kind : Kind} :
    readFrom ⟨kinds, .label kind, done, above⟩ offset ('"' :: rest) =
      readFrom ⟨kinds, .inQuotes kind offset [], done, above⟩ (offset + Char.utf8Size '"') rest :=
  readFrom_cons rfl

/-- A quotation mark ends the label that another one began. -/
lemma readFrom_closeQuote {kind : Kind} {start : Nat} {read : List Char} :
    readFrom ⟨kinds, .inQuotes kind start read, done, above⟩ offset ('"' :: rest) =
      readFrom ⟨kinds, .atom (kind, String.ofList read.reverse), done, above⟩
        (offset + Char.utf8Size '"') rest :=
  readFrom_cons rfl

/-- **Name and label of a node are read.**

**Proof sketch.** A name is read up to the first character that cannot be part of it.  If there is a
label, this is a colon, and the label is read in the same way, or up to its closing quote. -/
lemma Atom.readFrom_eq {a : Spelling} (h : Atom a u) (hrest : EndsToken rest) :
    readFrom ⟨kinds, .name, done, above⟩ offset (u ++ rest) =
      readFrom (behind a kinds done above) (offset + bytes u) rest := by
  cases h with
  | name hu =>
    rw [hu.readFrom_eq, readFrom_endName hrest, List.reverse_reverse]
    rfl
  | @bare u v hu hv =>
    rw [List.append_assoc, List.cons_append, hu.readFrom_eq, readFrom_colon, hv.readFrom_label_eq,
      readFrom_endLabel fun c hc => (hrest c hc).1, List.reverse_reverse, List.reverse_reverse,
      bytes_append, bytes_cons, Nat.add_assoc, Nat.add_assoc]
    rfl
  | @quoted u v label hu hv =>
    simp only [List.append_assoc, List.cons_append, List.nil_append, hu.readFrom_eq,
      readFrom_colon, List.reverse_reverse, readFrom_openQuote, hv.readFrom_eq,
      readFrom_closeQuote, List.append_nil, bytes_append, bytes_cons, bytes_nil, Nat.add_assoc,
      Nat.add_zero]
    rfl

/-- A node without children ends before a character that begins no list. -/
lemma readFrom_endAtom {content : Content}
    (hrest : ∀ c, rest.head? = some c → Text.isBlank c = false ∧ c ≠ '(') :
    readFrom ⟨kinds, .atom content, done, above⟩ offset rest =
      readFrom ⟨kinds, .after, ⟨content, .nil⟩ :: done, above⟩ offset rest := by
  refine readFrom_congr rfl rfl fun c hc => ?_
  obtain ⟨hblank, hopen⟩ := hrest c hc
  simp [State.step, descend, hblank, hopen, endAtom]

/-- A node without children may have blanks behind it. -/
lemma EndsNode.readFrom_endAtom {content : Content} (hrest : EndsNode rest) :
    readFrom ⟨kinds, .atom content, done, above⟩ offset rest =
      readFrom ⟨kinds, .after, ⟨content, .nil⟩ :: done, above⟩ offset rest := by
  obtain ⟨w, r, rfl, hw, hr⟩ := hrest
  rw [readFrom_blanks step_atom_blank hw, readFrom_blanks step_after_blank hw]
  refine Term.readFrom_endAtom fun c hc => ?_
  rcases hr c hc with rfl | rfl <;> decide

/-- An opening parenthesis begins a list of children. -/
lemma readFrom_open {content : Content} :
    readFrom ⟨kinds, .atom content, done, above⟩ offset ('(' :: rest) =
      readFrom ⟨kinds, .name, [], ⟨content, done⟩ :: above⟩ (offset + Char.utf8Size '(') rest :=
  readFrom_cons rfl

/-- A comma goes on with the next child. -/
lemma readFrom_comma {node : OpenNode} :
    readFrom ⟨kinds, .after, done, node :: above⟩ offset (',' :: rest) =
      readFrom ⟨kinds, .name, done, node :: above⟩ (offset + Char.utf8Size ',') rest :=
  readFrom_cons rfl

/-- A closing parenthesis makes a node of the finished trees. -/
lemma readFrom_close {node : OpenNode} :
    readFrom ⟨kinds, .after, done, node :: above⟩ offset (')' :: rest) =
      readFrom ⟨kinds, .after, ⟨node.content, gather done⟩ :: node.before, above⟩
        (offset + Char.utf8Size ')') rest :=
  readFrom_cons rfl

/-- A comma or a closing parenthesis ends a node, also behind blanks. -/
lemma endsNode_separator (hw : Blanks w) (hc : c = ',' ∨ c = ')') : EndsNode (w ++ c :: rest) := by
  refine ⟨w, c :: rest, rfl, hw, fun d hd => ?_⟩
  obtain rfl : c = d := by simpa using hd
  exact hc

/-- Nothing but blanks ends a node. -/
lemma endsNode_of_blanks (hw : Blanks w) : EndsNode w :=
  ⟨w, [], (List.append_nil w).symm, hw, nofun⟩

mutual

/-- **A node with a derivation is read**, whatever the machine has read before.

**Proof sketch.** By mutual recursion with `ListText.readFrom_eq`.  Name and label are read first,
then blanks.  For a leaf, what follows ends the node.  For a parent an opening parenthesis follows,
then the list of its children, and the closing parenthesis puts the node on top of what has been
read. -/
theorem NodeText.readFrom_eq {t : Rooted Spelling} {u : List Char} (h : NodeText t u)
    (kinds : KindTable) (done : List (Rooted Content)) (above : List OpenNode) (offset : Nat)
    {rest : List Char} (hrest : EndsNode rest) :
    readFrom ⟨kinds, .name, done, above⟩ offset (u ++ rest) =
      readFrom ⟨(assignTree t kinds).2, .after, (assignTree t kinds).1 :: done, above⟩
        (offset + bytes u) rest := by
  match h with
  | .leaf hatom hw =>
    have htoken := endsToken_blanks_append hw hrest.endsToken
    rw [List.append_assoc, hatom.readFrom_eq htoken, behind, readFrom_blanks step_atom_blank hw,
      hrest.readFrom_endAtom, bytes_append, Nat.add_assoc]
    rfl
  | @NodeText.parent a f u w v hatom hw hlist =>
    -- the parenthesis ends the token, so name and label are read up to it
    have htoken : EndsToken (w ++ '(' :: (v ++ ')' :: rest)) :=
      endsToken_blanks_append hw fun c hc => by
        obtain rfl : '(' = c := by simpa using hc
        decide
    simp only [List.append_assoc, List.cons_append, List.nil_append]
    rw [hatom.readFrom_eq htoken, behind, readFrom_blanks step_atom_blank hw, readFrom_open,
      hlist.readFrom_eq, readFrom_close, gather_stack]
    simp only [bytes_append, bytes_cons, bytes_nil, Nat.add_assoc, Nat.add_zero]
    rfl

/-- **A list with a derivation is read** up to the parenthesis behind it.

**Proof sketch.** By mutual recursion with `NodeText.readFrom_eq`.  The first tree of the list is
read together with the blanks around it; then the list is at its end, or a comma leads to the
rest. -/
theorem ListText.readFrom_eq {f : Forest Spelling} {v : List Char} (h : ListText f v)
    (kinds : KindTable) (done : List (Rooted Content)) (node : OpenNode) (above : List OpenNode)
    (offset : Nat) (rest : List Char) :
    readFrom ⟨kinds, .name, done, node :: above⟩ offset (v ++ ')' :: rest) =
      readFrom ⟨(assign f kinds).2, .after, stack (assign f kinds).1 done, node :: above⟩
        (offset + bytes v) (')' :: rest) := by
  match h with
  | @ListText.one t w u w' hw hnode hw' =>
    simp only [List.append_assoc]
    rw [readFrom_blanks step_name_blank hw,
      hnode.readFrom_eq _ _ _ _ (endsNode_separator hw' (.inr rfl)),
      readFrom_blanks step_after_blank hw']
    simp only [bytes_append, Nat.add_assoc]
    rfl
  | @ListText.more t f w u w' v hw hnode hw' hlist =>
    simp only [List.append_assoc, List.cons_append]
    rw [readFrom_blanks step_name_blank hw,
      hnode.readFrom_eq _ _ _ _ (endsNode_separator hw' (.inl rfl)),
      readFrom_blanks step_after_blank hw', readFrom_comma, hlist.readFrom_eq]
    simp only [bytes_append, bytes_cons, Nat.add_assoc]
    rfl

end

/-- **A text with a derivation is read.** -/
theorem TermText.readFrom_eq {t : Rooted Spelling} (h : TermText t cs) :
    readFrom (.start kinds) 0 cs = ((assignTree t kinds).2, .ok (assignTree t kinds).1) := by
  obtain ⟨w, u, w', rfl, hw, hnode, hw'⟩ := h
  rw [State.start, readFrom_blanks step_name_blank hw,
    hnode.readFrom_eq _ _ _ _ (endsNode_of_blanks hw'), ← List.append_nil w',
    readFrom_blanks step_after_blank hw']
  rfl

/-! ### What is read has a derivation -/

/-- Behind a finished tree a run only succeeds if blanks follow, and then the end of the text or,
within a list, a comma or a closing parenthesis.

**Proof sketch.** Induction on the text.  A blank is passed over.  Any other character is refused if
no node is open, and if one is open it is refused unless it is a comma or a closing parenthesis. -/
lemma exists_separator (h : readFrom ⟨kinds, .after, done, above⟩ offset cs =
    (kinds', .ok result)) :
    ∃ w r, cs = w ++ r ∧ Blanks w ∧ ((r = [] ∧ above = []) ∨
      ∃ c r' node outer, r = c :: r' ∧ (c = ',' ∨ c = ')') ∧ above = node :: outer) := by
  induction cs generalizing offset with
  | nil =>
    cases above with
    | nil => exact ⟨[], [], rfl, nofun, .inl ⟨rfl, rfl⟩⟩
    | cons node outer => cases h
  | cons c cs ih =>
    obtain ⟨q', hstep, h⟩ := exists_step_of_readFrom h
    by_cases hc : Text.isBlank c = true
    · rw [step_after_blank offset c hc] at hstep
      cases hstep
      obtain ⟨w, r, rfl, hw, hr⟩ := ih h
      exact ⟨c :: w, r, rfl, List.forall_mem_cons.2 ⟨hc, hw⟩, hr⟩
    · -- no blank: the character must separate, and for that a node has to be open
      refine ⟨[], c :: cs, rfl, nofun, .inr ?_⟩
      simp only [State.step, separate, hc, Bool.false_eq_true, ↓reduceIte] at hstep
      cases above with
      | nil => cases hstep
      | cons node outer =>
        refine ⟨c, cs, node, outer, rfl, ?_, rfl⟩
        by_contra hne
        rw [not_or] at hne
        simp [hne.1, hne.2] at hstep

/-- A finished tree stands where a node may end. -/
lemma endsNode_of_readFrom (h : readFrom ⟨kinds, .after, done, above⟩ offset cs =
    (kinds', .ok result)) : EndsNode cs := by
  obtain ⟨w, r, rfl, hw, ⟨rfl, -⟩ | ⟨c, r', -, -, rfl, hc, -⟩⟩ := exists_separator h
  · rw [List.append_nil]
    exact endsNode_of_blanks hw
  · exact endsNode_separator hw hc

/-- The longest beginning of a text with characters of one sort. -/
lemma exists_span (p : Char → Bool) (cs : List Char) :
    ∃ u rest, cs = u ++ rest ∧ (∀ c ∈ u, p c = true) ∧
      ∀ c, rest.head? = some c → p c = false := by
  refine ⟨cs.takeWhile p, cs.dropWhile p, (List.takeWhile_append_dropWhile ..).symm,
    List.all_eq_true.1 (List.all_takeWhile ..), fun c hc => ?_⟩
  have hhead := List.head?_dropWhile_not p cs
  rw [hc] at hhead
  exact hhead

/-- Where a name is expected, a run only succeeds if one follows, perhaps behind blanks.

**Proof sketch.** Blanks are passed over.  What comes next cannot be the end of the text, and it has
to be a character of names, or the run would fail there.  The name goes on as far as possible. -/
lemma exists_isName (h : readFrom ⟨kinds, .name, done, above⟩ offset cs =
    (kinds', .ok result)) :
    ∃ w u rest, cs = w ++ (u ++ rest) ∧ Blanks w ∧ IsName u ∧
      ∀ c, rest.head? = some c → isNameChar c = false := by
  obtain ⟨w, r, rfl, hw, hr⟩ := exists_span Text.isBlank cs
  rw [readFrom_blanks step_name_blank hw] at h
  cases r with
  | nil => cases h
  | cons c r =>
    obtain ⟨q', hstep, -⟩ := exists_step_of_readFrom h
    have hblank := hr c rfl
    have hc : isNameChar c = true := by
      by_contra hc
      simp [State.step, hblank, hc] at hstep
    obtain ⟨u, rest, rfl, hu, hrest⟩ := exists_span isNameChar r
    exact ⟨w, c :: u, rest, rfl, hw, isName_cons_iff.2 ⟨hc, hu⟩, hrest⟩

/-- Behind name and label of a node a run only succeeds if the token has ended. -/
lemma endsToken_of_readFrom {content : Content}
    (h : readFrom ⟨kinds, .atom content, done, above⟩ offset cs = (kinds', .ok result)) :
    EndsToken cs := by
  obtain ⟨w, r, rfl, hw, hr⟩ := exists_span Text.isBlank cs
  refine endsToken_blanks_append hw fun c hc => ?_
  rw [readFrom_blanks step_atom_blank hw] at h
  by_cases hopen : c = '('
  · subst hopen
    decide
  · have hhead : ∀ d, r.head? = some d → Text.isBlank d = false ∧ d ≠ '(' := fun d hd =>
      ⟨hr d hd, by rwa [← Option.some.inj (hc.symm.trans hd)]⟩
    rw [readFrom_endAtom hhead] at h
    exact (endsNode_of_readFrom h).endsToken c hc

/-- Within quotation marks a run only succeeds if they are closed.

**Proof sketch.** Induction on the text, for both modes at once: a backslash takes the machine to
the mode in which the next character is collected whatever it is. -/
lemma exists_quoted {kind : Kind} {start : Nat} {read : List Char} :
    (readFrom ⟨kinds, .inQuotes kind start read, done, above⟩ offset cs = (kinds', .ok result) →
      ∃ label v rest, cs = v ++ '"' :: rest ∧ Quoted label v) ∧
    (readFrom ⟨kinds, .escaped kind start read, done, above⟩ offset cs = (kinds', .ok result) →
      ∃ c label v rest, cs = c :: (v ++ '"' :: rest) ∧ Quoted label v) := by
  induction cs generalizing offset read with
  | nil => exact ⟨fun h => (by cases h), fun h => (by cases h)⟩
  | cons c cs ih =>
    refine ⟨fun h => ?_, fun h => ?_⟩
    · obtain ⟨q', hstep, h⟩ := exists_step_of_readFrom h
      simp only [State.step] at hstep
      split at hstep
      · next hquote =>
        exact ⟨[], [], cs, by rw [hquote]; rfl, .nil⟩
      · next hquote =>
        split at hstep
        · next hbackslash =>
          cases hstep
          obtain ⟨d, label, v, rest, rfl, hv⟩ := ih.2 h
          exact ⟨d :: label, '\\' :: d :: v, rest, by rw [hbackslash]; rfl, .escaped d hv⟩
        · next hbackslash =>
          cases hstep
          obtain ⟨label, v, rest, rfl, hv⟩ := ih.1 h
          exact ⟨c :: label, c :: v, rest, rfl, .plain c hquote hbackslash hv⟩
    · obtain ⟨q', hstep, h⟩ := exists_step_of_readFrom h
      cases hstep
      obtain ⟨label, v, rest, rfl, hv⟩ := ih.1 h
      exact ⟨c, label, v, rest, rfl, hv⟩

/-- **Where a name is expected, a run only succeeds if name and label of a node follow.**

**Proof sketch.** A run reads a name first.  If a colon follows, the run has to go on with a quote,
and then finds the closing one, or with a character of names, and then reads the longest label there
is.  If no colon follows, the name is all of the text of the node. -/
lemma exists_atom (h : readFrom ⟨kinds, .name, done, above⟩ offset cs = (kinds', .ok result)) :
    ∃ w u rest a, cs = w ++ (u ++ rest) ∧ Blanks w ∧ Atom a u ∧ EndsToken rest := by
  obtain ⟨w, u, rest, rfl, hw, hu, hrest⟩ := exists_isName h
  by_cases hcolon : rest.head? = some ':'
  · obtain ⟨r, rfl⟩ := List.head?_eq_some_iff.1 hcolon
    rw [readFrom_blanks step_name_blank hw, hu.readFrom_eq, readFrom_colon] at h
    -- behind a colon there has to be a label, quoted or bare
    cases r with
    | nil => cases h
    | cons c r =>
      by_cases hquote : c = '"'
      · subst hquote
        rw [readFrom_openQuote] at h
        obtain ⟨label, v, rest, rfl, hv⟩ := exists_quoted.1 h
        rw [hv.readFrom_eq, readFrom_closeQuote] at h
        exact ⟨w, _, rest, _, by simp, hw, .quoted hu hv, endsToken_of_readFrom h⟩
      · obtain ⟨q', hstep, -⟩ := exists_step_of_readFrom h
        have hc : isNameChar c = true := by
          by_contra hc
          simp [State.step, hquote, hc] at hstep
        obtain ⟨v, rest, rfl, hv, hend⟩ := exists_span isNameChar r
        have hlabel : IsName (c :: v) := isName_cons_iff.2 ⟨hc, hv⟩
        rw [← List.cons_append, hlabel.readFrom_label_eq, readFrom_endLabel hend] at h
        exact ⟨w, _, rest, _, by simp, hw, .bare hu hlabel, endsToken_of_readFrom h⟩
  · refine ⟨w, u, rest, _, rfl, hw, .name hu, fun c hc => ⟨hrest c hc, ?_⟩⟩
    rintro rfl
    exact hcolon hc

/-- Where a name is expected, a run only succeeds if a node follows, provided that runs over shorter
texts only succeed if the lists in them are complete.

**Proof sketch.** Name and label are read, and blanks behind them.  If a parenthesis follows, what
is inside is a list by assumption, and the node ends behind the closing one.  Otherwise the node is
a leaf. -/
lemma exists_nodeText_of
    (hlists : ∀ {r : List Char} {kinds : KindTable} {done : List (Rooted Content)}
      {node : OpenNode} {above : List OpenNode} {offset : Nat}, r.length < cs.length →
      readFrom ⟨kinds, .name, done, node :: above⟩ offset r = (kinds', .ok result) →
      ∃ v rest f, r = v ++ ')' :: rest ∧ ListText f v)
    (h : readFrom ⟨kinds, .name, done, above⟩ offset cs = (kinds', .ok result)) :
    ∃ w u rest t, cs = w ++ (u ++ rest) ∧ Blanks w ∧ NodeText t u ∧ EndsNode rest := by
  obtain ⟨w, u, rest, a, rfl, hw, hatom, htoken⟩ := exists_atom h
  rw [readFrom_blanks step_name_blank hw, hatom.readFrom_eq htoken, behind] at h
  obtain ⟨w', r, rfl, hw', hr⟩ := exists_span Text.isBlank rest
  rw [readFrom_blanks step_atom_blank hw'] at h
  by_cases hopen : r.head? = some '('
  · obtain ⟨r, rfl⟩ := List.head?_eq_some_iff.1 hopen
    rw [readFrom_open] at h
    obtain ⟨v, rest, f, rfl, hlist⟩ := hlists (by simp; omega) h
    rw [hlist.readFrom_eq, readFrom_close] at h
    exact ⟨w, _, rest, _, by simp, hw, .parent hatom hw' hlist, endsNode_of_readFrom h⟩
  · rw [readFrom_endAtom fun c hc => ⟨hr c hc, by rintro rfl; exact hopen hc⟩] at h
    exact ⟨w, _, r, _, by simp, hw, .leaf hatom hw', endsNode_of_readFrom h⟩

/-- **Within parentheses a run only succeeds if a list follows, and a closing parenthesis.**

**Proof sketch.** Strong induction on the length of the text.  A node follows, since the lists
within it are shorter than the text; behind it a parenthesis ends the list, or a comma goes on with
a shorter text. -/
theorem exists_listText {node : OpenNode}
    (h : readFrom ⟨kinds, .name, done, node :: above⟩ offset cs = (kinds', .ok result)) :
    ∃ v rest f, cs = v ++ ')' :: rest ∧ ListText f v := by
  induction hn : cs.length using Nat.strong_induction_on
    generalizing cs kinds done node above offset with
  | _ n ih =>
    subst hn
    obtain ⟨w, u, rest, t, rfl, hw, hnode, hend⟩ :=
      exists_nodeText_of (fun hlt hr => ih _ hlt hr rfl) h
    rw [readFrom_blanks step_name_blank hw, hnode.readFrom_eq _ _ _ _ hend] at h
    obtain ⟨w', r, rfl, hw', ⟨-, habove⟩ | ⟨c, r', -, -, rfl, hc, -⟩⟩ := exists_separator h
    · cases habove
    · rcases hc with rfl | rfl
      · rw [readFrom_blanks step_after_blank hw', readFrom_comma] at h
        obtain ⟨v, rest, f, rfl, hlist⟩ := ih r'.length (by simp; omega) h rfl
        exact ⟨_, rest, _, by simp, .more hw hnode hw' hlist⟩
      · exact ⟨_, r', _, by simp, .one hw hnode hw'⟩

/-- **A text that is read has a derivation.** -/
theorem exists_termText (h : readFrom (.start kinds) 0 cs = (kinds', .ok result)) :
    ∃ t, TermText t cs := by
  rw [State.start] at h
  obtain ⟨w, u, rest, t, rfl, hw, hnode, hend⟩ :=
    exists_nodeText_of (fun _ hr => exists_listText hr) h
  rw [readFrom_blanks step_name_blank hw, hnode.readFrom_eq _ _ _ _ hend] at h
  obtain ⟨w', r, rfl, hw', ⟨rfl, -⟩ | ⟨c, r', node, outer, -, -, habove⟩⟩ := exists_separator h
  · exact ⟨t, w, u, w', by simp, hw, hnode, hw'⟩
  · cases habove

end Term

/-! ### Trees -/

/-- Numbering the nodes keeps their contents. -/
lemma Forest.map_number {β : Type} (g : Kind × String → β) (f : Forest (Kind × String))
    (start : Nat) : (f.number start).1.map (fun n => g n.content) = f.map g := by
  induction f generalizing start with
  | nil => rfl
  | node a below next ihb ihn =>
    simp only [number, map, ihb, ihn]
    rfl

/-- Numbering keeps kinds and labels. -/
lemma Rooted.map_number {β : Type} (g : Kind × String → β) (t : Rooted (Kind × String)) :
    t.number.map (fun n => g n.content) = t.map g := by
  simp only [number, map, Forest.map_number]
  rfl

/-- Numbering lists the numbers consecutively in pre-order. -/
lemma Rooted.map_id_preOrder_number (t : Rooted (Kind × String)) :
    t.number.preOrder.map Node.id = List.range' 1 t.number.size := by
  simp [number, preOrder, size, Forest.map_id_preOrder_number, List.range'_succ]

open Term in
/-- **Reading follows the grammar.**  A text can be read as a tree exactly if it has a derivation.
The tree is then that of the derivation: the table of kinds has met its names in pre-order, every
node has the kind of its name in that table and the label that is written for it, and the nodes are
numbered `1, 2, 3, …` in pre-order.

**Proof sketch.** A text with a derivation is read as the tree of the derivation with kinds assigned
along pre-order, by `NodeText.readFrom_eq`.  Conversely the steps of a run that succeeds give a
derivation.  Numbering a tree changes neither kinds nor labels. -/
theorem reading_follows_grammar (kinds : KindTable) (text : String) :
    ((∃ tree, (Term.read kinds text).2 = .ok tree) ↔ ∃ t, TermText t text.toList) ∧
    ∀ t, TermText t text.toList →
      ∃ tree, Term.read kinds text = (kinds.internAll (t.preOrder.map Prod.fst), .ok tree) ∧
        tree.shape.map (fun n => (some n.kind, n.label)) =
          t.map (fun a => ((kinds.internAll (t.preOrder.map Prod.fst)).get? a.1, a.2)) ∧
        tree.preOrder = List.range' 1 tree.count := by
  have hread : ∀ t, TermText t text.toList →
      ∃ tree : Tree, Term.read kinds text = ((assignTree t kinds).2, .ok tree) ∧
        tree.shape = (assignTree t kinds).1.number := by
    intro t ht
    rw [Term.read, ht.readFrom_eq]
    exact ⟨_, rfl, rfl⟩
  refine ⟨⟨fun ⟨tree, h⟩ => ?_, fun ⟨t, ht⟩ => ?_⟩, fun t ht => ?_⟩
  · cases hrun : readFrom (.start kinds) 0 text.toList with
    | mk kinds' outcome =>
      cases outcome with
      | ok t => exact exists_termText hrun
      | error e =>
        rw [Term.read, hrun] at h
        cases h
  · obtain ⟨tree, h, -⟩ := hread t ht
    exact ⟨tree, congrArg Prod.snd h⟩
  · obtain ⟨tree, h, hshape⟩ := hread t ht
    rw [← assignTree_snd]
    refine ⟨tree, h, ?_, ?_⟩
    · rw [hshape, ← map_assignTree_fst]
      exact Rooted.map_number (fun c => (some c.1, c.2)) _
    · rw [Tree.preOrder_eq, Tree.count, hshape]
      exact Rooted.map_id_preOrder_number _

open Term in
/-- A text with blanks in many places and an escaped quotation mark: two children, the second with a
quoted label. -/
theorem quoted_label_is_read_without_backslash :
    let text := " a ( b , c:\"x\\\"y\" ) "
    let t : Rooted Spelling := ⟨("a", "a"), .node ("b", "b") .nil (.leaf ("c", "x\"y"))⟩
    let kinds := KindTable.empty.internAll ["a", "b", "c"]
    TermText t text.toList ∧
      ∃ tree, Term.read .empty text = (kinds, .ok tree) ∧
        tree.shape.map (fun n => (some n.kind, n.label)) =
          t.map (fun a => (kinds.get? a.1, a.2)) ∧
        tree.preOrder = List.range' 1 tree.count := by
  intro text t kinds
  have hname : ∀ c, isNameChar c = true → IsName [c] := fun c hc =>
    isName_cons_iff.2 ⟨hc, nofun⟩
  have hnone : Blanks [] := by simp [Blanks]
  have hblank : Blanks [' '] := by simp [Blanks, Text.isBlank, Text.blankRanges]
  have hb : NodeText ⟨("b", "b"), .nil⟩ (['b'] ++ [' ']) :=
    .leaf (.name (hname 'b' (by decide))) hblank
  have hc : NodeText ⟨("c", "x\"y"), .nil⟩
      ((['c'] ++ ':' :: '"' :: (['x', '\\', '"', 'y'] ++ ['"'])) ++ [' ']) :=
    .leaf (.quoted (hname 'c' (by decide))
      (.plain 'x' (by decide) (by decide) (.escaped '"' (.plain 'y' (by decide) (by decide) .nil))))
      hblank
  have hlist := ListText.more hblank hb hnone (.one hblank hc hnone)
  have ha := NodeText.parent (.name (hname 'a' (by decide))) hblank hlist
  have ht : TermText t text.toList := ⟨[' '], _, [' '], by decide +kernel, hblank, ha, hblank⟩
  exact ⟨ht, (reading_follows_grammar .empty text).2 t ht⟩

end TreeMatching
