import TreeMatching.Draft
import TreeMatching.Proofs.TermGrammar
import TreeMatching.Term.Writer

set_option autoImplicit false

/-!
# Written trees are read back

The text that is written for a tree can be read again, with the table of kinds it was written with.
The table then does not change, and the tree that is read differs from the one that was written in
nothing but the numbers of its nodes.  Labels may contain any characters: quotation marks,
backslashes, blanks and punctuation, or none at all.

## Main definitions

* `KindTable.Reached` — the tables that come about by meeting names and reading texts.
* `KindTable.Faithful` — a kind that stands for a name is the kind of that name.
* `Term.spelling` — what is written for a node.

## Main results

* `Term.exists_internAll_of_readFrom` — reading a text does to the table what meeting names does.
* `KindTable.Reached.faithful` — in a table that came about by meeting names and reading texts, a
  kind that stands for a name is the kind of that name.
* `Term.termText_write` — what is written for a tree has a derivation.
* `written_tree_is_read_back` — so it is read as the tree it was written for.

## Design

Nothing is said here about the machine that reads texts beyond what it does to the table: what it
reads follows from the derivation of the written text.
-/

namespace TreeMatching

/-! ### Tables that come about by meeting names -/

namespace KindTable

variable {t : KindTable}

/-- The tables that come about by meeting names and by reading texts, be they accepted or not. -/
inductive Reached : KindTable → Prop
  | empty : Reached .empty
  | intern {t : KindTable} (name : String) (before : Reached t) : Reached (t.intern name).2
  | read {t : KindTable} (text : String) (before : Reached t) : Reached (Term.read t text).1

/-- A kind that stands for a name is the kind of that name. -/
def Faithful (t : KindTable) : Prop := ∀ k name, t.name? k = some name → t.get? name = some k

/-- The empty table is faithful. -/
lemma faithful_empty : empty.Faithful := nofun

/-- **Meeting a name keeps a table faithful.**  A new name is put at the place that its kind counts.

**Proof sketch.** A name that stood in the table before is a different one, since the table knows it
and does not know the new name.  The only kind that counts the last place is the new one, however
many names there are. -/
lemma Faithful.intern (h : t.Faithful) (name : String) : (t.intern name).2.Faithful := by
  cases hname : t.get? name with
  | some k =>
    rw [intern_of_get?_eq_some hname]
    exact h
  | none =>
    intro k other hother
    simp only [KindTable.intern, hname, name?, Array.getElem?_push] at hother ⊢
    split at hother
    · next hlast =>
      obtain rfl := Option.some.inj hother
      simp only [get?, Std.HashMap.getElem?_insert_self, ← hlast, UInt32.ofNat_toNat]
    · have hold := h k other hother
      have hne : name ≠ other := by
        rintro rfl
        rw [hname] at hold
        cases hold
      simp only [get?, Std.HashMap.getElem?_insert, beq_iff_eq, hne, ↓reduceIte]
      exact hold

/-- Meeting several names keeps a table faithful. -/
lemma Faithful.internAll (h : t.Faithful) (names : List String) : (t.internAll names).Faithful := by
  induction names generalizing t with
  | nil => exact h
  | cons name names ih => exact ih (h.intern name)

/-- Two lists of names are met one after the other. -/
lemma internAll_append (t : KindTable) (names others : List String) :
    t.internAll (names ++ others) = (t.internAll names).internAll others :=
  List.foldl_append

/-- Meeting known names changes nothing. -/
lemma internAll_eq_self {names : List String} (h : ∀ name ∈ names, ∃ k, t.get? name = some k) :
    t.internAll names = t := by
  induction names with
  | nil => rfl
  | cons name names ih =>
    obtain ⟨⟨k, hk⟩, hnames⟩ := List.forall_mem_cons.1 h
    change (t.intern name).2.internAll names = t
    rw [intern_of_get?_eq_some hk]
    exact ih hnames

end KindTable

namespace Term

open State

variable {q q' : State} {offset : Nat} {c : Char}

/-! ### What reading does to the table -/

/-- Turning to the next tree meets no name. -/
lemma kinds_separate (h : q.separate c = .ok q') : q'.kinds = q.kinds := by
  unfold separate at h
  split at h
  · cases h
    rfl
  · split at h
    · cases h
    · split at h
      · cases h
        rfl
      · split at h <;> cases h
        rfl

/-- Ending name and label of a node meets no name. -/
lemma kinds_endAtom (q : State) : q.endAtom.kinds = q.kinds := by
  unfold endAtom
  split <;> rfl

/-- Turning to the children of a node meets no name. -/
lemma kinds_descend {content : Content} (h : q.descend content c = .ok q') :
    q'.kinds = q.kinds := by
  unfold descend at h
  split at h
  · cases h
    rfl
  · split at h
    · cases h
      rfl
    · exact (kinds_separate h).trans (kinds_endAtom q)

/-- Punctuation meets no name. -/
lemma kinds_punctuate (h : q.punctuate c = .ok q') : q'.kinds = q.kinds := by
  unfold punctuate at h
  split at h
  · exact kinds_descend h
  · exact kinds_separate h

/-- The end of a token makes the table meet at most one name. -/
lemma exists_internAll_endToken (q : State) :
    ∃ names, q.endToken.kinds = q.kinds.internAll names := by
  unfold endToken
  split
  · exact ⟨[_], rfl⟩
  · exact ⟨[], rfl⟩
  · exact ⟨[], rfl⟩

/-- A step of the machine makes the table meet at most one name.

**Proof sketch.** Case distinction on the mode.  Only the end of a name makes the table meet it, at
a colon or at a separator; in all other modes the table is passed on. -/
lemma exists_internAll_step (h : q.step offset c = .ok q') :
    ∃ names, q'.kinds = q.kinds.internAll names := by
  obtain ⟨kinds, mode, done, above⟩ := q
  cases mode with
  | inName read =>
    simp only [State.step] at h
    split at h
    · cases h
      exact ⟨[], rfl⟩
    · split at h
      · cases h
        exact ⟨[_], rfl⟩
      · obtain ⟨names, hnames⟩ := exists_internAll_endToken ⟨kinds, .inName read, done, above⟩
        exact ⟨names, (kinds_punctuate h).trans hnames⟩
  | inLabel kind read =>
    simp only [State.step] at h
    split at h
    · cases h
      exact ⟨[], rfl⟩
    · obtain ⟨names, hnames⟩ := exists_internAll_endToken ⟨kinds, .inLabel kind read, done, above⟩
      exact ⟨names, (kinds_punctuate h).trans hnames⟩
  | atom content => exact ⟨[], kinds_descend h⟩
  | after => exact ⟨[], kinds_separate h⟩
  | escaped kind start read =>
    cases h
    exact ⟨[], rfl⟩
  | name | label | inQuotes =>
    simp only [State.step] at h
    refine ⟨[], ?_⟩
    split at h
    · cases h
      rfl
    · split at h <;> cases h <;> rfl

/-- **Reading a text does to the table what meeting names does**, also if the text is refused.

**Proof sketch.** Induction on the text; each step adds at most one name to those that are met. -/
theorem exists_internAll_of_readFrom (q : State) (offset : Nat) (cs : List Char) :
    ∃ names, (readFrom q offset cs).1 = q.kinds.internAll names := by
  induction cs generalizing q offset with
  | nil => exact exists_internAll_endToken q
  | cons c cs ih =>
    rw [readFrom]
    split
    · next q' hstep =>
      obtain ⟨names, hnames⟩ := exists_internAll_step hstep
      obtain ⟨others, hothers⟩ := ih q' (offset + c.utf8Size)
      exact ⟨names ++ others, by rw [hothers, hnames, KindTable.internAll_append]⟩
    · exact exists_internAll_endToken q

/-- The table that is left after reading is that of the machine. -/
lemma read_fst (kinds : KindTable) (text : String) :
    (Term.read kinds text).1 = (readFrom (.start kinds) 0 text.toList).1 := by
  unfold Term.read
  dsimp only
  split <;> rfl

end Term

/-- **In a table that came about by meeting names and reading texts, a kind that stands for a name
is the kind of that name.** -/
theorem KindTable.Reached.faithful {t : KindTable} (h : t.Reached) : t.Faithful := by
  induction h with
  | empty => exact faithful_empty
  | intern name _ ih => exact ih.intern name
  | @read t text _ ih =>
    obtain ⟨names, hnames⟩ := Term.exists_internAll_of_readFrom (.start t) 0 text.toList
    rw [Term.read_fst, hnames]
    exact ih.internAll names

/-! ### What is written has a derivation -/

namespace Term

variable {kinds : KindTable} {n : Node}

/-- What is written for a node: the name of its kind, and its label. -/
def spelling (kinds : KindTable) (n : Node) : Spelling := (kindName kinds n.kind, n.label)

/-- A label is escaped as the grammar demands. -/
lemma quoted_escape (label : List Char) : Quoted label (escape label) := by
  induction label with
  | nil => exact .nil
  | cons c label ih =>
    rw [escape]
    split
    · exact .escaped c ih
    · next hc =>
      rw [not_or] at hc
      exact .plain c hc.1 hc.2 ih

/-- A text that is not empty and has characters of names only is a name. -/
lemma isName_of_all {u : List Char} (h : (u.all isNameChar && !u.isEmpty) = true) : IsName u := by
  rw [Bool.and_eq_true, List.all_eq_true] at h
  cases u with
  | nil => simp at h
  | cons c u => exact isName_cons_iff.2 (List.forall_mem_cons.1 h.1)

/-- **Name and label of a node are written as the grammar demands**: without the label, with a bare
one, or with a quoted one.

**Proof sketch.** Case distinction on how the label is written: not at all if it is empty, bare if
all its characters are characters of names, and in quotes otherwise.  Escaping makes any text a
quoted one. -/
lemma atom_nodeChars (h : IsName (kindName kinds n.kind).toList) :
    Atom (spelling kinds n) (nodeChars kinds n) := by
  have hname : String.ofList (kindName kinds n.kind).toList = kindName kinds n.kind :=
    String.ofList_toList
  have hlabel : String.ofList n.label.toList = n.label := String.ofList_toList
  unfold nodeChars labelChars
  dsimp only
  split
  · next heq =>
    have hatom := Atom.name h
    rw [hname] at hatom
    rwa [spelling, heq]
  · split
    · next hbare =>
      have hatom := Atom.bare h (isName_of_all hbare)
      rwa [hname, hlabel] at hatom
    · have hatom := Atom.quoted h (quoted_escape n.label.toList)
      rwa [hname, hlabel] at hatom

/-- What is written behind name and label of a node: nothing, or the list of its children. -/
def writeBelow (kinds : KindTable) (below : Forest Node) (rest : List Char) : List Char :=
  if below.isEmpty then rest else '(' :: write kinds below (')' :: rest)

/-- A node is written as the grammar demands, if the list of its children is.

**Proof sketch.** Without children only name and label are written.  Otherwise the list of the
children is written between parentheses. -/
lemma exists_nodeText_of_below {below : Forest Node}
    (hname : IsName (kindName kinds n.kind).toList)
    (hbelow : below.isEmpty = false → ∃ v, ListText (below.map (spelling kinds)) v ∧
      ∀ rest, write kinds below rest = v ++ rest) :
    ∃ u, NodeText ⟨spelling kinds n, below.map (spelling kinds)⟩ u ∧
      ∀ rest, nodeChars kinds n ++ writeBelow kinds below rest = u ++ rest := by
  have hatom := atom_nodeChars hname
  have hblanks : Blanks [] := List.forall_mem_nil _
  cases below with
  | nil =>
    refine ⟨_, .leaf hatom hblanks, fun rest => ?_⟩
    rw [List.append_nil]
    rfl
  | node m below next =>
    obtain ⟨v, hlist, hwrite⟩ := hbelow rfl
    refine ⟨_, .parent hatom hblanks hlist, fun rest => ?_⟩
    change nodeChars kinds n ++ '(' :: write kinds (.node m below next) (')' :: rest) = _
    rw [hwrite]
    simp

/-- **A list of trees is written as the grammar demands.**

**Proof sketch.** Induction on the forest: the first tree is a node over a list that is written as
the grammar demands, and so are the trees next to it, if there are any. -/
lemma exists_listText_write {f : Forest Node}
    (h : ∀ n ∈ f.preOrder, IsName (kindName kinds n.kind).toList) (hne : f.isEmpty = false) :
    ∃ v, ListText (f.map (spelling kinds)) v ∧ ∀ rest, write kinds f rest = v ++ rest := by
  induction f with
  | nil => cases hne
  | node n below next ihb ihn =>
    simp only [Forest.preOrder, List.forall_mem_cons, List.forall_mem_append] at h
    obtain ⟨hname, hbelow, hnext⟩ := h
    obtain ⟨u, hnode, hwrite⟩ := exists_nodeText_of_below hname (ihb hbelow)
    have hblanks : Blanks [] := List.forall_mem_nil _
    cases next with
    | nil =>
      refine ⟨_, .one hblanks hnode hblanks, fun rest => ?_⟩
      change nodeChars kinds n ++ writeBelow kinds below rest = _
      rw [hwrite, List.append_nil, List.nil_append]
    | node m below' next' =>
      obtain ⟨v, hlist, hwrite'⟩ := ihn hnext rfl
      refine ⟨_, .more hblanks hnode hblanks hlist, fun rest => ?_⟩
      change nodeChars kinds n ++
        writeBelow kinds below (',' :: write kinds (.node m below' next') rest) = _
      rw [hwrite, hwrite']
      simp

/-- **What is written for a tree has a derivation**, if the names of its kinds are names. -/
theorem termText_write {t : Rooted Node}
    (h : ∀ n ∈ t.preOrder, IsName (kindName kinds n.kind).toList) :
    TermText (t.map (spelling kinds)) (write kinds t.toForest []) := by
  obtain ⟨hroot, hbelow⟩ := List.forall_mem_cons.1 h
  obtain ⟨u, hnode, hwrite⟩ := exists_nodeText_of_below hroot (exists_listText_write hbelow)
  refine ⟨[], u, [], ?_, List.forall_mem_nil _, hnode, List.forall_mem_nil _⟩
  exact hwrite []

/-- What is written depends on kinds, labels and shape alone.

**Proof sketch.** Induction on the first forest; the second one has the same constructors.  Whether
parentheses and commas are written depends on which forests are empty, and this is the same on both
sides. -/
lemma write_eq_of_content {f g : Forest Node} (h : f.map Node.content = g.map Node.content)
    (rest : List Char) : write kinds f rest = write kinds g rest := by
  induction f generalizing g rest with
  | nil =>
    cases g with
    | nil => rfl
    | node => cases h
  | node n below next ihb ihn =>
    cases g with
    | nil => cases h
    | node m below' next' =>
      rw [Forest.map, Forest.map, Forest.node.injEq] at h
      obtain ⟨hcontent, hbelow, hnext⟩ := h
      have hempty : ∀ f g : Forest Node, f.map Node.content = g.map Node.content →
          f.isEmpty = g.isEmpty := by
        intro f g hfg
        cases f <;> cases g <;> first | rfl | cases hfg
      obtain ⟨hkind, hlabel⟩ := Prod.mk.inj hcontent
      have hchars : nodeChars kinds n = nodeChars kinds m := by
        rw [nodeChars, nodeChars, hkind, hlabel]
      simp only [write, hchars, hempty _ _ hbelow, hempty _ _ hnext, ihb hbelow, ihn hnext]

end Term

/-! ### Reading what is written -/

/-- A text with a derivation is read as the tree of the derivation, numbered in pre-order. -/
lemma Term.TermText.exists_read {t : Rooted Spelling} {text : String} (kinds : KindTable)
    (h : TermText t text.toList) :
    ∃ tree : Tree, Term.read kinds text = ((assignTree t kinds).2, .ok tree) ∧
      tree.shape = (assignTree t kinds).1.number := by
  rw [Term.read, h.readFrom_eq]
  exact ⟨_, rfl, rfl⟩

open Term in
/-- **A written tree is read back.**  Let a table have come about by meeting names and reading
texts, and let all kinds of a tree stand for names in it.  Then the text of the tree is read with
that table without changing it, the tree that is read has the same kinds, labels and shape, and its
text is the same again.

**Proof sketch.** The text has a derivation whose nodes carry the names of the kinds, so it is read
as a tree with the kinds of these names.  The table knows all the names, hence it does not change,
and it is faithful, hence each kind is the one that was written.  What is written depends on kinds,
labels and shape alone. -/
theorem written_tree_is_read_back (kinds : KindTable) (hkinds : kinds.Reached) (tree : Tree)
    (hnames : ∀ n ∈ tree.shape.preOrder,
      ∃ name, kinds.name? n.kind = some name ∧ IsName name.toList) :
    ∃ again : Tree, Term.read kinds (Term.text kinds tree) = (kinds, .ok again) ∧
      again.shape.map Node.content = tree.shape.map Node.content ∧
      Term.text kinds again = Term.text kinds tree := by
  have hknown : ∀ n ∈ tree.shape.preOrder, kinds.get? (kindName kinds n.kind) = some n.kind ∧
      IsName (kindName kinds n.kind).toList := by
    intro n hn
    obtain ⟨name, hname, hchars⟩ := hnames n hn
    rw [kindName, hname, Option.getD_some]
    exact ⟨hkinds.faithful _ _ hname, hchars⟩
  set t := tree.shape.map (spelling kinds) with ht
  have hderivation : TermText t (Term.text kinds tree).toList := by
    rw [Term.text, String.toList_ofList]
    exact termText_write fun n hn => (hknown n hn).2
  obtain ⟨again, hread, hshape⟩ := hderivation.exists_read kinds
  -- all names are known, so reading them does not change the table
  have htable : (assignTree t kinds).2 = kinds := by
    rw [assignTree_snd]
    refine KindTable.internAll_eq_self fun name hname => ?_
    rw [ht, Rooted.preOrder_map, List.map_map, List.mem_map] at hname
    obtain ⟨n, hn, rfl⟩ := hname
    exact ⟨n.kind, (hknown n hn).1⟩
  -- under its name every kind is found again
  have hkept : again.shape.map (fun n => (some n.kind, n.label)) =
      tree.shape.map fun n => (some n.kind, n.label) := by
    calc again.shape.map (fun n => (some n.kind, n.label))
        = (assignTree t kinds).1.map fun c => (some c.1, c.2) := by
          rw [hshape]
          exact Rooted.map_number (fun c => (some c.1, c.2)) _
      _ = t.map fun a => (kinds.get? a.1, a.2) := by rw [map_assignTree_fst, htable]
      _ = tree.shape.map fun n => (some n.kind, n.label) := by
          rw [ht, Rooted.map_map]
          refine Rooted.map_congr fun n hn => ?_
          rw [spelling, (hknown n hn).1]
  have hcontent : again.shape.map Node.content = tree.shape.map Node.content := by
    have h := congrArg (Rooted.map fun x : Option Kind × String => (x.1.getD default, x.2)) hkept
    rwa [Rooted.map_map, Rooted.map_map] at h
  have hforest : again.shape.toForest.map Node.content = tree.shape.toForest.map Node.content := by
    rw [Rooted.toForest, Rooted.toForest, Forest.map, Forest.map]
    exact congrArg (fun r => Forest.node r.root r.below .nil) hcontent
  refine ⟨again, by rw [hread, htable], hcontent, ?_⟩
  rw [Term.text, Term.text, write_eq_of_content hforest]

open Term in
/-- A tree whose nodes are not numbered in pre-order, with labels that need quotation marks: one is
empty, and one consists of a quotation mark, a backslash, a blank and a parenthesis. -/
theorem tree_with_odd_labels_is_read_back :
    let kinds := ((KindTable.empty.intern "call").2.intern "arg").2
    let rows := [(1, ⟨1⟩, ""), (1, ⟨1⟩, "arg"), (2, ⟨0⟩, "\"\\ (")]
    ∃ draft, Draft.ofRows ⟨0⟩ "f" rows = .ok draft ∧
      draft.build.preOrder = [1, 2, 4, 3] ∧
      kinds.Reached ∧
      (∀ n ∈ draft.build.shape.preOrder,
        ∃ name, kinds.name? n.kind = some name ∧ IsName name.toList) ∧
      ∃ again : Tree, Term.read kinds (Term.text kinds draft.build) = (kinds, .ok again) ∧
        again.shape.map Node.content = draft.build.shape.map Node.content ∧
        Term.text kinds again = Term.text kinds draft.build := by
  intro kinds rows
  have hnames : kinds.names = #["call", "arg"] := by
    simp [kinds, KindTable.intern, KindTable.get?, KindTable.empty]
  have hreached : kinds.Reached := .intern "arg" (.intern "call" .empty)
  obtain ⟨draft, hdraft, hpre, hkinds⟩ : ∃ draft, Draft.ofRows ⟨0⟩ "f" rows = .ok draft ∧
      draft.build.preOrder = [1, 2, 4, 3] ∧
      ∀ n ∈ draft.build.shape.preOrder, n.kind = ⟨0⟩ ∨ n.kind = ⟨1⟩ :=
    ⟨_, rfl, by decide +kernel, by decide +kernel⟩
  have hnodes : ∀ n ∈ draft.build.shape.preOrder,
      ∃ name, kinds.name? n.kind = some name ∧ IsName name.toList := by
    intro n hn
    rw [KindTable.name?, hnames]
    rcases hkinds n hn with hkind | hkind <;> rw [hkind]
    · exact ⟨"call", rfl, isName_of_all (by decide +kernel)⟩
    · exact ⟨"arg", rfl, isName_of_all (by decide +kernel)⟩
  exact ⟨draft, hdraft, hpre, hreached, hnodes,
    written_tree_is_read_back kinds hreached draft.build hnodes⟩

end TreeMatching
