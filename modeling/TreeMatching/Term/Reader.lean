import TreeMatching.Tree
import TreeMatching.Text.Blank

/-!
# Reading trees from text

A tree is written as a term: `a(b(c,d),e:"two words")` is a node of kind `a` over two children.
A label follows its kind after a colon, bare or in quotation marks; without one the name of the
kind is the label too.  Blanks may surround names and punctuation, but not the colon.

The text is read one character at a time by a machine with a stack of the nodes that are still
open.  Every character either takes the machine to its next state or is refused; a text is refused
at the first character that no tree could have there.

## Main definitions

* `Term.isNameChar` — the characters of names.
* `Term.Mode`, `Term.State` — where the machine stands, and what it has read.
* `Term.State.step`, `Term.State.finish` — one character, and the end of the text.
* `Term.read` — reads a tree with the help of a table of kinds.

## Design

A name enters the table of kinds as soon as its end is seen.  It stays there if a later character
is refused, so `Term.read` returns the table in both cases.
-/

set_option autoImplicit false

namespace TreeMatching.Term

/-- The characters that structure a term. -/
def punctuation : List Char := ['(', ')', ',', ':', '"']

/-- Whether a character can be part of a name: all but blanks and punctuation can. -/
def isNameChar (c : Char) : Bool := !Text.isBlank c && !punctuation.contains c

/-- What a node shows: its kind and its label. -/
abbrev Content := Kind × String

/-- A node whose children are being read, with its finished left siblings, last one first. -/
structure OpenNode where
  content : Content
  before : List (Rooted Content)

/-- What the next character can continue.  Characters read so far are kept in reverse. -/
inductive Mode where
  /-- A name has to begin. -/
  | name
  /-- Within the name of a kind. -/
  | inName (read : List Char)
  /-- Right behind a colon. -/
  | label (kind : Kind)
  /-- Within a bare label. -/
  | inLabel (kind : Kind) (read : List Char)
  /-- Within a quoted label, which began at the byte `start`. -/
  | inQuotes (kind : Kind) (start : Nat) (read : List Char)
  /-- Within a quoted label, right behind a backslash. -/
  | escaped (kind : Kind) (start : Nat) (read : List Char)
  /-- Behind kind and label of a node; a list of children may begin. -/
  | atom (content : Content)
  /-- Behind a finished tree. -/
  | after

/-- The state of the machine: the kinds met so far, the mode, the finished trees on the current
level (last one first), and the open nodes (innermost first). -/
structure State where
  kinds : KindTable
  mode : Mode
  done : List (Rooted Content)
  above : List OpenNode

namespace State

/-- The state before the first character. -/
def start (kinds : KindTable) : State := ⟨kinds, .name, [], []⟩

/-- Ends a name or bare label that the next character does not continue. -/
def endToken (q : State) : State :=
  match q.mode with
  | .inName read =>
    let name := String.ofList read.reverse
    let (kind, kinds) := q.kinds.intern name
    { q with kinds, mode := .atom (kind, name) }
  | .inLabel kind read => { q with mode := .atom (kind, String.ofList read.reverse) }
  | _ => q

/-- Ends a node behind which no list of children begins. -/
def endAtom (q : State) : State :=
  match q.mode with
  | .atom content => { q with mode := .after, done := ⟨content, .nil⟩ :: q.done }
  | _ => q

/-- The forest of the finished trees, which are listed last one first. -/
def gather (done : List (Rooted Content)) : Forest Content :=
  done.foldl (fun next t => .node t.root t.below next) .nil

/-- A character behind a finished tree. -/
def separate (q : State) (c : Char) : Except SyntaxProblem State :=
  if Text.isBlank c then .ok q
  else
    match q.above with
    | [] => .error (.trailing c)
    | node :: above =>
      if c = ',' then .ok { q with mode := .name }
      else if c = ')' then
        .ok { q with above, done := ⟨node.content, gather q.done⟩ :: node.before }
      else .error (.separatorExpected c)

/-- A character behind the kind and label of a node. -/
def descend (q : State) (content : Content) (c : Char) : Except SyntaxProblem State :=
  if Text.isBlank c then .ok q
  else if c = '(' then
    .ok { q with mode := .name, done := [], above := ⟨content, q.done⟩ :: q.above }
  else q.endAtom.separate c

/-- A character behind a token that it does not continue. -/
def punctuate (q : State) (c : Char) : Except SyntaxProblem State :=
  match q.mode with
  | .atom content => q.descend content c
  | _ => q.separate c

/-- Reads one character; `offset` counts the bytes before it. -/
def step (q : State) (offset : Nat) (c : Char) : Except SyntaxProblem State :=
  match q.mode with
  | .name =>
    if Text.isBlank c then .ok q
    else if isNameChar c then .ok { q with mode := .inName [c] }
    else .error (.nameExpected (some c))
  | .inName read =>
    if isNameChar c then .ok { q with mode := .inName (c :: read) }
    else if c = ':' then
      let (kind, kinds) := q.kinds.intern (String.ofList read.reverse)
      .ok { q with kinds, mode := .label kind }
    else q.endToken.punctuate c
  | .label kind =>
    if c = '"' then .ok { q with mode := .inQuotes kind offset [] }
    else if isNameChar c then .ok { q with mode := .inLabel kind [c] }
    else .error (.nameExpected (some c))
  | .inLabel kind read =>
    if isNameChar c then .ok { q with mode := .inLabel kind (c :: read) }
    else q.endToken.punctuate c
  | .inQuotes kind start read =>
    if c = '"' then .ok { q with mode := .atom (kind, String.ofList read.reverse) }
    else if c = '\\' then .ok { q with mode := .escaped kind start read }
    else .ok { q with mode := .inQuotes kind start (c :: read) }
  | .escaped kind start read => .ok { q with mode := .inQuotes kind start (c :: read) }
  | .atom content => q.descend content c
  | .after => q.separate c

/-- The end of the text, after `offset` bytes: the tree that was read, or the problem and the byte
at which it is reported. -/
def finish (q : State) (offset : Nat) : Except (Nat × SyntaxProblem) (Rooted Content) :=
  let q := q.endToken.endAtom
  match q.mode with
  | .inQuotes _ start _ | .escaped _ start _ => .error (start, .unterminatedLabel)
  | .after =>
    match q.above, q.done with
    | [], t :: _ => .ok t
    | _, _ => .error (offset, .unclosedList)
  | _ => .error (offset, .nameExpected none)

end State

/-- Reads the rest of a text, of which `offset` bytes have been read before, and returns the kinds
met together with the tree or the problem. -/
def readFrom : State → Nat → List Char →
    KindTable × Except (Nat × SyntaxProblem) (Rooted Content)
  | q, offset, [] => (q.endToken.kinds, q.finish offset)
  | q, offset, c :: cs =>
    match q.step offset c with
    | .ok q => readFrom q (offset + c.utf8Size) cs
    | .error problem => (q.endToken.kinds, .error (offset, problem))

/-- Reads a text as a tree whose nodes are numbered in pre-order.  The table of kinds grows by the
names that were read, also when the text turns out not to be a tree. -/
def read (kinds : KindTable) (text : String) : KindTable × Except Fault Tree :=
  let (kinds, result) := readFrom (.start kinds) 0 text.toList
  match result with
  | .ok t => (kinds, .ok (.ofShape t.number t.numbered_number (some {})))
  | .error (offset, problem) => (kinds, .error (.syntaxAt offset problem))

end TreeMatching.Term
