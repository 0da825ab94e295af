import TreeMatching.Label.Gaussian
import TreeMatching.Label.Grams

/-!
# Similarity of labels

What the label of a node means depends on the kind of the node: a number, a word, one of a few
fixed values.  `LabelRules` say so for each kind, and a `LabelComparer` compares the labels of two
nodes accordingly.

## Main definitions

* `Comparison` — the ways in which labels are compared.
* `LabelRules` — the way for each kind, and kinds with a special role.
* `Memo` — similarities of texts that are already known.
* `LabelComparer.compare`, `LabelComparer.compareMemo` — the similarity of two labels, without and
  with a memo.
-/

set_option autoImplicit false

namespace TreeMatching

/-- How two labels of the same kind are compared. -/
inductive Comparison where
  /-- Equal or not; how bad a difference is depends on the place of the nodes. -/
  | value
  /-- As real numerals. -/
  | real
  /-- As integer numerals. -/
  | integer
  /-- As texts, by their n-grams. -/
  | text
  /-- As truth values: a difference counts half. -/
  | boolean
  /-- Not at all: any two labels are similar. -/
  | ignore
deriving DecidableEq, Inhabited

/-- What the library has to know about kinds. -/
structure LabelRules where
  /-- How labels are compared, for each kind for which they are. -/
  comparisons : Std.HashMap Kind Comparison := {}
  /-- The kind of identifiers. -/
  identifierKind : Option Kind := none
  /-- The kind of the root of a whole document. -/
  rootKind : Option Kind := none
  /-- The kind of class declarations. -/
  classKind : Option Kind := none
  /-- The kind of qualified names. -/
  qualifierKind : Option Kind := none
  /-- The kind of names of basic types. -/
  basicKind : Option Kind := none

namespace LabelRules

/-- How labels of a kind are compared; kinds without a rule have labels that do not matter. -/
def comparison (r : LabelRules) (k : Kind) : Comparison := (r.comparisons[k]?).getD .ignore

/-- The rules under which the labels of the given kinds are compared in the given way. -/
def classify (r : LabelRules) (c : Comparison) (kinds : List Kind) : LabelRules :=
  { r with comparisons := kinds.foldl (fun m k => m.insert k c) r.comparisons }

end LabelRules

/-- Similarities that are already known, by the two texts in their order. -/
structure Memo where
  entries : Std.HashMap (String × String) Float := {}

namespace Memo

/-- The memo in which nothing is known. -/
def empty : Memo := {}

/-- The number of known similarities. -/
def size (m : Memo) : Nat := m.entries.size

/-- Whether nothing is known. -/
def isEmpty (m : Memo) : Bool := m.size == 0

/-- The known similarity of two texts, or else the given one, which is known from now on. -/
def fetch (m : Memo) (a b : String) (compute : Unit → Float) : Float × Memo :=
  match m.entries[(a, b)]? with
  | some x => (x, m)
  | none =>
    let x := compute ()
    (x, ⟨m.entries.insert (a, b) x⟩)

/-- What is known in either of two memos; where they differ, the second is right. -/
def merge (m other : Memo) : Memo :=
  ⟨other.entries.fold (fun entries key x => entries.insert key x) m.entries⟩

end Memo

/-- Whether two labels belong to leaves or to inner nodes. -/
inductive Place where
  | leaf
  | inner
deriving DecidableEq, Inhabited

/-- Compares labels by the rules for their kinds. -/
structure LabelComparer where
  /-- The rules. -/
  rules : LabelRules
  /-- The measure for texts. -/
  texts : GramMeasure := .bigrams
  /-- The measure for numerals. -/
  numbers : GaussianMeasure := .standard
  /-- The similarity of different values at leaves. -/
  leafMismatch : Float := 0.0
  /-- The similarity of different values at inner nodes. -/
  innerMismatch : Float := 0.2

namespace LabelComparer

/-- The similarity of two different values. -/
def mismatch (c : LabelComparer) : Place → Float
  | .leaf => c.leafMismatch
  | .inner => c.innerMismatch

/-- The similarity of two labels of the same kind. -/
def apply (c : LabelComparer) (place : Place) (a b : String) : Comparison → Float
  | .value => if a = b then 1.0 else c.mismatch place
  | .real => c.numbers.compareReals a b
  | .integer => c.numbers.compareIntegers a b
  | .text => c.texts.similarity a b
  | .boolean => if a = b then 1.0 else 0.5
  | .ignore => 1.0

/-- The similarity of the labels `a` and `b` of nodes of the given kinds; labels of different
kinds are not similar at all. -/
def compare (c : LabelComparer) (place : Place) (kind : Kind) (a : String) (kind' : Kind)
    (b : String) : Float :=
  if kind = kind' then c.apply place a b (c.rules.comparison kind) else 0.0

/-- The same similarity, with the help of a memo for texts. -/
def compareMemo (c : LabelComparer) (place : Place) (kind : Kind) (a : String) (kind' : Kind)
    (b : String) (memo : Memo) : Float × Memo :=
  if kind = kind' then
    match c.rules.comparison kind with
    | .text => memo.fetch a b fun _ => c.texts.similarity a b
    | comparison => (c.apply place a b comparison, memo)
  else (0.0, memo)

end LabelComparer

end TreeMatching
