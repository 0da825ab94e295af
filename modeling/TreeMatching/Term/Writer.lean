import TreeMatching.Term.Reader

/-!
# Writing trees as text

The inverse of reading: a node is written as the name of its kind, its label if that differs from
the name, and its children in parentheses.

## Main definitions

* `Term.labelChars` — a label, in quotation marks if it needs them.
* `Term.nodeChars` — kind and label of a node.
* `Term.write`, `Term.text` — a forest in front of further text, and the text of a tree.
-/

set_option autoImplicit false

namespace TreeMatching.Term

/-- A label within quotation marks: a backslash goes before every quotation mark and every
backslash. -/
def escape : List Char → List Char
  | [] => []
  | c :: cs => if c = '"' ∨ c = '\\' then '\\' :: c :: escape cs else c :: escape cs

/-- A label as it follows a colon: bare if it could be a name, else in quotation marks. -/
def labelChars (label : List Char) : List Char :=
  if label.all isNameChar && !label.isEmpty then label else '"' :: (escape label ++ ['"'])

/-- The name that stands for a kind. -/
def kindName (kinds : KindTable) (kind : Kind) : String := (kinds.name? kind).getD kind.text

/-- Kind and label of a node; a label equal to the name of the kind is left out. -/
def nodeChars (kinds : KindTable) (n : Node) : List Char :=
  let name := kindName kinds n.kind
  if n.label = name then name.toList else name.toList ++ ':' :: labelChars n.label.toList

/-- Writes the trees of a forest, separated by commas, in front of `rest`. -/
def write (kinds : KindTable) : Forest Node → List Char → List Char
  | .nil, rest => rest
  | .node n below next, rest =>
    let rest := if next.isEmpty then rest else ',' :: write kinds next rest
    nodeChars kinds n ++ if below.isEmpty then rest else '(' :: write kinds below (')' :: rest)

/-- The text of a tree. -/
def text (kinds : KindTable) (t : Tree) : String :=
  String.ofList (write kinds t.shape.toForest [])

end TreeMatching.Term
