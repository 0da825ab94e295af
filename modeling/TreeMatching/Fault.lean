import TreeMatching.Node
import TreeMatching.Text.Decimal

/-!
# What can go wrong

Every failure of the library is a value that says what its cause was.  The wording of all messages
is in one place, `Fault.message`.

## Main definitions

* `SyntaxProblem` — why a text is not a tree.
* `SettingProblem` — why settings, names of stages or parameters of a measure are refused.
* `Capability` — what a tree may be unable to tell about its nodes.
* `Fault` — any failure, with `Fault.message`.
-/

set_option autoImplicit false

namespace TreeMatching

/-- Why a text is not the text of a tree. -/
inductive SyntaxProblem where
  /-- The tree is complete, and this character follows. -/
  | trailing (found : Char)
  /-- A name has to begin here; `none` stands for the end of the text. -/
  | nameExpected (found : Option Char)
  /-- A child is complete, and this character neither separates it nor ends the list. -/
  | separatorExpected (found : Char)
  /-- The text ends inside a list of children. -/
  | unclosedList
  /-- The text ends inside a quoted label. -/
  | unterminatedLabel
deriving DecidableEq, Inhabited

/-- The message of a syntax problem. -/
def SyntaxProblem.message : SyntaxProblem → String
  | trailing c => s!"trailing `{c}`"
  | nameExpected (some c) => s!"expected a name, found `{c}`"
  | nameExpected none => "expected a name, found end of input"
  | separatorExpected c => s!"expected `,` or `)`, found `{c}`"
  | unclosedList => "unclosed `(`"
  | unterminatedLabel => "unterminated string"

/-- Why a setting is refused. -/
inductive SettingProblem where
  /-- A threshold is not a number between zero and one. -/
  | threshold (name : String) (value : Float)
  /-- The two weights of a leaf score are not both non-negative with a positive sum. -/
  | weights (similarity position : Float)
  /-- The cost of relabelling is negative or not finite. -/
  | relabelCost (value : Float)
  /-- A stage is to be split into no parts at all. -/
  | noWorkers
  /-- The size of an n-gram is zero. -/
  | gramSize
  /-- The number of characters looked at is zero. -/
  | gramWindow
  /-- The spread of the numeric measure is not positive and finite. -/
  | spread (value : Float)
  /-- No stage has this name. -/
  | unknownStage (name : String)
  /-- No preset has this name. -/
  | unknownPreset (name : String)
  /-- A list of stage names is empty. -/
  | emptyPlan
  /-- Two trees are too large for an exact edit distance. -/
  | tooLarge (srcNodes dstNodes limit : Nat)
deriving Inhabited

/-- The message of a setting problem. -/
def SettingProblem.message : SettingProblem → String
  | threshold name value => name ++ " must be within [0, 1], got " ++ Text.decimal value
  | weights similarity position =>
    "optimized weights must be non-negative with a positive sum, got " ++ Text.decimal similarity
      ++ " and " ++ Text.decimal position
  | relabelCost value =>
    "relabel_cost must be a finite non-negative number, got " ++ Text.decimal value
  | noWorkers => "workers must be at least 1"
  | gramSize => "n-gram size must be at least 1"
  | gramWindow => "n-gram window must be at least 1"
  | spread value => "gaussian sigma must be positive and finite, got " ++ Text.decimal value
  | unknownStage name => s!"unknown stage `{name}`"
  | unknownPreset name => s!"unknown preset `{name}`"
  | emptyPlan => "empty stage list"
  | tooLarge n m limit => s!"optimal matcher: {n} x {m} nodes exceeds the limit of {limit} cells"

/-- What a tree may be unable to tell about its nodes. -/
inductive Capability where
  /-- Where a node stands in a source text. -/
  | span
  /-- Further texts attached to a node. -/
  | metadata
deriving DecidableEq, Inhabited

/-- The name of a capability. -/
def Capability.name : Capability → String
  | span => "span"
  | metadata => "metadata"

/-- A failure, by its cause. -/
inductive Fault where
  /-- Settings or names are refused. -/
  | setting (problem : SettingProblem)
  /-- A pair cannot be linked because one of its nodes already has a partner. -/
  | conflict (src dst : NodeId)
  /-- A pair cannot be unlinked because it is not linked. -/
  | notLinked (src dst : NodeId)
  /-- A node number does not occur in the tree. -/
  | foreignNode (id : NodeId)
  /-- A text is not a tree; `offset` counts the bytes before the place of the problem. -/
  | syntaxAt (offset : Nat) (problem : SyntaxProblem)
  /-- The tree does not know what it is asked for. -/
  | unsupported (capability : Capability)
  /-- Part `shard` of a divided stage broke down, with the text it left, if any. -/
  | worker (shard : Nat) (note : Option String)
deriving Inhabited

/-- The message of a failure. -/
def Fault.message : Fault → String
  | setting problem => "invalid configuration: " ++ problem.message
  | conflict src dst => s!"cannot link {src} -> {dst}: one of the nodes is already mapped"
  | notLinked src dst => s!"mapping {src} -> {dst} does not exist"
  | foreignNode id => s!"malformed input: node {id} does not belong to this tree"
  | syntaxAt offset problem =>
    s!"malformed input: notation error at byte {offset}: " ++ problem.message
  | unsupported capability => "tree does not support the `" ++ capability.name ++ "` capability"
  | worker shard note =>
    s!"worker shard {shard} failed: " ++ note.getD "non-string panic payload"

end TreeMatching
