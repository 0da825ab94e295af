import TreeMatching.Stage.BestFit
import TreeMatching.Stage.FirstFit
import TreeMatching.Stage.Identical
import TreeMatching.Stage.LabelAware
import TreeMatching.Stage.LeafMoves
import TreeMatching.Stage.LeastEdit
import TreeMatching.Stage.Leaves
import TreeMatching.Stage.OrphanLeaves
import TreeMatching.Stage.ParentVote
import TreeMatching.Stage.Realign
import TreeMatching.Stage.TopDown
import TreeMatching.Text.Blank

/-!
# Stages

All matching stages under their names.

## Main definitions

* `Stage` — the stages; `Stage.name`, `Stage.ofName` — their names.
* `Stage.run` — the computation of a stage.
* `Outcome`, `Stage.perform` — what a stage makes of a pairing.
-/

set_option autoImplicit false

namespace TreeMatching

/-- The matching stages. -/
inductive Stage where
  /-- Identical subtrees anywhere. -/
  | identical
  /-- Identical subtrees from the top down. -/
  | topDown
  /-- Inner nodes with the best overlap, then leaves. -/
  | bestFit
  /-- Leaves with similar labels. -/
  | leaves
  /-- Leaves with similar labels, in parts. -/
  | leavesSharded
  /-- Inner nodes with enough overlap. -/
  | firstFit
  /-- Leaves and inner nodes by the meaning of their labels. -/
  | labelAware
  /-- The mapping of an optimal edit script. -/
  | leastEdit
  /-- Free nodes below linked nodes. -/
  | realign
  /-- The three repairs that follow, one after the other. -/
  | repair
  /-- Free leaves under linked parents. -/
  | orphanLeaves
  /-- Parents by the votes of their children. -/
  | parentVote
  /-- Linked leaves with different labels. -/
  | leafMoves
deriving DecidableEq, Inhabited

namespace Stage

/-- All stages. -/
def all : List Stage :=
  [identical, topDown, bestFit, leaves, leavesSharded, firstFit, labelAware, leastEdit, realign,
    repair, orphanLeaves, parentVote, leafMoves]

/-- The name of a stage. -/
def name : Stage → String
  | identical => "identical"
  | topDown => "gt-subtree"
  | bestFit => "gt-bottom-up"
  | leaves => "cd-leaves"
  | leavesSharded => "cd-leaves-par"
  | firstFit => "cd-bottom-up"
  | labelAware => "cd-opt"
  | leastEdit => "rted"
  | realign => "lcs"
  | repair => "repair"
  | orphanLeaves => "orphan-leaves"
  | parentVote => "parent-repair"
  | leafMoves => "leaf-moves"

/-- Further names of stages. -/
def aliases : List (String × Stage) :=
  [("leaves", leaves), ("bottom-up", firstFit), ("optimal", leastEdit), ("optimized", labelAware)]

/-- The stage of a name; blanks around it do not matter. -/
def ofName (text : String) : Except Fault Stage :=
  let text := Text.trim text
  match (aliases.lookup text).orElse fun _ => all.find? fun s => s.name == text with
  | some stage => .ok stage
  | none => .error (.setting (.unknownStage text))

/-- The computation of a stage. -/
def run (task : Task) : Stage → Matching Unit
  | identical => Identical.run task
  | topDown => TopDown.run task
  | bestFit => BestFit.run task
  | leaves => Leaves.run task
  | leavesSharded => Leaves.runSharded task
  | firstFit => FirstFit.run task
  | labelAware => LabelAware.run task
  | leastEdit => LeastEdit.run task
  | realign => Realign.run task
  | repair => do
    OrphanLeaves.run task
    ParentVote.run task
    LeafMoves.run task
  | orphanLeaves => OrphanLeaves.run task
  | parentVote => ParentVote.run task
  | leafMoves => LeafMoves.run task

end Stage

/-- What a matching computation makes of a pairing: the pairing it leaves, the number of overlaps
it has computed, and the fault with which it stopped, if it did. -/
structure Outcome where
  pairing : Pairing
  evaluations : Nat
  fault : Option Fault

/-- Runs a matching computation on a pairing. -/
def Matching.perform (x : Matching Unit) (p : Pairing) : Outcome :=
  match x.run { pairing := p } with
  | .ok _ s => ⟨s.pairing, s.evaluations, none⟩
  | .error fault s => ⟨s.pairing, s.evaluations, some fault⟩

/-- Runs a stage on a pairing. -/
def Stage.perform (stage : Stage) (task : Task) (p : Pairing) : Outcome :=
  (stage.run task).perform p

end TreeMatching
