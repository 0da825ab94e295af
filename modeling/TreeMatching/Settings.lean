import TreeMatching.Fault

/-!
# Settings

Thresholds, weights and limits of the matching stages.

## Main definitions

* `LabelAwareSettings`, `Settings` — the settings with their default values.
* `Settings.validate` — refuses settings that make no sense, and names the first that does not.
* `BottomUpThresholds` — how similar two inner nodes have to be.
-/

set_option autoImplicit false

namespace TreeMatching

/-- Settings of the stage that compares labels by their meaning. -/
structure LabelAwareSettings where
  /-- How similar the labels of two leaves have to be. -/
  leafThreshold : Float := 0.6
  /-- The weight of the labels in the score of two leaves. -/
  similarityWeight : Float := 0.4
  /-- The weight of the positions in the score of two leaves. -/
  positionWeight : Float := 0.6
  /-- The similarity below which two inner labels count as different. -/
  valueThreshold : Float := 0.6
  /-- How similar the children of small inner nodes have to be. -/
  smallThreshold : Float := 0.4
  /-- How similar the children of large inner nodes have to be. -/
  largeThreshold : Float := 0.6
  /-- How similar the children have to be if the labels are different. -/
  mismatchThreshold : Float := 0.7
  /-- The number of leaves up to which an inner node is small. -/
  smallLeaves : Nat := 4

/-- Settings of all stages. -/
structure Settings where
  /-- The similarity that the labels of two leaves have to exceed. -/
  leafThreshold : Float := 0.5
  /-- How similar large inner nodes have to be. -/
  largeThreshold : Float := 0.6
  /-- How similar small inner nodes have to be. -/
  smallThreshold : Float := 0.4
  /-- The number of leaves up to which an inner node is small. -/
  smallLeaves : Nat := 4
  /-- Settings of the stage that compares labels by their meaning. -/
  labelAware : LabelAwareSettings := {}
  /-- The height from which on subtrees are compared as a whole from the top down. -/
  minHeight : Nat := 1
  /-- The Dice coefficient that two inner nodes have to reach. -/
  diceThreshold : Float := 0.5
  /-- The cost of a change of label in an edit script. -/
  relabelCost : Float := 1.0
  /-- The largest product of two node counts for which whole tables are computed. -/
  cellLimit : Nat := 4000000
  /-- How often leaf moves are reconsidered. -/
  maxRounds : Nat := 1024
  /-- The number of parts into which divided stages are split, if it is fixed; otherwise it is that
  of the threads at hand. -/
  workers : Option Nat := none

namespace Settings

/-- All thresholds with the names by which they are set. -/
def thresholds (s : Settings) : List (String × Float) :=
  [("leaf_threshold", s.leafThreshold),
    ("structural_threshold_large", s.largeThreshold),
    ("structural_threshold_small", s.smallThreshold),
    ("dice_threshold", s.diceThreshold),
    ("optimized.leaf_threshold", s.labelAware.leafThreshold),
    ("optimized.value_threshold", s.labelAware.valueThreshold),
    ("optimized.subtree_threshold_small", s.labelAware.smallThreshold),
    ("optimized.subtree_threshold_large", s.labelAware.largeThreshold),
    ("optimized.subtree_threshold_value_mismatch", s.labelAware.mismatchThreshold)]

/-- Whether a number lies between zero and one, both included. -/
def isUnit (x : Float) : Bool := 0.0 ≤ x && x ≤ 1.0

/-- Whether two weights are not negative and have a positive sum. -/
def areWeights (v w : Float) : Bool := 0.0 ≤ v && 0.0 ≤ w && !(v + w ≤ 0.0)

/-- The first setting that makes no sense, if there is one. -/
def problem? (s : Settings) : Option SettingProblem :=
  let similarity := s.labelAware.similarityWeight
  let position := s.labelAware.positionWeight
  match s.thresholds.find? (fun x => !isUnit x.2) with
  | some (name, value) => some (.threshold name value)
  | none =>
    if !areWeights similarity position then some (.weights similarity position)
    else if !(0.0 ≤ s.relabelCost && s.relabelCost.isFinite) then
      some (.relabelCost s.relabelCost)
    else if s.workers = some 0 then some .noWorkers
    else none

/-- Refuses settings that make no sense. -/
def validate (s : Settings) : Except Fault Unit :=
  match s.problem? with
  | some problem => .error (.setting problem)
  | none => .ok ()

/-- The number of parts into which a divided stage is split: as many as there are workers, or else
threads, and at least one.  What is linked does not depend on it.  But if labels cannot be read, the
part that is reported does. -/
def shardCount (s : Settings) (threads : Nat) : Nat := max 1 (s.workers.getD threads)

end Settings

/-- How similar two inner nodes have to be, by the number of leaves. -/
structure BottomUpThresholds where
  large : Float
  small : Float
  smallLeaves : Nat

namespace BottomUpThresholds

/-- The thresholds within the settings. -/
def ofSettings (s : Settings) : BottomUpThresholds :=
  ⟨s.largeThreshold, s.smallThreshold, s.smallLeaves⟩

/-- Whether a node over the given number of leaves accepts a partner of the given similarity. -/
def accepts (t : BottomUpThresholds) (leaves : Nat) (similarity : Float) : Bool :=
  if t.smallLeaves < leaves then t.large ≤ similarity else t.small ≤ similarity

end BottomUpThresholds

end TreeMatching
