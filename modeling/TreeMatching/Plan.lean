import TreeMatching.Stage

/-!
# Plans

A plan is a list of stages that are run one after the other on the same pairing.  It stops at the
first stage that fails.

## Main definitions

* `Plan`, `Plan.ofNames`, `Plan.text` — plans and how they are written.
* `Plan.run`, `Plan.perform`, `Plan.steps` — running a plan, as a whole and step by step.
* `Preset`, `Preset.ofName`, `Preset.plan` — plans with a name.
* `matchTrees` — the pairing of two trees by the standard plan.
-/

set_option autoImplicit false

namespace TreeMatching

/-- Stages to be run one after the other. -/
abbrev Plan := List Stage

namespace Plan

/-- Reads stage names separated by commas; empty parts do not matter. -/
def parse (text : String) : Except Fault Plan := do
  let parts := (text.splitOn ",").filter fun part => Text.trim part ≠ ""
  let stages ← parts.mapM Stage.ofName
  if stages.isEmpty then throw (.setting .emptyPlan)
  return stages

/-- Reads stage names separated by commas, to be run with the given settings. -/
def ofNames (text : String) (settings : Settings) : Except Fault Plan := do
  let plan ← parse text
  settings.validate
  return plan

/-- The names of the stages in quotation marks, in brackets. -/
def text (plan : Plan) : String :=
  "[" ++ ", ".intercalate (plan.map fun stage => "\"" ++ stage.name ++ "\"") ++ "]"

/-- The computation of a plan. -/
def run (plan : Plan) (task : Task) : Matching Unit := plan.forM fun stage => stage.run task

/-- Runs a plan on a pairing. -/
def perform (plan : Plan) (task : Task) (p : Pairing) : Outcome :=
  Matching.perform (plan.run task) p

/-- Runs a plan stage by stage and returns what each stage has made of the pairing; a stage that
fails is the last. -/
def steps (task : Task) : Plan → Pairing → List (Stage × Outcome)
  | [], _ => []
  | stage :: plan, p =>
    let outcome := stage.perform task p
    (stage, outcome) :: if outcome.fault.isSome then [] else steps task plan outcome.pairing

end Plan

/-- The central stages of a preset. -/
inductive Core where
  /-- Leaves first, then inner nodes that fit. -/
  | leavesUp
  /-- Identical subtrees from the top down, then inner nodes that fit best. -/
  | greedy
  /-- The mapping of an optimal edit script. -/
  | leastEdit
  /-- Leaves and inner nodes by the meaning of their labels. -/
  | labelAware
deriving DecidableEq, Inhabited

/-- The stages of a core. -/
def Core.plan : Core → Plan
  | leavesUp => [.leavesSharded, .firstFit]
  | greedy => [.topDown, .bestFit]
  | leastEdit => [.leastEdit]
  | labelAware => [.labelAware]

/-- A plan with a name: central stages, with or without identical subtrees before them, and with or
without realignment and repairs after them. -/
structure Preset where
  core : Core
  identical : Bool
  realign : Bool
  repair : Bool
deriving DecidableEq, Inhabited

namespace Preset

/-- Seven of the eight choices of additional stages: all but the one without any. -/
def additions (core : Core) : List Preset :=
  [⟨core, true, false, false⟩, ⟨core, true, true, false⟩, ⟨core, true, true, true⟩,
    ⟨core, true, false, true⟩, ⟨core, false, true, false⟩, ⟨core, false, true, true⟩,
    ⟨core, false, false, true⟩]

/-- All presets. -/
def all : List Preset :=
  ⟨.leavesUp, false, false, false⟩ :: additions .leavesUp
    ++ ⟨.labelAware, true, true, true⟩ :: ⟨.greedy, false, false, false⟩ :: additions .greedy
    ++ additions .leastEdit

/-- The letters of the additional stages. -/
def suffix (p : Preset) : String :=
  let letters := (if p.identical then "A" else "") ++ (if p.realign then "B" else "")
    ++ (if p.repair then "CDE" else "")
  if letters.isEmpty then "" else "_" ++ letters

/-- The name of a preset. -/
def name (p : Preset) : String :=
  match p.core with
  | .leavesUp => "CD" ++ p.suffix
  | .greedy => "GT" ++ p.suffix
  | .leastEdit => "RTED" ++ p.suffix
  | .labelAware => "CD_OPT"

/-- The stages of a preset. -/
def plan (p : Preset) : Plan :=
  (if p.identical then [.identical] else []) ++ p.core.plan
    ++ (if p.realign then [.realign] else []) ++ if p.repair then [.repair] else []

/-- A text with small letters in place of the capital ones. -/
def lower (s : String) : List Char := s.toList.map Char.toLower

/-- The preset of a name; blanks around it and the case of its letters do not matter. -/
def ofName (text : String) : Except Fault Preset :=
  let text := Text.trim text
  match all.find? fun p => lower p.name == lower text with
  | some preset => .ok preset
  | none => .error (.setting (.unknownPreset text))

/-- The preset that is used unless another is asked for. -/
def standard : Preset := ⟨.leavesUp, true, true, true⟩

end Preset

/-- The pairing of two trees by the standard preset and settings. -/
def matchTrees (src dst : Tree) (rules : LabelRules) (threads : Nat := 1) : Except Fault Pairing :=
  let task : Task := { src, dst, rules, threads }
  let outcome := Preset.standard.plan.perform task .empty
  match outcome.fault with
  | some fault => .error fault
  | none => .ok outcome.pairing

end TreeMatching
