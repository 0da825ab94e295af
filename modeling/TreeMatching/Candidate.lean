import TreeMatching.Matching

/-!
# Candidates and greedy choice

A candidate is a pair of nodes with a score.  Candidates are taken best first, and one is passed
over if one of its nodes already has a partner.

## Main definitions

* `Score`, `Score.rank` — a score and its place in the order of all floating point numbers.
* `Candidate`, `Candidate.precedes` — higher scores first, then smaller ids.
* `chooseGreedily` — links candidates best first.

## Design

Scores are compared in a total order in which negative zero comes before zero and in which values
that are not numbers have their place at the two ends, by their sign.  A score therefore is a bit
pattern: as a floating point number it would lose the sign of a value that is not a number.
-/

set_option autoImplicit false

namespace TreeMatching

/-- A score, given by the sixty-four bits of a floating point number. -/
structure Score where
  bits : UInt64
deriving DecidableEq, Inhabited

namespace Score

/-- The score of a floating point number.  An undefined result of arithmetic has its sign bit
set. -/
def ofFloat (x : Float) : Score := ⟨if x.isNaN then 0xfff8000000000000 else x.toBits⟩

/-- The place of a score in the order of all bit patterns: by sign first, and then by magnitude,
which counts downwards below zero. -/
def rank (s : Score) : Int :=
  let bits : Nat := s.bits.toNat
  let half : Nat := Nat.pow 2 63
  if bits < half then bits else half - 1 - (bits : Int)

end Score

/-- A pair of nodes that might be linked. -/
structure Candidate where
  src : NodeId
  dst : NodeId
  score : Score
  /-- Distinguishes candidates of equal scores. -/
  id : Nat
deriving DecidableEq, Inhabited

namespace Candidate

/-- Whether the first candidate is at least as good as the second: its score is higher, or the
scores are the same and its id is not larger. -/
def precedes (a b : Candidate) : Bool :=
  b.score.rank < a.score.rank || (a.score.rank == b.score.rank && a.id ≤ b.id)

/-- Whether two candidates have the same place in the order. -/
def ties (a b : Candidate) : Bool := a.score.rank == b.score.rank && a.id == b.id

/-- The candidates in order; those with the same place keep their order. -/
def sort (cs : List Candidate) : List Candidate := cs.mergeSort precedes

end Candidate

/-- Links candidates best first, passing over those with a node that has a partner. -/
def chooseGreedily (candidates : List Candidate) : Matching Unit :=
  (Candidate.sort candidates).forM fun c => Matching.linkIfFree c.src c.dst

end TreeMatching
