import TreeMatching.Fault
import TreeMatching.Text.Numeral

/-!
# Similarity of numbers

Two numbers are compared by their relative difference: the distance of the two, as a share of the
larger magnitude, goes through a Gaussian bell curve.

## Main definitions

* `GaussianMeasure`, `GaussianMeasure.ofSpread` — the curve, by its spread.
* `GaussianMeasure.similarity` — of two numbers.
* `GaussianMeasure.compareReals`, `GaussianMeasure.compareIntegers` — of two numerals.
-/

set_option autoImplicit false

namespace TreeMatching

/-- A bell curve of the given spread. -/
structure GaussianMeasure where
  /-- The relative difference at which the curve has its turning point. -/
  spread : Float

namespace GaussianMeasure

/-- The curve of spread one. -/
def standard : GaussianMeasure := ⟨1.0⟩

/-- The curve of a spread, which has to be positive and finite. -/
def ofSpread (spread : Float) : Except Fault GaussianMeasure :=
  if 0.0 < spread && spread.isFinite then .ok ⟨spread⟩ else .error (.setting (.spread spread))

/-- The similarity of two numbers: one if they are equal, zero if only one of them is finite or
one is not a number, and else read off the curve. -/
def similarity (g : GaussianMeasure) (a b : Float) : Float :=
  if a == b then 1.0
  else if !a.isFinite || !b.isFinite then 0.0
  else
    let larger := if a.abs < b.abs then b.abs else a.abs
    let d := (a - b).abs / larger
    (-(d * d) / (2.0 * g.spread * g.spread)).exp

/-- The similarity of two texts as real numerals; zero if one of them is none. -/
def compareReals (g : GaussianMeasure) (a b : String) : Float :=
  match Numeral.real? a, Numeral.real? b with
  | some x, some y => g.similarity x y
  | _, _ => 0.0

/-- The similarity of two texts as integer numerals.  Unless both are integers, they are compared
as real numerals. -/
def compareIntegers (g : GaussianMeasure) (a b : String) : Float :=
  match Numeral.integer? a, Numeral.integer? b with
  | some x, some y =>
    if x = y then 1.0 else g.similarity (Numeral.nearestInt x) (Numeral.nearestInt y)
  | _, _ => g.compareReals a b

end GaussianMeasure

end TreeMatching
