/-!
# Edit costs

The edit distance of two trees is computed in any arithmetic that can add costs, take the smaller
of two and tell whether two are the same.  Programs run on floating point numbers; the laws of the
distance are those of exact arithmetic.

## Main definitions

* `Cost` — the arithmetic of costs.
* The instance for floating point numbers.
-/

set_option autoImplicit false

namespace TreeMatching

/-- The arithmetic of edit costs. -/
class Cost (κ : Type) where
  /-- The cost of doing nothing. -/
  zero : κ
  /-- The cost of deleting or inserting a node. -/
  one : κ
  /-- The cost of what must not be done. -/
  forbidden : κ
  /-- The cost of doing both. -/
  add : κ → κ → κ
  /-- The smaller of two costs. -/
  least : κ → κ → κ
  /-- Whether two costs are the same, up to rounding. -/
  same : κ → κ → Bool

/-- The smaller of two floating point numbers; a value that is not a number gives way to the
other one. -/
def floatLeast (x y : Float) : Float :=
  if x.isNaN then y else if y.isNaN then x else if y < x then y else x

/-- Costs as floating point numbers.  Two costs count as the same if they differ by less than a
billionth. -/
instance : Cost Float where
  zero := 0.0
  one := 1.0
  forbidden := 1.0 / 0.0
  add x y := x + y
  least := floatLeast
  same x y := (x - y).abs < 1e-9

end TreeMatching
