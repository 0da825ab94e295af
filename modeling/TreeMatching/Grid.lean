/-!
# Tables filled cell by cell

Dynamic programs compute a rectangular table in which every cell depends on cells above it and to
its left.

## Main definitions

* `Grid`, `Grid.get`, `Grid.set` — a rectangular table.
* `Grid.build` — fills a table row by row; a cell is computed from the part filled so far.
-/

set_option autoImplicit false

namespace TreeMatching

universe u

/-- A table of rows of equal width.  Outside the table every cell is `blank`. -/
structure Grid (κ : Type u) where
  width : Nat
  blank : κ
  cells : Array κ

namespace Grid

variable {κ : Type u}

/-- A table with the same entry in every cell. -/
def fill (rows width : Nat) (blank : κ) : Grid κ :=
  ⟨width, blank, Array.replicate (rows * width) blank⟩

/-- The entry in row `i` and column `j`. -/
@[inline]
def get (g : Grid κ) (i j : Nat) : κ :=
  if j < g.width then g.cells.getD (i * g.width + j) g.blank else g.blank

/-- Changes the entry in row `i` and column `j`, if the table has that cell. -/
@[inline]
def set (g : Grid κ) (i j : Nat) (x : κ) : Grid κ :=
  if j < g.width then { g with cells := g.cells.setIfInBounds (i * g.width + j) x } else g

/-- Fills a table row by row, each row from left to right; `cell` computes an entry from the cells
filled before it. -/
@[specialize]
def build (rows width : Nat) (blank : κ) (cell : (Nat → Nat → κ) → Nat → Nat → κ) : Grid κ :=
  (List.range rows).foldl
    (fun g i => (List.range width).foldl (fun g j => g.set i j (cell g.get i j)) g)
    (fill rows width blank)

end Grid

end TreeMatching
