import TreeMatching.Grid

/-!
# Longest alignments

Two sequences are aligned by pairing entries that fit, in the same order on both sides.  A longest
alignment is found with the usual table of the lengths for all prefixes.

## Main definitions

* `Alignment.lengths` — the table of lengths.
* `Alignment.trace` — reads an alignment off the table, from the ends to the beginnings.
* `Alignment.longest` — a longest alignment, last pair first.
-/

set_option autoImplicit false

namespace TreeMatching.Alignment

universe u v

variable {α : Type u} {β : Type v}

/-- Whether the entries at two places fit. -/
def fits (aligns : α → β → Bool) (as : Array α) (bs : Array β) (i j : Nat) : Bool :=
  match as[i]?, bs[j]? with
  | some a, some b => aligns a b
  | _, _ => false

/-- The lengths of longest alignments: row `i` and column `j` belong to the first `i` entries of
the one and the first `j` entries of the other sequence. -/
def lengths (aligns : α → β → Bool) (as : Array α) (bs : Array β) : Grid Nat :=
  Grid.build (as.size + 1) (bs.size + 1) 0 fun f i j =>
    match i, j with
    | i + 1, j + 1 =>
      if fits aligns as bs i j then f i j + 1 else max (f i (j + 1)) (f (i + 1) j)
    | _, _ => 0

/-- Walks through the table from the cell in row `i` and column `j` and pairs entries on the
way. -/
def trace (aligns : α → β → Bool) (as : Array α) (bs : Array β) (table : Grid Nat) :
    Nat → Nat → List (α × β)
  | 0, _ => []
  | _, 0 => []
  | i + 1, j + 1 =>
    match as[i]?, bs[j]? with
    | some a, some b =>
      if aligns a b && table.get (i + 1) (j + 1) == table.get i j + 1 then
        (a, b) :: trace aligns as bs table i j
      else if table.get (i + 1) j ≤ table.get i (j + 1) then
        trace aligns as bs table i (j + 1)
      else trace aligns as bs table (i + 1) j
    | _, _ => []
termination_by i j => i + j

/-- A longest alignment of two sequences, last pair first. -/
def longest (aligns : α → β → Bool) (as : List α) (bs : List β) : List (α × β) :=
  let as := as.toArray
  let bs := bs.toArray
  trace aligns as bs (lengths aligns as bs) as.size bs.size

end TreeMatching.Alignment
