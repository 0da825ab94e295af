import TreeMatching.Fault
import TreeMatching.Share

/-!
# Similarity of texts by n-grams

Two texts are similar if they have many short pieces in common.  The pieces are all runs of `n`
consecutive characters, counted with multiplicity; boundary marks around a text let its beginning
and its end count as well.  The similarity is twice the number of common pieces, divided by the
number of pieces of both texts.

## Main definitions

* `GramMeasure` — the length of the pieces and how much of a text is looked at.
* `GramMeasure.grams` — the pieces of a text.
* `countCommon` — how many entries two sorted lists have in common.
* `GramMeasure.agreement`, `GramMeasure.similarity` — the similarity, exact and rounded.
-/

set_option autoImplicit false

namespace TreeMatching

/-- The number of entries that two sorted lists have in common, with multiplicity. -/
def countCommon {α : Type} [LT α] [DecidableLT α] : List α → List α → Nat
  | [], _ => 0
  | _, [] => 0
  | x :: xs, y :: ys =>
    if x < y then countCommon xs (y :: ys)
    else if y < x then countCommon (x :: xs) ys
    else countCommon xs ys + 1
termination_by xs ys => xs.length + ys.length

/-- How texts are cut into pieces. -/
structure GramMeasure where
  /-- The number of characters of a piece. -/
  size : Nat
  /-- The number of leading characters of a text that are looked at. -/
  window : Nat
  /-- Pieces are not empty. -/
  size_pos : 0 < size
  /-- Something of a text is looked at. -/
  window_pos : 0 < window

namespace GramMeasure

/-- Pieces of two characters, within the first 256 characters of a text. -/
def bigrams : GramMeasure := ⟨2, 256, by decide, by decide⟩

/-- Pieces of three characters, within the first 256 characters of a text. -/
def trigrams : GramMeasure := ⟨3, 256, by decide, by decide⟩

/-- Pieces of `n` characters, within the first 256 characters of a text. -/
def ofSize (n : Nat) : Except Fault GramMeasure :=
  if h : 0 < n then .ok ⟨n, 256, h, by decide⟩ else .error (.setting .gramSize)

/-- The same pieces, within the first `window` characters of a text. -/
def withWindow (m : GramMeasure) (window : Nat) : Except Fault GramMeasure :=
  if h : 0 < window then .ok ⟨m.size, window, m.size_pos, h⟩ else .error (.setting .gramWindow)

/-- The mark at the two boundaries of a text. -/
def boundary : Char := '\x00'

/-- The characters looked at, with one boundary mark less than the size of a piece at both
ends. -/
def padded (m : GramMeasure) (label : String) : List Char :=
  let pad := List.replicate (m.size - 1) boundary
  pad ++ label.toList.take m.window ++ pad

/-- All runs of `n` consecutive entries. -/
def runs (n : Nat) (cs : List Char) : List (List Char) :=
  (List.range (cs.length + 1 - n)).map fun i => (cs.drop i).take n

/-- The pieces of a text, from left to right. -/
def grams (m : GramMeasure) (label : String) : List (List Char) := runs m.size (m.padded label)

/-- Whether a piece comes before another one or is equal to it, by the numbers of the first
characters in which they differ; a piece comes before its continuations. -/
def precedes : List Char → List Char → Bool
  | [], _ => true
  | _ :: _, [] => false
  | c :: cs, d :: ds => c.toNat < d.toNat || (c == d && precedes cs ds)

/-- Sorts pieces by their characters. -/
def sortGrams (gs : List (List Char)) : List (List Char) := gs.mergeSort precedes

/-- How far the pieces of two texts agree: common pieces count on both sides. -/
def agreement (m : GramMeasure) (a b : String) : Share :=
  let ga := sortGrams (m.grams a)
  let gb := sortGrams (m.grams b)
  ⟨2 * countCommon ga gb, ga.length + gb.length⟩

/-- The similarity of two texts, between zero and one; equal texts have similarity one. -/
def similarity (m : GramMeasure) (a b : String) : Float :=
  if a = b then 1.0 else (m.agreement a b).value

end GramMeasure

end TreeMatching
