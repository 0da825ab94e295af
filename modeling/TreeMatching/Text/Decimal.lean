/-!
# Shortest decimal text of a number

A binary floating point number is written with as few digits as possible: the digits denote a
decimal number that is nearer to the given number than to any other of its format, no shorter
decimal number is, and among the shortest ones the nearest is taken.  The text is positional: it
never has an exponent, and whole numbers are written without a fraction.

## Main definitions

* `Binary` — a positive number `m · 2^q` together with the interval of reals that round to it.
* `Binary.shortest` — the digits and the power of ten of its shortest decimal.
* `Text.decimal` — the text of a number.

## Design

All arithmetic of the digit search is exact and on natural numbers.  A grid of step `10^k` is
tried for decreasing `k`; only the two grid points around the number can be the nearest ones, so
no other point is looked at.
-/

set_option autoImplicit false

namespace TreeMatching

/-- A positive number `significand · 2^exponent`, with the information which of its two
neighbours is closer: `lowNarrow` says that the next smaller number is only half as far away as
the next larger one, as happens just above a power of two. -/
structure Binary where
  /-- The factor `m` of `m · 2^q`. -/
  significand : Nat
  /-- The power `q` of `m · 2^q`. -/
  exponent : Int
  /-- Whether the gap below is half the gap above. -/
  lowNarrow : Bool
deriving DecidableEq, Inhabited

namespace Binary

/-- Reads the sixty-four bits of a positive finite number. -/
def ofBits (bits : Nat) : Binary :=
  let unit : Nat := Nat.pow 2 52
  let field : Nat := bits / unit % Nat.pow 2 11
  let fraction : Nat := bits % unit
  if field = 0 then ⟨fraction, -1074, false⟩
  else ⟨unit + fraction, (field : Int) - 1075, fraction == 0 && field != 1⟩

/-- A fraction of natural numbers that lies on a grid: `number`, `low` and `high` are the value
and the ends of its interval, `step` is the width of the grid, all in a common unit. -/
structure Scaled where
  number : Nat
  low : Nat
  high : Nat
  step : Nat

/-- The value, its interval and the grid of step `10^k` in a common unit. -/
def scale (b : Binary) (k : Int) : Scaled :=
  let q := b.exponent - 2
  let unit := Nat.pow 2 q.toNat * Nat.pow 10 (-k).toNat
  { number := 4 * b.significand * unit
    low := (4 * b.significand - if b.lowNarrow then 1 else 2) * unit
    high := (4 * b.significand + 2) * unit
    step := Nat.pow 10 k.toNat * Nat.pow 2 (-q).toNat }

/-- The point of the grid of step `10^k`, counted in steps, that rounds to the number and is
nearest to it; of two equally near ones the larger. -/
def onGrid (b : Binary) (k : Int) : Option Nat :=
  let s := b.scale k
  let closed := b.significand % 2 == 0
  let inside (p : Nat) : Bool :=
    if closed then s.low ≤ p && p ≤ s.high else s.low < p && p < s.high
  let down := s.number / s.step
  let up := down + 1
  match inside (down * s.step), inside (up * s.step) with
  | false, false => none
  | true, false => some down
  | false, true => some up
  | true, true =>
    if s.number - down * s.step < up * s.step - s.number then some down else some up

/-- A power of ten that is at least the number and at most ten times as large. -/
def ceilingPower (b : Binary) : Int :=
  let digits (n : Nat) : Int := ((Nat.toDigits 10 n).length : Int)
  if 0 ≤ b.exponent then digits (b.significand * Nat.pow 2 b.exponent.toNat)
  else
    let denominator := Nat.pow 2 (-b.exponent).toNat
    if denominator ≤ b.significand then digits (b.significand / denominator)
    else 1 - digits (denominator / b.significand)

/-- Tries the grids of step `10^k`, `10^(k-1)`, … and takes the first that has a point. -/
def searchGrid (b : Binary) : Nat → Int → Nat × Int
  | 0, k => (0, k)
  | fuel + 1, k =>
    match b.onGrid k with
    | some p => (p, k)
    | none => b.searchGrid fuel (k - 1)

/-- The shortest decimal `p · 10^k` of the number.  Eighteen grids reach seventeen significant
digits, which always suffice. -/
def shortest (b : Binary) : Nat × Int := b.searchGrid 18 b.ceilingPower

end Binary

namespace Text

/-- The text of `p · 10^k` without an exponent. -/
def positional (p : Nat) (k : Int) : String :=
  let digits := Nat.toDigits 10 p
  if 0 ≤ k then String.ofList (digits ++ List.replicate k.toNat '0')
  else
    let places := (-k).toNat
    if places < digits.length then
      let whole := digits.length - places
      String.ofList (digits.take whole ++ '.' :: digits.drop whole)
    else
      String.ofList ('0' :: '.' :: (List.replicate (places - digits.length) '0' ++ digits))

/-- The text of a number: the fewest digits that read back, positional, a minus sign in front of
negative numbers and of negative zero, and words for what is not a number or not finite. -/
def decimal (x : Float) : String :=
  if x.isNaN then "NaN"
  else
    let bits := x.toBits.toNat
    let signBit := Nat.pow 2 63
    let magnitude := bits % signBit
    let sign := if bits < signBit then "" else "-"
    if magnitude = 0 then sign ++ "0"
    else if x.isInf then sign ++ "inf"
    else
      let (p, k) := (Binary.ofBits magnitude).shortest
      sign ++ positional p k

end Text

end TreeMatching
