import TreeMatching.Text.Blank

/-!
# Reading numerals

Labels of numeric nodes are read as numbers.  A real numeral is an optional sign followed by
digits with at most one point and an optional exponent, or by one of the words `inf`, `infinity`
and `nan` in any case; it denotes the nearest floating point number.  An integer numeral is an
optional sign followed by digits, and has to lie within 128 bits.

## Main definitions

* `Numeral.real?`, `Numeral.integer?` — the two readers; blanks around a numeral are ignored.
* `Numeral.nearest` — the floating point number nearest to `m · 10^e`.
-/

set_option autoImplicit false

namespace TreeMatching.Numeral

/-- The number written by decimal digits, most significant first. -/
def digitsValue (ds : List Char) : Nat :=
  ds.foldl (fun n c => 10 * n + (c.toNat - '0'.toNat)) 0

/-- Splits off the leading decimal digits. -/
def spanDigits (cs : List Char) : List Char × List Char := cs.span Char.isDigit

/-- Splits off a leading sign: whether it is a minus sign, and what follows. -/
def spanSign : List Char → Bool × List Char
  | '-' :: cs => (true, cs)
  | '+' :: cs => (false, cs)
  | cs => (false, cs)

/-- The floating point number nearest to `m · 10^e`, a tie going to the even neighbour.  Numbers
far outside the range of the format are recognised by their magnitude and not computed. -/
def nearest (m : Nat) (e : Int) : Float :=
  let magnitude : Int := (Nat.toDigits 10 m).length + e
  if m = 0 then 0.0
  else if magnitude > 310 then 1.0 / 0.0
  else if magnitude < -330 then 0.0
  else if 0 ≤ e then Float.ofScientific m false e.toNat
  else Float.ofScientific m true (-e).toNat

/-- The floating point number nearest to an integer. -/
def nearestInt (n : Int) : Float :=
  if 0 ≤ n then nearest n.toNat 0 else -(nearest (-n).toNat 0)

/-- Reads an exponent part that has to take up all of the text; no text is the exponent zero. -/
def exponent? : List Char → Option Int
  | [] => some 0
  | c :: cs =>
    if c = 'e' ∨ c = 'E' then
      let (negative, ds) := spanSign cs
      if ds.isEmpty || !ds.all Char.isDigit then none
      else
        let n : Int := digitsValue ds
        some (if negative then -n else n)
    else none

/-- Reads an unsigned decimal number: digits with at most one point among, before or behind them,
at least one digit, and an optional exponent. -/
def unsigned? (cs : List Char) : Option Float :=
  let (whole, rest) := spanDigits cs
  let (fraction, rest) :=
    match rest with
    | '.' :: r => spanDigits r
    | r => ([], r)
  if whole.isEmpty && fraction.isEmpty then none
  else
    (exponent? rest).map fun e => nearest (digitsValue (whole ++ fraction)) (e - fraction.length)

/-- Reads a word for a number that no digits denote. -/
def word? (cs : List Char) : Option Float :=
  let lower := String.ofList (cs.map Char.toLower)
  if lower = "inf" ∨ lower = "infinity" then some (1.0 / 0.0)
  else if lower = "nan" then some (0.0 / 0.0)
  else none

/-- Reads a real numeral. -/
def real? (s : String) : Option Float :=
  let (negative, cs) := spanSign (Text.trimChars s.toList)
  let value := (word? cs).orElse fun _ => unsigned? cs
  value.map fun x => if negative then -x else x

/-- Reads an integer numeral of at most 128 bits. -/
def integer? (s : String) : Option Int :=
  let (negative, ds) := spanSign (Text.trimChars s.toList)
  if ds.isEmpty || !ds.all Char.isDigit then none
  else
    let m : Int := digitsValue ds
    let n := if negative then -m else m
    let bound : Int := Nat.pow 2 127
    if -bound ≤ n ∧ n < bound then some n else none

end TreeMatching.Numeral
