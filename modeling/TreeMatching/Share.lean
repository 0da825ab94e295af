/-!
# Shares

Most similarities of this library are shares: so many items out of so many.  A share is kept as
two natural numbers, which makes it exact; only when it is compared with a threshold or turned into
a score does it become a floating point number.

## Main definitions

* `Share` — a part of a whole.
* `Share.value` — the floating point number; all of nothing counts as everything.
* `Share.mean` — the mean of several shares.
-/

set_option autoImplicit false

namespace TreeMatching

/-- A part of a whole. -/
structure Share where
  part : Nat
  whole : Nat
deriving DecidableEq, Inhabited

/-- The share as a floating point number.  The share of an empty whole is one: two empty
collections agree completely. -/
def Share.value (s : Share) : Float :=
  if s.whole = 0 then 1.0 else Float.ofNat s.part / Float.ofNat s.whole

/-- The mean of several shares, summed up from left to right.  Without any shares it is one. -/
def Share.mean (shares : List Share) : Float :=
  if shares.length = 0 then 1.0
  else shares.foldl (fun x share => x + share.value) 0.0 / Float.ofNat shares.length

end TreeMatching
