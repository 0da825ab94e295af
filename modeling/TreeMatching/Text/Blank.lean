/-!
# Blank characters

The characters that separate words: those with the Unicode property `White_Space`.  The property
has twenty-five characters in ten ranges; the zero-width space and the byte order mark are not
among them.

## Main definitions

* `Text.isBlank` — the property.
* `Text.trim` — a text without the blanks at its two ends.
-/

set_option autoImplicit false

namespace TreeMatching.Text

/-- The ranges of code points with the Unicode property `White_Space`, in increasing order. -/
def blankRanges : List (Nat × Nat) :=
  [(0x09, 0x0D), (0x20, 0x20), (0x85, 0x85), (0xA0, 0xA0), (0x1680, 0x1680), (0x2000, 0x200A),
    (0x2028, 0x2029), (0x202F, 0x202F), (0x205F, 0x205F), (0x3000, 0x3000)]

/-- Whether a character is blank. -/
def isBlank (c : Char) : Bool :=
  blankRanges.any fun r => r.1 ≤ c.toNat && c.toNat ≤ r.2

/-- The characters without the blanks at both ends. -/
def trimChars (cs : List Char) : List Char :=
  ((cs.dropWhile isBlank).reverse.dropWhile isBlank).reverse

/-- The text without the blanks at both ends. -/
def trim (s : String) : String := String.ofList (trimChars s.toList)

example : (blankRanges.map fun r => r.2 + 1 - r.1).sum = 25 := by decide

example : blankRanges.Pairwise fun r s => r.2 < s.1 := by decide

end TreeMatching.Text
