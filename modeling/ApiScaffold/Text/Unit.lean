/-!
# UTF-16 units

A character of the first plane is one unit, any other a pair of units from two reserved ranges.

Half a pair is no character, so no text can hold one.  Where a document spells it by an escape,
`unitChar` puts the replacement character in its place, and the text is used like any other.  A
reader that kept the half would keep it only until a resource is made of the text, since the check
of a resource accepts characters alone: such a document compiles here and would be refused there.
-/

namespace ApiScaffold.Text

/-- Whether a unit is the first of a pair. -/
def isHighUnit (n : Nat) : Bool := 0xD800 ≤ n && n < 0xDC00

/-- Whether a unit is the second of a pair. -/
def isLowUnit (n : Nat) : Bool := 0xDC00 ≤ n && n < 0xE000

/-- The character of a code; half a pair becomes the replacement character U+FFFD. -/
def unitChar (n : Nat) : Char :=
  if isHighUnit n || isLowUnit n then '\uFFFD' else Char.ofNat n

/-- The character of a pair of units. -/
def pairChar (high low : Nat) : Char :=
  Char.ofNat (0x10000 + (high - 0xD800) * 0x400 + (low - 0xDC00))

/-- The units of a character by its code. -/
def unitsOf (n : Nat) : List Nat :=
  if n < 0x10000 then [n]
  else [0xD800 + (n - 0x10000) / 0x400, 0xDC00 + (n - 0x10000) % 0x400]

end ApiScaffold.Text
