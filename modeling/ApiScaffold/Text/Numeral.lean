import ApiScaffold.Text.Blank
import ApiScaffold.Text.Digits

/-!
# Numbers as people write them

A number may be written in the decimal digits of any script, with blanks around it.  `asciiNumeral`
brings such a text into ASCII, where `integer?` and `decimal?` read it.

* `integer?` reads a signed integer in a base, which two, eight and sixteen may announce by a zero
  and a letter;
* `decimal?` reads an unsigned decimal with an optional point and exponent.
-/

namespace ApiScaffold.Text

/-- The zeros of the scripts outside ASCII; behind each come the other nine digits. -/
def decimalZeros : List Nat := [
  0x660, 0x6F0, 0x7C0, 0x966, 0x9E6, 0xA66, 0xAE6, 0xB66, 0xBE6, 0xC66, 0xCE6, 0xD66, 0xDE6, 0xE50,
  0xED0, 0xF20, 0x1040, 0x1090, 0x17E0, 0x1810, 0x1946, 0x19D0, 0x1A80, 0x1A90, 0x1B50, 0x1BB0,
  0x1C40, 0x1C50, 0xA620, 0xA8D0, 0xA900, 0xA9D0, 0xA9F0, 0xAA50, 0xABF0, 0xFF10, 0x104A0, 0x10D30,
  0x11066, 0x110F0, 0x11136, 0x111D0, 0x112F0, 0x11450, 0x114D0, 0x11650, 0x116C0, 0x11730, 0x118E0,
  0x11950, 0x11C50, 0x11D50, 0x11DA0, 0x16A60, 0x16AC0, 0x16B50, 0x1D7CE, 0x1D7D8, 0x1D7E2, 0x1D7EC,
  0x1D7F6, 0x1E140, 0x1E2F0, 0x1E950, 0x1FBF0]

/-- The value of a decimal digit of any script outside ASCII. -/
def decimalDigit? (c : Char) : Option Nat :=
  (decimalZeros.find? fun z => z ≤ c.toNat && c.toNat < z + 10).map (c.toNat - ·)

/-- The digit or blank of ASCII that a character stands for in a number; a question mark for a
character that stands for neither. -/
def asciiNumeralChar (c : Char) : Char :=
  if c.toNat < 127 then c
  else if isBlank c then ' '
  else
    match decimalDigit? c with
    | some d => Char.ofNat (48 + d)
    | none => '?'

/-- Whether a character may stand around a number: a space, a tab or the end of a line or page. -/
def isMargin (c : Char) : Bool := c == ' ' || (9 ≤ c.toNat && c.toNat ≤ 13)

/-- The text of a number in ASCII, without the blanks around it. -/
def asciiNumeral (cs : List Char) : List Char :=
  dropSuffixWhile isMargin ((cs.map asciiNumeralChar).dropWhile isMargin)

/-- The number that digits of a base denote. -/
def numeral? (base : Nat) (cs : List Char) : Option Nat :=
  if cs.isEmpty then none
  else
    cs.foldl
      (fun n c => do
        let n ← n
        let d ← hexValue? c
        if d < base then some (n * base + d) else none)
      (some 0)

/-- The letter that announces a base behind a zero. -/
def baseLetter? (base : Nat) : Option Char :=
  if base = 2 then some 'b' else if base = 8 then some 'o' else if base = 16 then some 'x' else none

/-- The digits behind a zero and the letter of the base, if these stand in front of them. -/
def dropBase (base : Nat) : List Char → List Char
  | '0' :: c :: ds => if baseLetter? base = some c.toLower then ds else '0' :: c :: ds
  | ds => ds

/-- The integer of an optional sign and digits of a base; `none` for any other text, and for a
decimal of too many digits. -/
def integer? (base : Nat) (cs : List Char) : Option Int :=
  let cs := asciiNumeral cs
  if base = 10 ∧ maxIntegerDigits < (cs.filter Char.isDigit).length then none
  else
    match cs with
    | '-' :: ds => (numeral? base (dropBase base ds)).map fun n => -(n : Int)
    | '+' :: ds => (numeral? base (dropBase base ds)).map fun n => (n : Int)
    | ds => (numeral? base (dropBase base ds)).map fun n => (n : Int)

/-- The digits of an unsigned decimal, and the power of ten that they are multiplied by. -/
def decimal? (cs : List Char) : Option (Nat × Int) :=
  let whole := cs.takeWhile Char.isDigit
  let rest := cs.dropWhile Char.isDigit
  let fraction : List Char × List Char :=
    match rest with
    | '.' :: rest => (rest.takeWhile Char.isDigit, rest.dropWhile Char.isDigit)
    | rest => ([], rest)
  let exponent := exponentPart fraction.2
  if (whole ++ fraction.1).isEmpty || !exponent.2.isEmpty then none
  else some (natOfDigits (whole ++ fraction.1), exponent.1.getD 0 - fraction.1.length)

end ApiScaffold.Text
