import ApiScaffold.Text.Digits
import ApiScaffold.Text.Printable
import ApiScaffold.Text.Unit

/-!
# Quoted text

Ways to write a text between quotation marks.

* `quote` writes a string literal between double quotes: the quotation mark and the backslash are
  escaped, control characters are written by a short escape or by `\u` and four hexadecimal digits;
  with `Reach.ascii` every character outside printable ASCII is written that way too, by a pair of
  surrogates where four digits do not suffice.
* `display` writes a text as a diagnostic shows it: between single quotes, or between double quotes
  if it holds a single but no double quote, with unprintable characters by their code;
* `displayBytes` writes bytes in the same way, with a `b` in front.
-/

namespace ApiScaffold.Text

/-- Which characters a string literal may hold as themselves. -/
inductive Reach where
  /-- Printable ASCII only. -/
  | ascii
  /-- Everything but control characters. -/
  | unicode
  deriving DecidableEq, Repr

/-- A UTF-16 unit as an escape. -/
def unitEscape (n : Nat) : List Char := '\\' :: 'u' :: hexDigits 4 n

/-- A character as one escape, or as two if it lies beyond the first plane. -/
def codeEscape (n : Nat) : List Char := (unitsOf n).flatMap unitEscape

/-- How a character is written inside a string literal. -/
def quoteChar (reach : Reach) (c : Char) : List Char :=
  if c = '\x22' then ['\\', '\x22']
  else if c = '\\' then ['\\', '\\']
  else if c = '\n' then ['\\', 'n']
  else if c = '\r' then ['\\', 'r']
  else if c = '\t' then ['\\', 't']
  else if c = '\x08' then ['\\', 'b']
  else if c = '\x0c' then ['\\', 'f']
  else if c.toNat < 32 then unitEscape c.toNat
  else if reach = .ascii ∧ 126 < c.toNat then codeEscape c.toNat
  else [c]

/-- A string literal. -/
def quote (reach : Reach) (cs : List Char) : List Char :=
  '\x22' :: cs.flatMap (quoteChar reach) ++ ['\x22']

/-- How a character is shown between the quotation marks `mark`. -/
def displayChar (mark : Char) (c : Char) : List Char :=
  if c = mark ∨ c = '\\' then ['\\', c]
  else if c = '\n' then ['\\', 'n']
  else if c = '\r' then ['\\', 'r']
  else if c = '\t' then ['\\', 't']
  else if isPrintable c then [c]
  else if c.toNat < 0x100 then '\\' :: 'x' :: hexDigits 2 c.toNat
  else if c.toNat < 0x10000 then '\\' :: 'u' :: hexDigits 4 c.toNat
  else '\\' :: 'U' :: hexDigits 8 c.toNat

/-- The quotation mark around a displayed text: single, unless the text holds a single but no double
quote. -/
def displayMark (cs : List Char) : Char :=
  if cs.contains '\x27' && !cs.contains '\x22' then '\x22' else '\x27'

/-- A text as a diagnostic shows it. -/
def display (cs : List Char) : List Char :=
  displayMark cs :: cs.flatMap (displayChar (displayMark cs)) ++ [displayMark cs]

/-- How a byte is shown between the quotation marks `mark`: as a character if it is one of ASCII. -/
def displayByte (mark : Char) (b : UInt8) : List Char :=
  if b < 0x7F then displayChar mark (Char.ofNat b.toNat) else '\\' :: 'x' :: hexDigits 2 b.toNat

/-- Bytes as a diagnostic shows them. -/
def displayBytes (bs : List UInt8) : List Char :=
  let mark := displayMark (bs.map fun b => Char.ofNat b.toNat)
  'b' :: mark :: bs.flatMap (displayByte mark) ++ [mark]

end ApiScaffold.Text
