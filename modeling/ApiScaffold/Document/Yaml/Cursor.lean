import ApiScaffold.Text.Blank

/-!
# Places in a YAML text

A cursor is a place in a text, given by what follows it, with the line and column it is at.  Line
ends are line feeds, next-line characters and the line and paragraph separators.
-/

namespace ApiScaffold.Yaml

/-- The characters that end a line. -/
def isBreak (c : Char) : Bool := c == '\n' || c == '\x85' || c == '\u2028' || c == '\u2029'

/-- Spaces and tabs. -/
def isGap (c : Char) : Bool := c == ' ' || c == '\t'

/-- Whether a text, or a line, ends here. -/
def endsLine : Option Char → Bool
  | none => true
  | some c => isBreak c

/-- Whether a text or a line ends here, or a space or tab follows. -/
def endsWord : Option Char → Bool
  | none => true
  | some c => isBreak c || isGap c

/-- Whether a text or a line ends here, or a space follows. -/
def endsSpaced (c : Option Char) : Bool := endsLine c || c == some ' '

/-- A place in a text. -/
structure Cursor where
  rest : List Char
  /-- The number of characters that follow. -/
  left : Nat
  line : Nat
  column : Nat
  deriving Repr

namespace Cursor

/-- The beginning of a text. -/
def start (cs : List Char) : Cursor := ⟨cs, cs.length, 0, 0⟩

/-- The next character. -/
def peek (k : Cursor) : Option Char := k.rest.head?

/-- The character after `n` others. -/
def peekAt (k : Cursor) (n : Nat) : Option Char := k.rest[n]?

/-- The place after the next character. A byte order mark takes no column. -/
def next (k : Cursor) : Cursor :=
  match k.rest with
  | [] => k
  | c :: cs =>
    if isBreak c then ⟨cs, k.left - 1, k.line + 1, 0⟩
    else ⟨cs, k.left - 1, k.line, if c = '\uFEFF' then k.column else k.column + 1⟩

/-- The place after `n` characters. -/
def forward : Nat → Cursor → Cursor
  | 0, k => k
  | n + 1, k => forward n k.next

/-- The characters up to the first that does not satisfy `p`. -/
def run (p : Char → Bool) (k : Cursor) : List Char := k.rest.takeWhile p

/-- The place of the first character that does not satisfy `p`. -/
def skip (p : Char → Bool) (k : Cursor) : Cursor := k.forward (k.run p).length

/-- Passes over spaces. -/
def skipSpaces (k : Cursor) : Cursor := k.skip (· == ' ')

/-- Passes over spaces as long as the column is less than `limit`. -/
def indentTo (limit : Nat) (k : Cursor) : Cursor :=
  k.forward (min (k.run (· == ' ')).length (limit - k.column))

/-- What a line break stands for: the separators for themselves, all others for a line feed. -/
def breakChar (c : Char) : Char := if c = '\u2028' ∨ c = '\u2029' then c else '\n'

/-- The line break that comes next, if one does. -/
def lineBreak? (k : Cursor) : Option Char :=
  k.peek.bind fun c => if isBreak c then some (breakChar c) else none

/-- Passes over a comment. -/
def skipComment (k : Cursor) : Cursor :=
  if k.peek = some '#' then k.skip fun c => !isBreak c else k

/-- Whether a line of three hyphens or three points, which separates documents, begins here. -/
def atSeparator (k : Cursor) : Bool :=
  (k.rest.take 3 == ['-', '-', '-'] || k.rest.take 3 == ['.', '.', '.']) && endsWord (k.peekAt 3)

end Cursor

end ApiScaffold.Yaml
