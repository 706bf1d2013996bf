import ApiScaffold.Document.Value
import ApiScaffold.Text.Blank
import ApiScaffold.Text.Unit

/-!
# Reading JSON

`Json.read` reads one JSON value.  Objects keep the order of their keys; a number without a fraction
and an exponent is an integer of any size; `NaN`, `Infinity` and `-Infinity` are numbers.

A malformed text is answered with what was expected and where: the reader passes along the
characters still to be read, so the place of a failure is the number of characters that were left.
-/

namespace ApiScaffold.Json

/-- What is wrong with a text that is not JSON. -/
inductive Cause where
  | byteOrderMark
  | value
  | propertyName
  | colon
  | comma
  | unterminatedString
  | controlCharacter
  | escape
  | unicodeEscape
  | extraData
  deriving DecidableEq, Repr

/-- The wording of a cause. -/
def Cause.message : Cause → String
  | byteOrderMark => "Unexpected UTF-8 BOM (decode using utf-8-sig)"
  | value => "Expecting value"
  | propertyName => "Expecting property name enclosed in double quotes"
  | colon => "Expecting ':' delimiter"
  | comma => "Expecting ',' delimiter"
  | unterminatedString => "Unterminated string starting at"
  | controlCharacter => "Invalid control character at"
  | escape => "Invalid \\escape"
  | unicodeEscape => "Invalid \\uXXXX escape"
  | extraData => "Extra data"

/-- Why reading stopped; a place is given by the number of characters left there. -/
inductive Stop where
  | malformed (cause : Cause) (left : Nat)
  | longInteger
  | tooDeep
  deriving DecidableEq, Repr

/-- A reader takes characters from the front of a text. -/
abbrev Reader (α : Type) := List Char → Except Stop (α × List Char)

/-- Stops in front of the given characters. -/
def stopAt {α : Type} (cause : Cause) (cs : List Char) : Except Stop α :=
  .error (.malformed cause cs.length)

/-- The characters that may stand between tokens. -/
def isSpace (c : Char) : Bool := c == ' ' || c == '\t' || c == '\n' || c == '\r'

/-- Passes over the characters between tokens. -/
def skipSpace (cs : List Char) : List Char := cs.dropWhile isSpace

/-- The number written by four hexadecimal digits. -/
def unit? (a b c d : Char) : Option Nat := do
  let a ← Text.hexValue? a
  let b ← Text.hexValue? b
  let c ← Text.hexValue? c
  let d ← Text.hexValue? d
  return ((a * 16 + b) * 16 + c) * 16 + d

/-- The character that a one-letter escape stands for. -/
def shortEscape? (c : Char) : Option Char :=
  if c = '\x22' ∨ c = '\\' ∨ c = '/' then some c
  else if c = 'b' then some '\x08'
  else if c = 'f' then some '\x0c'
  else if c = 'n' then some '\n'
  else if c = 'r' then some '\r'
  else if c = 't' then some '\t'
  else none

/-- Puts a character in front of what a string reader found. -/
def consFst (c : Char) (r : Except Stop (List Char × List Char)) :
    Except Stop (List Char × List Char) :=
  r.map fun p => (c :: p.1, p.2)

/-- Reads a string after its opening quote; `opened` is what was left in front of that quote. -/
def stringBody (opened : List Char) : Reader (List Char)
  | [] => stopAt .unterminatedString opened
  | '\x22' :: cs => .ok ([], cs)
  | ['\\'] => stopAt .unterminatedString opened
  | '\\' :: 'u' :: a :: b :: c :: d :: cs =>
    match unit? a b c d with
    | none => .error (.malformed .unicodeEscape (cs.length + 5))
    | some high =>
      match cs with
      | [] => .error (.malformed .unicodeEscape 5)
      | '\\' :: 'u' :: e :: f :: g :: h :: i :: more =>
        if Text.isHighUnit high then
          match unit? e f g h with
          | none => .error (.malformed .unicodeEscape (more.length + 6))
          | some low =>
            if Text.isLowUnit low then
              consFst (Text.pairChar high low) (stringBody opened (i :: more))
            else
              consFst (Text.unitChar high)
                (stringBody opened ('\\' :: 'u' :: e :: f :: g :: h :: i :: more))
        else
          consFst (Text.unitChar high)
            (stringBody opened ('\\' :: 'u' :: e :: f :: g :: h :: i :: more))
      | more => consFst (Text.unitChar high) (stringBody opened more)
  | '\\' :: 'u' :: cs => .error (.malformed .unicodeEscape (cs.length + 1))
  | '\\' :: c :: cs =>
    match shortEscape? c with
    | some e => consFst e (stringBody opened cs)
    | none => .error (.malformed .escape (cs.length + 2))
  | c :: cs =>
    if c.toNat < 32 then stopAt .controlCharacter (c :: cs) else consFst c (stringBody opened cs)

/-- The digits before the point: a single zero, or digits that do not begin with one. -/
def wholeDigits : List Char → Option (List Char × List Char)
  | '0' :: cs => some (['0'], cs)
  | c :: cs =>
    if c.isDigit then some ((c :: cs).takeWhile Char.isDigit, (c :: cs).dropWhile Char.isDigit)
    else none
  | [] => none

/-- The digits after a point; none if there is no point with a digit behind it. -/
def fractionDigits : List Char → List Char × List Char
  | '.' :: c :: cs =>
    if c.isDigit then ((c :: cs).takeWhile Char.isDigit, (c :: cs).dropWhile Char.isDigit)
    else ([], '.' :: c :: cs)
  | cs => ([], cs)

/-- Reads a number; `none` if the text does not begin with one. -/
def number? (cs : List Char) : Option (Except Stop (Value × List Char)) :=
  let signed : Bool × List Char :=
    match cs with
    | '-' :: r => (true, r)
    | r => (false, r)
  match wholeDigits signed.2 with
  | none => none
  | some (whole, rest) =>
    let fraction := fractionDigits rest
    let exponent := Text.exponentPart fraction.2
    if fraction.1.isEmpty && exponent.1.isNone then
      if Text.maxIntegerDigits < whole.length then some (.error .longInteger)
      else
        let n : Int := Text.natOfDigits whole
        some (.ok (.int (if signed.1 then -n else n), rest))
    else
      let x := Binary64.ofDecimal signed.1 (Text.natOfDigits (whole ++ fraction.1))
        (exponent.1.getD 0 - fraction.1.length)
      some (.ok (.scalar (.float x), exponent.2))

/-- The words that stand for a value. -/
def literals : List (String × Value) :=
  [("null", .null), ("true", .bool true), ("false", .bool false), ("NaN", .scalar (.float .nan)),
    ("Infinity", .scalar (.float (.infinity false))),
    ("-Infinity", .scalar (.float (.infinity true)))]

/-- Reads one of the words that stand for a value. -/
def literal? (cs : List Char) : Option (Value × List Char) :=
  literals.findSome? fun l => (Text.dropLeading? l.1.toList cs).map fun r => (l.2, r)

/-- Reads a word or a number. -/
def atom : Reader Value := fun cs =>
  match literal? cs with
  | some r => .ok r
  | none =>
    match number? cs with
    | some r => r
    | none => stopAt .value cs

mutual

/-- Reads a value. The first argument bounds the number of steps, here and below: a bracket takes
two and a comma one. The second is the number of brackets that may open inside each other. -/
def value : Nat → (depth : Nat) → Reader Value
  | 0, _, cs => stopAt .value cs
  | n + 1, depth, cs =>
    match cs with
    | '\x22' :: r => (stringBody cs r).map fun p => (.text (String.ofList p.1), p.2)
    | '[' :: r =>
      match depth with
      | 0 => .error .tooDeep
      | d + 1 =>
        match skipSpace r with
        | ']' :: r => .ok (.list [], r)
        | r => items n d [] r
    | '{' :: r =>
      match depth with
      | 0 => .error .tooDeep
      | d + 1 =>
        match skipSpace r with
        | '}' :: r => .ok (.dict [], r)
        | r => members n d [] r
    | _ => atom cs

/-- Reads the items of a list from the first one on; `acc` holds those read, last first. -/
def items : Nat → (depth : Nat) → (acc : List Value) → Reader Value
  | 0, _, _, cs => stopAt .value cs
  | n + 1, depth, acc, cs =>
    match value n depth cs with
    | .error e => .error e
    | .ok (v, r) =>
      match skipSpace r with
      | ']' :: r => .ok (.list (v :: acc).reverse, r)
      | ',' :: r => items n depth (v :: acc) (skipSpace r)
      | r => stopAt .comma r

/-- Reads the members of an object from the first one on; `acc` holds those read. -/
def members : Nat → (depth : Nat) → (acc : Entries) → Reader Value
  | 0, _, _, cs => stopAt .value cs
  | n + 1, depth, acc, cs =>
    match cs with
    | '\x22' :: r =>
      match stringBody cs r with
      | .error e => .error e
      | .ok (key, r) =>
        match skipSpace r with
        | ':' :: r =>
          match value n depth (skipSpace r) with
          | .error e => .error e
          | .ok (v, r) =>
            let acc := Entries.insert (.text (String.ofList key)) v acc
            match skipSpace r with
            | '}' :: r => .ok (.dict acc, r)
            | ',' :: r => members n depth acc (skipSpace r)
            | r => stopAt .comma r
        | r => stopAt .colon r
    | _ => stopAt .propertyName cs

end

/-- The greatest number of brackets inside each other. -/
def maxDepth : Nat := 985

/-- Reads a text that holds one value and nothing else. -/
def document (cs : List Char) : Except Stop Value :=
  if cs.head? = some '\uFEFF' then stopAt .byteOrderMark cs
  else
    match value (2 * cs.length + 2) maxDepth (skipSpace cs) with
    | .error e => .error e
    | .ok (v, r) =>
      match skipSpace r with
      | [] => .ok v
      | r => stopAt .extraData r

/-- What is wrong with a text, and where: line and column count from one. -/
structure Problem where
  cause : Cause
  line : Nat
  column : Nat
  offset : Nat
  deriving DecidableEq, Repr

/-- The wording of a problem. -/
def Problem.message (p : Problem) : String :=
  p.cause.message ++ ": line " ++ toString p.line ++ " column " ++ toString p.column ++
    " (char " ++ toString p.offset ++ ")"

/-- The problem at a place of the text. -/
def Problem.at (cause : Cause) (cs : List Char) (offset : Nat) : Problem :=
  let before := cs.take offset
  { cause := cause
    line := before.count '\n' + 1
    column := (Text.takeSuffixWhile (· != '\n') before).length + 1
    offset := offset }

/-- Why a text cannot be read. -/
inductive Failure where
  | malformed (problem : Problem)
  | longInteger
  | tooDeep
  deriving DecidableEq, Repr

/-- Reads a JSON text. -/
def read (cs : List Char) : Except Failure Value :=
  match document cs with
  | .ok v => .ok v
  | .error (.malformed cause left) => .error (.malformed (.at cause cs (cs.length - left)))
  | .error .longInteger => .error .longInteger
  | .error .tooDeep => .error .tooDeep

end ApiScaffold.Json
