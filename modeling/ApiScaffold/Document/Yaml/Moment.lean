import ApiScaffold.Document.Value
import ApiScaffold.Document.Yaml.Lexeme

/-!
# Points in time in YAML

A day is a year of four digits, a month and a day between hyphens.  A time of day may follow, behind
a `T` or a gap, with a fraction of seconds and an offset from universal time.

* `Yaml.moment?` reads such a text;
* `Yaml.isTimestamp` says whether a plain scalar means one;
* `Yaml.timeValue` is the value of one, if there is such a day and such a time of day.
-/

namespace ApiScaffold.Yaml

/-- A number of at least `least` and at most `most` digits, as many as possible. -/
def digitsHere? (least most : Nat) (cs : List Char) : Option (Nat × List Char) :=
  let ds := (cs.take most).takeWhile Char.isDigit
  if ds.length < least then none else some (Text.natOfDigits ds, cs.drop ds.length)

/-- What follows the given character. -/
def after? (c : Char) : List Char → Option (List Char)
  | [] => none
  | d :: cs => if c = d then some cs else none

/-- The digits of a fraction as microseconds, further digits being dropped. -/
def microseconds (ds : List Char) : Nat :=
  let six := ds.take 6
  Text.natOfDigits (six ++ List.replicate (6 - six.length) '0')

/-- An offset from universal time behind a time of day, in minutes; `none` if the text is anything
else. -/
def offset? (cs : List Char) : Option (Option Int) :=
  match cs.dropWhile isGap with
  | [] => if cs.isEmpty then some none else none
  | ['Z'] => some (some 0)
  | sign :: rest => do
    if sign ≠ '+' ∧ sign ≠ '-' then none
    let (hours, rest) ← digitsHere? 1 2 rest
    let minutes ←
      match rest with
      | [] => some 0
      | ':' :: rest =>
        match digitsHere? 2 2 rest with
        | some (m, []) => some m
        | _ => none
      | _ => none
    let total : Int := hours * 60 + minutes
    return some (if sign = '-' then -total else total)

/-- A time of day on a day, behind the gap in between. -/
def clock? (day : Day) (cs : List Char) : Option Instant := do
  let (hour, cs) ← digitsHere? 1 2 cs
  let cs ← after? ':' cs
  let (minute, cs) ← digitsHere? 2 2 cs
  let cs ← after? ':' cs
  let (second, cs) ← digitsHere? 2 2 cs
  let (micro, cs) :=
    match cs with
    | '.' :: rest => (microseconds (rest.takeWhile Char.isDigit), rest.dropWhile Char.isDigit)
    | cs => (0, cs)
  let offset ← offset? cs
  return ⟨day, hour, minute, second, micro, offset⟩

/-- A day, or a time of day on a day. -/
def moment? (cs : List Char) : Option (Day × Option Instant) := do
  let (year, cs) ← digitsHere? 4 4 cs
  let cs ← after? '-' cs
  let (month, cs) ← digitsHere? 1 2 cs
  let cs ← after? '-' cs
  let (day, cs) ← digitsHere? 1 2 cs
  let date : Day := ⟨year, month, day⟩
  match cs with
  | [] => return (date, none)
  | c :: rest =>
    if c = 'T' ∨ c = 't' then (clock? date rest).map fun t => (date, some t)
    else if isGap c then (clock? date (rest.dropWhile isGap)).map fun t => (date, some t)
    else none

/-- Whether a text is a day with two digits each for month and day, or a time of day on a day. -/
def isTimestamp (cs : List Char) : Bool :=
  match moment? cs with
  | none => false
  | some (_, some _) => true
  | some (_, none) => cs.length == 10

/-- Whether a year has a leap day. -/
def isLeapYear (year : Nat) : Bool := year % 4 == 0 && (year % 100 != 0 || year % 400 == 0)

/-- The number of days of a month. -/
def daysOfMonth (year month : Nat) : Nat :=
  if month = 2 then (if isLeapYear year then 29 else 28)
  else if [4, 6, 9, 11].contains month then 30
  else 31

/-- Whether there is such a day. -/
def isDay (d : Day) : Bool :=
  1 ≤ d.year && 1 ≤ d.month && d.month ≤ 12 && 1 ≤ d.day && d.day ≤ daysOfMonth d.year d.month

/-- Whether there is such a point in time. -/
def isInstant (t : Instant) : Bool :=
  isDay t.day && t.hour < 24 && t.minute < 60 && t.second < 60 &&
    (match t.offset with
      | none => true
      | some o => o.natAbs < 1440)

/-- The value of a day or a point in time. -/
def timeValue (cs : List Char) : Except Failure Scalar :=
  match moment? (withoutLastBreak cs) with
  | none => .error (.misuse .noSuchPart)
  | some (d, none) => if isDay d then .ok (.day d) else badText
  | some (_, some t) => if isInstant t then .ok (.instant t) else badText

end ApiScaffold.Yaml
