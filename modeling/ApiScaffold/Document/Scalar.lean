import ApiScaffold.Decimal.Shortest
import ApiScaffold.Text.Quoted

/-!
# Scalars of a document

The values without parts: they are what a mapping may have as keys.

* `Scalar.same` says when two scalars are one key: numbers by their value, whether written as a
  truth value, an integer or a float, everything else by its kind and content;
* `Scalar.plain` is the text of a scalar, `Scalar.literal` its text inside a list or mapping;
* `Scalar.isWritable` says whether the text is short enough to be written.
-/

namespace ApiScaffold

/-- A calendar day. -/
structure Day where
  year : Nat
  month : Nat
  day : Nat
  deriving DecidableEq, Repr

/-- A point in time; `offset` is the distance from universal time in minutes, if it is given. -/
structure Instant where
  day : Day
  hour : Nat
  minute : Nat
  second : Nat
  micro : Nat
  offset : Option Int
  deriving DecidableEq, Repr

/-- A value without parts. -/
inductive Scalar where
  | null
  | bool (b : Bool)
  | int (n : Int)
  | float (x : Binary64)
  | text (s : String)
  | bytes (bs : List UInt8)
  | day (d : Day)
  | instant (t : Instant)
  deriving DecidableEq, Repr

namespace Scalar

/-- The integer that a truth value, an integer or a whole float stands for. -/
def wholeNumber? : Scalar → Option Int
  | bool b => some (if b then 1 else 0)
  | int n => some n
  | float x => x.toInt?
  | _ => none

/-- Days from a fixed day to the given one, in the calendar without exceptions. -/
def dayNumber (d : Day) : Int :=
  let m : Int := (d.month + 9) % 12
  let y : Int := d.year - m / 10
  365 * y + y / 4 - y / 100 + y / 400 + (m * 306 + 5) / 10 + d.day

/-- Microseconds from a fixed moment to a point in time with a known offset. -/
def universal? (t : Instant) : Option Int :=
  t.offset.map fun o =>
    (((dayNumber t.day * 24 + t.hour) * 60 + t.minute - o) * 60 + t.second) * 1000000 + t.micro

/-- Whether two scalars are the same key. -/
def same (a b : Scalar) : Bool :=
  match a.wholeNumber?, b.wholeNumber? with
  | some m, some n => m == n
  | none, none =>
    match a, b with
    | instant s, instant t =>
      match universal? s, universal? t with
      | some u, some v => u == v
      | none, none => s == t
      | _, _ => false
    | _, _ => a == b
  | _, _ => false

/-- A text is the same key as no other scalar. -/
theorem same_text_iff {a : Scalar} {s : String} : a.same (.text s) = true ↔ a = .text s := by
  cases a with
  | float x => cases h : x.toInt? <;> simp [same, wholeNumber?, h]
  | _ => simp [same, wholeNumber?]

/-- Whether the scalar counts as present: neither null nor false nor zero nor empty. -/
def isTruthy : Scalar → Bool
  | null => false
  | bool b => b
  | int n => n != 0
  | float x => x.magnitude != 0
  | text s => s != ""
  | bytes bs => !bs.isEmpty
  | day _ => true
  | instant _ => true

/-- A number with at least `width` digits. -/
def padded (width n : Nat) : List Char :=
  let ds := Text.digitsOf n
  List.replicate (width - ds.length) '0' ++ ds

/-- A day as year, month and day. -/
def dayText (d : Day) : List Char :=
  padded 4 d.year ++ '-' :: padded 2 d.month ++ '-' :: padded 2 d.day

/-- An offset as a sign, hours and minutes. -/
def offsetText (o : Int) : List Char :=
  (if o < 0 then '-' else '+') :: padded 2 (o.natAbs / 60) ++ ':' :: padded 2 (o.natAbs % 60)

/-- A point in time as day and time of day, with microseconds and offset where there are any. -/
def instantText (t : Instant) : List Char :=
  dayText t.day ++ ' ' :: padded 2 t.hour ++ ':' :: padded 2 t.minute ++ ':' :: padded 2 t.second ++
    (if t.micro = 0 then [] else '.' :: padded 6 t.micro) ++
    (match t.offset with | none => [] | some o => offsetText o)

/-- The text of an offset inside the literal of a point in time. -/
def offsetLiteral (o : Int) : String :=
  if o = 0 then "datetime.timezone.utc"
  else
    let minutes : Int := o % 1440
    let days := if o < 0 then "days=-1, " else ""
    "datetime.timezone(datetime.timedelta(" ++ days ++ "seconds=" ++ toString (minutes * 60) ++ "))"

/-- The fields of a time of day that its literal shows: seconds and microseconds only where they do
not vanish. -/
def clockFields (t : Instant) : List Nat :=
  [t.hour, t.minute] ++
    (if t.second = 0 ∧ t.micro = 0 then [] else [t.second]) ++
    (if t.micro = 0 then [] else [t.micro])

/-- The text of a scalar. -/
def plain : Scalar → String
  | null => "None"
  | bool b => if b then "True" else "False"
  | int n => toString n
  | float x => String.ofList x.render
  | text s => s
  | bytes bs => String.ofList (Text.displayBytes bs)
  | day d => String.ofList (dayText d)
  | instant t => String.ofList (instantText t)

/-- The text of a scalar inside a list or mapping: texts are quoted and dates written as calls. -/
def literal : Scalar → String
  | text s => String.ofList (Text.display s.toList)
  | day d => "datetime.date(" ++ ", ".intercalate ([d.year, d.month, d.day].map toString) ++ ")"
  | instant t =>
    "datetime.datetime(" ++
      ", ".intercalate (([t.day.year, t.day.month, t.day.day] ++ clockFields t).map toString) ++
      (match t.offset with | none => "" | some o => ", tzinfo=" ++ offsetLiteral o) ++ ")"
  | s => s.plain

/-- Whether the scalar has a text: integers of too many digits have none. -/
def isWritable : Scalar → Bool
  | int n => n.natAbs < Nat.pow 10 Text.maxIntegerDigits
  | _ => true

end Scalar

end ApiScaffold
