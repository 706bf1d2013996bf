import ApiScaffold.Document.Value
import ApiScaffold.Resource.Problem

/-!
# Checks

A check reads a document value as something more definite, or answers with every problem it finds.
Checks of the parts of a record are combined by `Checked.and`, which keeps the problems of both
sides; `under` places problems below a step.

Checks are lenient: bytes are read as the text that they encode, some texts and numbers as truth
values, pairs and sets as the lists of their items.  A value that does not end is neither a list nor
a mapping here: no resource could be made of it.
-/

namespace ApiScaffold

/-- What a check found: a value, or problems. -/
abbrev Checked (α : Type) := Except (List Problem) α

namespace Checked

variable {α β : Type}

/-- The single problem of a value as a whole. -/
def object (o : Objection) : Checked α := .error [⟨o, []⟩]

/-- Places the problems below a step. -/
def under (step : Step) : Checked α → Checked α
  | .ok a => .ok a
  | .error ps => .error (ps.map fun p => { p with place := step :: p.place })

/-- Gives a further argument to a record under construction; the problems of both are kept. -/
def and : Checked (α → β) → Checked α → Checked β
  | .ok f, .ok a => .ok (f a)
  | .ok _, .error qs => .error qs
  | .error ps, .ok _ => .error ps
  | .error ps, .error qs => .error (ps ++ qs)

/-- Adds problems to those found. -/
def withProblems (qs : List Problem) : Checked α → Checked α
  | .ok a => if qs.isEmpty then .ok a else .error qs
  | .error ps => .error (ps ++ qs)

/-- Checks what came out of a check that found no problem. -/
def andThen (c : Checked α) (f : α → Checked β) : Checked β :=
  match c with
  | .ok a => f a
  | .error ps => .error ps

end Checked

/-- A check of a value. -/
abbrev Check (α : Type) := Value → Checked α

namespace Check

variable {α : Type}

/-- Any text, possibly given by its bytes. -/
def anyText : Check String
  | .text s => .ok s
  | .scalar (.bytes bs) =>
    match String.fromUTF8? (ByteArray.mk bs.toArray) with
    | some s => .ok s
    | none => .object .notUnicode
  | _ => .object .notText

/-- A text that is not empty. -/
def someText : Check String := fun v =>
  (anyText v).andThen fun s => if s = "" then .object .emptyText else .ok s

/-- Null, or what the given check accepts. -/
def orNull (check : Check α) : Check (Option α)
  | .null => .ok none
  | v => (check v).andThen fun a => .ok (some a)

/-- The texts that stand for true. -/
def yesWords : List String := ["1", "on", "t", "true", "y", "yes"]

/-- The texts that stand for false. -/
def noWords : List String := ["0", "off", "f", "false", "n", "no"]

/-- Whether a number is one of 64 bits with a sign. -/
def isWord (n : Int) : Bool := -(Nat.pow 2 63) ≤ n && n < Nat.pow 2 63

/-- The truth value of zero and one; another number is no word for a truth value, and one beyond 64
bits is not even looked at. -/
def truthOfInt (n : Int) : Checked Bool :=
  if n = 0 then .ok false
  else if n = 1 then .ok true
  else if isWord n then .object .unknownTruth
  else .object .notTruth

/-- The truth value of a word for true or false in any ASCII case. -/
def truthOfText (s : String) : Checked Bool :=
  let word := String.ofList (s.toList.map Char.toLower)
  if yesWords.contains word then .ok true
  else if noWords.contains word then .ok false
  else .object .unknownTruth

/-- A truth value, zero or one, or a word for a truth value, possibly given by its bytes. -/
def truth : Check Bool
  | .scalar (.bool b) => .ok b
  | .scalar (.int n) => truthOfInt n
  | .scalar (.float x) =>
    match x.toInt? with
    | some n => truthOfInt n
    | none => .object .notTruth
  | .scalar (.text s) => truthOfText s
  | .scalar (.bytes bs) =>
    match String.fromUTF8? (ByteArray.mk bs.toArray) with
    | some s => truthOfText s
    | none => .object .unknownTruth
  | _ => .object .notTruth

/-- The items of a list from a given index on, each by the same check. -/
def itemsFrom (check : Check α) : (index : Nat) → List Value → Checked (List α)
  | _, [] => .ok []
  | i, v :: vs =>
    ((Checked.under (.index i) (check v)).andThen fun a => .ok (a :: ·)).and
      (itemsFrom check (i + 1) vs)

/-- The items of a value that may stand for a list: of a list, a pair or a set of keys. -/
def listItems? : Value → Option (List Value)
  | .list vs => some vs
  | .pair a b => some [a, b]
  | .keys ks => some (ks.map .scalar)
  | _ => none

/-- A list of items that the given check accepts. -/
def listOf (check : Check α) : Check (List α) := fun v =>
  match listItems? v with
  | some vs => itemsFrom check 0 vs
  | none => .object .notList

/-- A list of at most one item. -/
def atMostOne (check : Check α) : Check (List α) := fun v =>
  match listItems? v with
  | some vs => if 1 < vs.length then .object (.tooLong vs.length) else itemsFrom check 0 vs
  | none => .object .notList

/-- A mapping, checked by its entries; `kind` names what it should be. -/
def mapping (kind : String) (check : Entries → Checked α) : Check α
  | .dict es => check es
  | _ => .object (.notMapping kind)

/-- The value of a key that has to be there. -/
def required (name : String) (check : Check α) (es : Entries) : Checked α :=
  Checked.under (.key name) <|
    match Entries.find? (.text name) es with
    | some v => check v
    | none => .object .missing

/-- The value of a key, or a default where the key is absent. -/
def optional (name : String) (default : α) (check : Check α) (es : Entries) : Checked α :=
  match Entries.find? (.text name) es with
  | some v => Checked.under (.key name) (check v)
  | none => .ok default

/-- The step to the value of a key: a number of at most 64 bits is an index. -/
def keyStep : Scalar → Step
  | .text s => .key s
  | .int n => if isWord n then .index n else .key (toString n)
  | .bool b => .index (if b then 1 else 0)
  | k => .key k.literal

/-- The objection to a key outside the given names, if it is one. -/
def strayKey? (names : List String) : Scalar → Option Problem
  | .text s => if names.contains s then none else some ⟨.unknownKey, [.key s]⟩
  | k => some ⟨.keyNotText, [keyStep k]⟩

/-- The problems of the keys outside the given names, in order. -/
def strayKeys (names : List String) (es : Entries) : List Problem :=
  es.filterMap fun e => strayKey? names e.1

end Check

end ApiScaffold
