import ApiScaffold.Document.Value
import ApiScaffold.Fault

/-!
# Types of properties

* `Draft.textOf` is the text of a value, or the fault that it has none;
* `Draft.renameType` takes a declared type over, with one renaming and a fallback;
* `Draft.literalUnion` writes the values of an enumeration as a union of string literals.
-/

namespace ApiScaffold.Draft

/-- The text of a value, which must not hold an integer of too many digits. -/
def textOf (v : Value) : Except Fault String :=
  match v.written? with
  | some s => .ok s
  | none => .error (.misuse .badText)

/-- The type of a property that declares none. -/
def fallbackType : String := "unknown"

/-- The declared type as the property's type. Integers are numbers; a value that cannot be a key is
refused. -/
def renameType (declared : Value) : Except Fault Value :=
  if !declared.isTruthy then .ok (.text fallbackType)
  else if !declared.isKey then .error (.misuse .wrongKind)
  else
    match declared with
    | .text "integer" => .ok (.text "number")
    | v => .ok v

/-- The text of a literal: truth values in small letters. -/
def literalText : Value → Except Fault String
  | .bool b => .ok (if b then "true" else "false")
  | v => textOf v

/-- The texts of literals in order. -/
def literalTexts : List Value → Except Fault (List String)
  | [] => .ok []
  | v :: vs =>
    match literalText v with
    | .error e => .error e
    | .ok s => (literalTexts vs).map (s :: ·)

/-- Texts as string literals with bars between them. -/
def unionText (texts : List String) : String :=
  " | ".intercalate (texts.map fun s => String.ofList (Text.quote .unicode s.toList))

/-- What a value is made of: the items of a list, the keys of a mapping or a set, the characters of
a text, the numbers of bytes, the values of a pair. -/
def parts? (v : Value) : Option (List Value) :=
  match v.content with
  | .list items => some items
  | .dict es => some (es.map fun e => .scalar e.1)
  | .keys ks => some (ks.map Value.scalar)
  | .pair a b => some [a, b]
  | .text s => some (s.toList.map fun c => .text (String.singleton c))
  | .scalar (.bytes bs) => some (bs.map fun b => .int b.toNat)
  | _ => none

/-- The union of the parts of a value. -/
def literalUnion (values : Value) : Except Fault String :=
  match parts? values with
  | some vs => (literalTexts vs).map unionText
  | none => .error (.misuse .wrongKind)

end ApiScaffold.Draft
