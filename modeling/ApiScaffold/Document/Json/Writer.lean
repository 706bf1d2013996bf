import ApiScaffold.Document.Value

/-!
# Writing JSON

Two layouts of a value as JSON text: `Json.compact` on one line, `Json.pretty` with every item and
entry on a line of its own, indented by two spaces a level.  Characters outside ASCII are written as
themselves, and sets and pairs as lists.
-/

namespace ApiScaffold.Json

/-- The text of a number as JSON, with words for what is not finite. -/
def floatText (x : Binary64) : String :=
  if x.isNaN then "NaN"
  else if x.isFinite then String.ofList x.render
  else if x.isNegative then "-Infinity" else "Infinity"

/-- The text of a scalar as JSON. -/
def scalarText : Scalar → String
  | .null => "null"
  | .bool b => if b then "true" else "false"
  | s@(.int _) => s.plain
  | .float x => floatText x
  | s => String.ofList (Text.quote .unicode s.plain.toList)

/-- A key as JSON: always between quotes. -/
def keyText (k : Scalar) : String :=
  match k with
  | .null | .bool _ | .int _ | .float _ => "\"" ++ scalarText k ++ "\""
  | k => scalarText k

mutual

/-- A value on one line. -/
def compact : Value → String
  | .scalar s => scalarText s
  | .list items => "[" ++ ", ".intercalate (compactItems items) ++ "]"
  | .dict es => "\x7b" ++ ", ".intercalate (compactEntries es) ++ "\x7d"
  | .keys ks => "[" ++ ", ".intercalate (ks.map scalarText) ++ "]"
  | .pair a b => "[" ++ compact a ++ ", " ++ compact b ++ "]"
  | .numbered _ v => compact v

/-- The items of a list on one line. -/
def compactItems : List Value → List String
  | [] => []
  | v :: vs => compact v :: compactItems vs

/-- The entries of a mapping on one line. -/
def compactEntries : List (Scalar × Value) → List String
  | [] => []
  | e :: es => compactEntry e :: compactEntries es

/-- An entry of a mapping on one line. -/
def compactEntry : Scalar × Value → String
  | (k, v) => keyText k ++ ": " ++ compact v

end

/-- A line break and the indentation of a level. -/
def lineBreak (level : Nat) : String := "\n" ++ String.ofList (List.replicate (2 * level) ' ')

/-- Puts parts on lines of their own between brackets. -/
def bracketed (opening closing : String) (level : Nat) (parts : List String) : String :=
  if parts.isEmpty then opening ++ closing
  else
    opening ++ lineBreak (level + 1) ++ ("," ++ lineBreak (level + 1)).intercalate parts ++
      lineBreak level ++ closing

mutual

/-- A value over several lines, its own brackets at the given level. -/
def pretty (level : Nat) : Value → String
  | .scalar s => scalarText s
  | .list items => bracketed "[" "]" level (prettyItems (level + 1) items)
  | .dict es => bracketed "\x7b" "\x7d" level (prettyEntries (level + 1) es)
  | .keys ks => bracketed "[" "]" level (ks.map scalarText)
  | .pair a b => bracketed "[" "]" level [pretty (level + 1) a, pretty (level + 1) b]
  | .numbered _ v => pretty level v

/-- The items of a list over several lines. -/
def prettyItems (level : Nat) : List Value → List String
  | [] => []
  | v :: vs => pretty level v :: prettyItems level vs

/-- The entries of a mapping over several lines. -/
def prettyEntries (level : Nat) : List (Scalar × Value) → List String
  | [] => []
  | e :: es => prettyEntry level e :: prettyEntries level es

/-- An entry of a mapping over several lines. -/
def prettyEntry (level : Nat) : Scalar × Value → String
  | (k, v) => keyText k ++ ": " ++ pretty level v

end

end ApiScaffold.Json
