import ApiScaffold.Document.Yaml.Moment
import ApiScaffold.Document.Yaml.Number
import ApiScaffold.Text.Base64

/-!
# What YAML scalars mean

The tag of a plain scalar follows from its text, and the value of a scalar from its tag and text.

* `Yaml.resolvePlain` finds the tag: a truth value, a float, an integer, a merge key, null, a point
  in time, a default key, a lone mark, or else a text;
* `Yaml.scalarValue` finds the value.
-/

namespace ApiScaffold.Yaml

/-- What a node is. -/
inductive Tag where
  | null
  | bool
  | int
  | float
  | timestamp
  | binary
  | str
  | seq
  | map
  | set
  | orderedMap
  | pairs
  | merge
  | defaultKey
  | unknown
  deriving DecidableEq, Repr

/-- The tag of the given name. -/
def Tag.ofString (s : String) : Tag :=
  match s with
  | "tag:yaml.org,2002:null" => null
  | "tag:yaml.org,2002:bool" => bool
  | "tag:yaml.org,2002:int" => int
  | "tag:yaml.org,2002:float" => float
  | "tag:yaml.org,2002:timestamp" => timestamp
  | "tag:yaml.org,2002:binary" => binary
  | "tag:yaml.org,2002:str" => str
  | "tag:yaml.org,2002:seq" => seq
  | "tag:yaml.org,2002:map" => map
  | "tag:yaml.org,2002:set" => set
  | "tag:yaml.org,2002:omap" => orderedMap
  | "tag:yaml.org,2002:pairs" => pairs
  | "tag:yaml.org,2002:merge" => merge
  | "tag:yaml.org,2002:value" => defaultKey
  | _ => unknown

/-- The words for truth values, each in the three spellings that count. -/
def isTruthWord (cs : List Char) : Bool :=
  ["yes", "no", "true", "false", "on", "off"].any fun w =>
    let small := w.toList
    let capital := small.map Char.toUpper
    cs == small || cs == capital || cs == capital.take 1 ++ small.drop 1

/-- The words for null. -/
def isNullWord (cs : List Char) : Bool := ["~", "null", "Null", "NULL"].any fun w => cs == w.toList

/-- The characters that are no text on their own. -/
def isLoneMark (cs : List Char) : Bool := cs == ['!'] || cs == ['&'] || cs == ['*']

/-- The tag of a plain scalar. A line feed at the end does not count. -/
def resolvePlain (cs : List Char) : Tag :=
  let shown := withoutLastBreak cs
  if isTruthWord shown then .bool
  else if isFloat shown then .float
  else if isInt shown then .int
  else if shown == ['<', '<'] then .merge
  else if cs.isEmpty || isNullWord shown then .null
  else if isTimestamp shown then .timestamp
  else if shown == ['='] then .defaultKey
  else if isLoneMark shown then .unknown
  else .str

/-- The truth value of a word. -/
def truthValue (cs : List Char) : Except Failure Scalar :=
  let word := String.ofList (cs.map Char.toLower)
  if ["yes", "true", "on"].contains word then .ok (.bool true)
  else if ["no", "false", "off"].contains word then .ok (.bool false)
  else .error (.misuse .unknownKey)

/-- The bytes that a text of ASCII characters denotes. -/
def binaryValue (cs : List Char) : Except Failure Scalar :=
  if cs.all fun c => c.toNat < 128 then
    match Text.Base64.decode cs with
    | some bs => .ok (.bytes bs)
    | none => malformed
  else malformed

/-- The value of a scalar; a tag of collections has none. -/
def scalarValue (tag : Tag) (text : String) : Except Failure Scalar :=
  match tag with
  | .null => .ok .null
  | .bool => truthValue text.toList
  | .int => intValue text.toList
  | .float => floatValue text.toList
  | .timestamp => timeValue text.toList
  | .binary => binaryValue text.toList
  | .str => .ok (.text text)
  | _ => malformed

end ApiScaffold.Yaml
