/-!
# Problems of a resource's data

What a check of a resource's data can object to, where, and in which words.
-/

namespace ApiScaffold

/-- A step from a value to one of its parts. -/
inductive Step where
  | key (name : String)
  | index (n : Int)
  deriving DecidableEq, Repr

/-- The text of a step. -/
def Step.text : Step → String
  | key name => name
  | index n => toString n

/-- What is wrong with a part. -/
inductive Objection where
  | missing
  | unknownKey
  | keyNotText
  | notText
  | notUnicode
  | emptyText
  | notList
  | tooLong (count : Nat)
  | notMapping (kind : String)
  | notVerb
  | notTruth
  | unknownTruth
  | duplicateImports (names : List String)
  | serviceImports (wanted : String) (found : Nat)
  deriving DecidableEq, Repr

namespace Objection

/-- The word that classifies an objection. -/
def label : Objection → String
  | missing => "missing"
  | unknownKey => "extra_forbidden"
  | keyNotText => "invalid_key"
  | notText => "string_type"
  | notUnicode => "string_unicode"
  | emptyText => "string_too_short"
  | notList => "list_type"
  | tooLong _ => "too_long"
  | notMapping _ => "model_type"
  | notVerb => "literal_error"
  | notTruth => "bool_type"
  | unknownTruth => "bool_parsing"
  | duplicateImports _ => "value_error"
  | serviceImports _ _ => "value_error"

/-- The wording of an objection. -/
def message : Objection → String
  | missing => "Field required"
  | unknownKey => "Extra inputs are not permitted"
  | keyNotText => "Keys should be strings"
  | notText => "Input should be a valid string"
  | notUnicode =>
    "Input should be a valid string, unable to parse raw data as a unicode string"
  | emptyText => "String should have at least 1 character"
  | notList => "Input should be a valid list"
  | tooLong n => "List should have at most 1 item after validation, not " ++ toString n
  | notMapping kind => "Input should be a valid dictionary or instance of " ++ kind
  | notVerb => "Input should be 'get', 'post', 'put', 'delete' or 'patch'"
  | notTruth => "Input should be a valid boolean"
  | unknownTruth => "Input should be a valid boolean, unable to interpret input"
  | duplicateImports names => "Value error, duplicate imports: " ++ ", ".intercalate names
  | serviceImports wanted found =>
    "Value error, expected exactly one " ++ wanted ++ " import, found " ++ toString found

end Objection

/-- An objection to the part at a place. -/
structure Problem where
  objection : Objection
  place : List Step
  deriving DecidableEq, Repr

/-- A problem in one line: its place, or a word for the whole, and its wording. -/
def Problem.line (p : Problem) : String :=
  let place := ".".intercalate (p.place.map Step.text)
  (if place = "" then "<root>" else place) ++ ": " ++ p.objection.message

end ApiScaffold
