import ApiScaffold.Resource.Basic
import ApiScaffold.Resource.Problem

/-!
# Faults

Everything that can go wrong between a document and the files generated from it, by its cause.

* `SpecCause` lists what is wrong with a document, `Misuse` the accesses that a value does not
  support;
* `Fault.message` is the wording of a fault, with the place that it names in front.

A misuse has no wording: it is an access that nobody foresaw.
-/

namespace ApiScaffold

/-- What makes a document unusable. -/
inductive SpecCause where
  | unreadable (reason : String)
  | unparsable (detail : Option String)
  | rootNotMapping
  | otherVersion (found : String)
  | remoteReference
  | unresolvableReference
  | circularReference
  | noSchemas
  | schemaNotMapping
  | schemaOnlyReference
  | propertiesNotMapping
  | propertyNotMapping
  | pathsNotMapping
  | pathItemNotMapping
  | rootPath
  | unnamedParameter
  deriving DecidableEq, Repr

/-- The wording of a cause. -/
def SpecCause.message : SpecCause → String
  | unreadable reason => "cannot read document (" ++ reason ++ ")"
  | unparsable none => "cannot parse document"
  | unparsable (some detail) => "cannot parse document: " ++ detail
  | rootNotMapping => "document root must be a mapping"
  | otherVersion found => "expected an OpenAPI 3.x document, found " ++ found
  | remoteReference => "only local references are supported"
  | unresolvableReference => "unresolvable reference"
  | circularReference => "circular reference"
  | noSchemas => "document has no schemas to compile"
  | schemaNotMapping => "schema must be a mapping"
  | schemaOnlyReference => "a schema that is only a $ref is not supported"
  | propertiesNotMapping => "properties must be a mapping"
  | propertyNotMapping => "property must be a mapping"
  | pathsNotMapping => "paths must be a mapping"
  | pathItemNotMapping => "path item must be a mapping"
  | rootPath => "the root path cannot be grouped into a resource"
  | unnamedParameter => "parameter without a name"

/-- An access that a value does not support. -/
inductive Misuse where
  /-- A part is asked for by name, or a text is treated as a text, where the value has no such
  part. -/
  | noSuchPart
  /-- A value is taken apart, or serves as a key, that cannot. -/
  | wrongKind
  /-- A text does not denote a value of the kind it announces. -/
  | badText
  /-- A number is too large for its use. -/
  | tooLarge
  /-- Values are nested too deeply, or without end. -/
  | tooDeep
  /-- A key or word is looked up that is not there. -/
  | unknownKey
  /-- A position lies outside the text. -/
  | outOfRange
  /-- The bytes of a file are not text. -/
  | notText
  /-- A directory stands where a file is read. -/
  | directory
  deriving DecidableEq, Repr

/-- Why a generated file is not there. -/
inductive EmissionCause where
  | cannotWrite (reason : String)
  | invalid (files : List (String × List String))
  deriving DecidableEq, Repr

/-- The wording of a cause. -/
def EmissionCause.message : EmissionCause → String
  | cannotWrite reason => "cannot write file (" ++ reason ++ ")"
  | invalid files =>
    toString files.length ++ " generated file(s) failed validation (" ++
      "; ".intercalate (files.map fun f => f.1 ++ ": " ++ ", ".intercalate f.2) ++ ")"

/-- What is wrong with a setting. -/
inductive SettingCause where
  | notText
  | notPath
  | notInteger
  | unparsableInteger
  | fractionalInteger
  | oversizedInteger
  | notFinite
  | belowOne
  deriving DecidableEq, Repr

/-- The wording of a cause. -/
def SettingCause.message : SettingCause → String
  | notText => "Input should be a valid string"
  | notPath => "Input is not a valid path for <class 'pathlib.Path'>"
  | notInteger => "Input should be a valid integer"
  | unparsableInteger => "Input should be a valid integer, unable to parse string as an integer"
  | fractionalInteger => "Input should be a valid integer, got a number with a fractional part"
  | oversizedInteger => "Unable to parse input string as an integer, exceeded maximum size"
  | notFinite => "Input should be a finite number"
  | belowOne => "Input should be greater than or equal to 1"

/-- Everything that can go wrong. -/
inductive Fault where
  /-- The document is unusable at a place, which may be empty. -/
  | spec (cause : SpecCause) (location : String)
  /-- An operation has no identifier to name its method after. -/
  | missingOperationId (path : String) (verb : Verb)
  /-- The data of a resource violates its schema. -/
  | invalidNode (kind : Kind) (name : String) (problems : List Problem)
  /-- A file could not be generated. -/
  | emission (path : String) (cause : EmissionCause)
  /-- Settings are invalid. -/
  | settings (causes : List (String × SettingCause))
  /-- A value was accessed in a way that it does not support. -/
  | misuse (m : Misuse)
  deriving DecidableEq, Repr

namespace Fault

/-- Puts a place in front of a message, if there is one. -/
def located (location message : String) : String :=
  if location = "" then message else location ++ ": " ++ message

/-- The verb in capitals. -/
def verbWord (v : Verb) : String := String.ofList (v.name.toList.map Char.toUpper)

/-- The wording of a fault; a misuse has none. -/
def message : Fault → String
  | spec cause location => located location cause.message
  | missingOperationId path verb => located path (verbWord verb ++ " operation has no operationId")
  | invalidNode kind name problems =>
    "Schema validation failed for " ++ kind.name ++ ": " ++
      (if name = "" then "<unnamed>" else name) ++
      " (" ++ "; ".intercalate (problems.map Problem.line) ++ ")"
  | emission path cause => path ++ ": " ++ cause.message
  | settings causes =>
    "invalid configuration (" ++
      "; ".intercalate (causes.map fun c => c.1 ++ ": " ++ c.2.message) ++ ")"
  | misuse _ => ""

end Fault

end ApiScaffold
