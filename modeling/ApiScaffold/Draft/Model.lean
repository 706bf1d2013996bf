import ApiScaffold.Draft.Type
import ApiScaffold.Reference
import ApiScaffold.Resource.Schema
import ApiScaffold.Settings

/-!
# Models in draft

A schema of the document becomes the data of a model, which the model's schema then checks.

The type of a property comes from the first of these that it has: a reference, an enumeration,
items, a declared type.  A list of types declares the first that is not `null` and makes the
property nullable if `null` is among them.
-/

namespace ApiScaffold.Draft

/-- A property before its check. -/
structure FieldDraft where
  name : String
  nullable : Bool
  description : Value
  format : Value
  type : Value
  ref : Option String
  topLevel : Bool
  enumValues : Option String

/-- The data of a property. -/
def FieldDraft.data (f : FieldDraft) : Value :=
  .record [("name", .text f.name), ("nullable", .bool f.nullable),
    ("description", f.description), ("format", f.format), ("type", f.type),
    ("ref", optionalText f.ref), ("top_level", .bool f.topLevel),
    ("enum_values", optionalText f.enumValues)]

/-- What the shape of a property decides. -/
structure Shape where
  type : Value
  ref : Option String
  topLevel : Bool
  enumValues : Option String

/-- A type without a reference or an enumeration. -/
def Shape.plain (type : Value) : Shape := ⟨type, none, false, none⟩

/-- A reference. -/
def Shape.reference (name : String) : Shape := ⟨.text name, none, true, none⟩

/-- An array of references. -/
def Shape.references (name : String) : Shape := ⟨.text (name ++ "[]"), some name, false, none⟩

/-- An enumeration. -/
def Shape.union (text : String) : Shape := ⟨.text text, none, false, some text⟩

/-- Whether a value is the text `null`. -/
def isNullWord : Value → Bool
  | .text s => s == "null"
  | _ => false

/-- The declared type: of a list the first that is not `null`. -/
def declaredType (prop : Value) : Value :=
  let declared := (prop.field? "type").getD .null
  match declared.items? with
  | some types => (types.find? fun t => !isNullWord t).getD .null
  | none => declared

/-- Whether a property may be null. -/
def isNullable (prop : Value) : Bool :=
  (match prop.field? "nullable" with
    | some (.bool true) => true
    | _ => false) ||
  ((prop.field? "type").bind Value.items?).any fun types => types.any isNullWord

/-- The shape of a property with items. -/
def arrayShape (items declared : Value) : Except Fault Shape :=
  match items.field? "$ref" with
  | some ref => (Reference.className ref).map Shape.references
  | none =>
    match items.field? "enum" with
    | some values => (literalUnion values).map Shape.union
    | none =>
      match Value.present? (items.field? "type") with
      | some t =>
        match renameType t with
        | .error e => .error e
        | .ok r => (textOf r).map fun s => .plain (.text (s ++ "[]"))
      | none => (renameType declared).map Shape.plain

/-- The shape of a property. -/
def shapeOf (prop : Value) : Except Fault Shape :=
  match prop.field? "$ref" with
  | some ref => (Reference.className ref).map Shape.reference
  | none =>
    match prop.field? "enum" with
    | some values => (literalUnion values).map Shape.union
    | none =>
      match prop.field? "items" with
      | some items => arrayShape items (declaredType prop)
      | none => (renameType (declaredType prop)).map Shape.plain

/-- A description that is absent counts as empty. -/
def descriptionOf (v : Value) : Value := (Value.present? (v.field? "description")).getD (.text "")

/-- A property of a schema. -/
def fieldDraft (name : String) (prop : Value) : Except Fault FieldDraft :=
  (shapeOf prop).map fun s =>
    { name := name
      nullable := isNullable prop
      description := descriptionOf prop
      format := (prop.field? "format").getD .null
      type := s.type
      ref := s.ref
      topLevel := s.topLevel
      enumValues := s.enumValues }

/-- The class that a property refers to, directly or as the element of an array. -/
def FieldDraft.target? (f : FieldDraft) : Option String :=
  match f.ref with
  | some r =>
    if r ≠ "" then some r
    else if f.topLevel then some f.type.plain else none
  | none => if f.topLevel then some f.type.plain else none

/-- The first occurrences of names that are not in `seen`. -/
def freshNames : (seen : List String) → List String → List String
  | _, [] => []
  | seen, n :: ns =>
    if seen.contains n then freshNames seen ns else n :: freshNames (n :: seen) ns

/-- The imports of a model: the classes its properties refer to, each once, without the model. -/
def modelImports (settings : Settings) (model : String) (fields : List FieldDraft) :
    List Import :=
  (freshNames [model] (fields.filterMap FieldDraft.target?)).map fun n =>
    ⟨n, settings.modelImportPath n⟩

/-- A model before its check. -/
structure ModelDraft where
  name : String
  description : Value
  fields : List FieldDraft
  imports : List Import

/-- The data of a model. -/
def ModelDraft.data (m : ModelDraft) : Value :=
  .record [("name", .text m.name), ("description", m.description),
    ("fields", .list (m.fields.map FieldDraft.data)),
    ("imports", .list (m.imports.map Import.data))]

/-- The properties of a schema in order. -/
def fieldDrafts (location : String) : List (Scalar × Value) → Except Fault (List FieldDraft)
  | [] => .ok []
  | (k, prop) :: rest =>
    match textOf (.scalar k) with
    | .error e => .error e
    | .ok name =>
      if prop.entries?.isNone then .error (.spec .propertyNotMapping (location ++ "." ++ name))
      else
        match fieldDraft name prop with
        | .error e => .error e
        | .ok f => (fieldDrafts location rest).map (f :: ·)

/-- The entries of a mapping that may be absent; `none` for a value of another kind. -/
def entriesOf? (v : Option Value) : Option Entries :=
  match Value.present? v with
  | none => some []
  | some w => w.entries?

/-- A schema of the document as a model. -/
def modelDraft (settings : Settings) (name : String) (schema : Value) :
    Except Fault ModelDraft :=
  let location := "components.schemas." ++ name
  if schema.entries?.isNone then .error (.spec .schemaNotMapping location)
  else if (schema.field? "$ref").isSome then .error (.spec .schemaOnlyReference location)
  else
    match entriesOf? (schema.field? "properties") with
    | none => .error (.spec .propertiesNotMapping location)
    | some props =>
      (fieldDrafts location props).map fun fields =>
        { name := name
          description := descriptionOf schema
          fields := fields
          imports := modelImports settings name fields }

end ApiScaffold.Draft
