import ApiScaffold.Draft.Model
import ApiScaffold.Naming

/-!
# Operations in draft

Every operation of a path becomes the data of a method.  The content type is that of the first
successful response that is there, the body the class that the first content of the request refers
to.
-/

namespace ApiScaffold.Draft

/-- A parameter before its check. -/
structure ParameterDraft where
  location : Value
  name : String
  required : Bool

/-- The data of a parameter. -/
def ParameterDraft.data (p : ParameterDraft) : Value :=
  .record [("location", p.location), ("name", .text p.name), ("required", .bool p.required)]

/-- What an operation takes, before its check. -/
structure ParametersDraft where
  params : Option (List ParameterDraft)
  body : Option (List BodyParam)

/-- A list that may be absent, as a value. -/
def optionalList {α : Type} (data : α → Value) : Option (List α) → Value
  | none => .null
  | some as => .list (as.map data)

/-- The data of what an operation takes. -/
def ParametersDraft.data (p : ParametersDraft) : Value :=
  .record [("params", optionalList ParameterDraft.data p.params),
    ("body", optionalList BodyParam.data p.body)]

/-- An operation before its check. -/
structure MethodDraft where
  verb : Verb
  name : Value
  url : String
  contentType : Value
  parameters : Option ParametersDraft

/-- The data of an operation. -/
def MethodDraft.data (m : MethodDraft) : Value :=
  .record [("type", .text m.verb.name), ("name", m.name), ("url", .text m.url),
    ("content_type", m.contentType),
    ("parameters", match m.parameters with
      | none => .null
      | some p => p.data)]

/-- The bodies that an operation declares. -/
def MethodDraft.bodies (m : MethodDraft) : List BodyParam :=
  (m.parameters.bind (·.body)).getD []

/-- A parameter as its draft. -/
def ParameterDraft.ofParameter (p : Parameter) : ParameterDraft :=
  ⟨.text p.location, p.name, p.required⟩

/-- What an operation takes as its draft. -/
def ParametersDraft.ofParameters (p : MethodParameters) : ParametersDraft :=
  ⟨p.params.map fun ps => ps.map ParameterDraft.ofParameter, p.body⟩

/-- An operation as its draft. -/
def MethodDraft.ofMethod (m : Method) : MethodDraft :=
  { verb := m.verb
    name := .text m.name
    url := m.url
    contentType := optionalText m.contentType
    parameters := m.parameters.map ParametersDraft.ofParameters }

/-- A name in camel case and the singular, as parameters are named. -/
def parameterName (s : String) : String :=
  String.ofList (Naming.camelCase (Naming.singular s.toList))

/-- A parameter of an operation on the given path. -/
def parameterDraft (doc : Value) (path : String) (raw : Value) : Except Fault ParameterDraft :=
  match Reference.follow doc raw with
  | .error e => .error e
  | .ok param =>
    match Value.present? (param.field? "name") with
    | none => .error (.spec .unnamedParameter path)
    | some name =>
      (textOf name).map fun s =>
        { location := (param.field? "in").getD (.text "query")
          name := parameterName s
          required := match param.field? "required" with
            | some (.bool true) => true
            | _ => false }

/-- The parameters of an operation in order. -/
def parameterDrafts (doc : Value) (path : String) : List Value → Except Fault (List ParameterDraft)
  | [] => .ok []
  | raw :: rest =>
    match parameterDraft doc path raw with
    | .error e => .error e
    | .ok p => (parameterDrafts doc path rest).map (p :: ·)

/-- The parts of a value that may be absent. -/
def partsOf (v : Option Value) : Except Fault (List Value) :=
  match Value.present? v with
  | none => .ok []
  | some v =>
    match parts? v with
    | some vs => .ok vs
    | none => .error (.misuse .wrongKind)

/-- The body of the content that an operation requests: the class that the schema of the first
content refers to. -/
def bodyOfContent (content : Entries) : Except Fault (List BodyParam) :=
  match content with
  | [] => .ok []
  | (_, media) :: _ =>
    match (media.field? "schema").bind fun s => s.field? "$ref" with
    | none => .ok []
    | some ref => (Reference.className ref).map fun c => [⟨parameterName c, c⟩]

/-- The body of an operation. -/
def bodyDraft (doc : Value) (request : Value) : Except Fault (List BodyParam) :=
  match Reference.follow doc request with
  | .error e => .error e
  | .ok r =>
    match entriesOf? (r.field? "content") with
    | none => .error (.misuse .noSuchPart)
    | some content => bodyOfContent content

/-- A list that counts as absent if it is empty. -/
def nonEmpty? {α : Type} (as : List α) : Option (List α) := if as.isEmpty then none else some as

/-- What an operation on the given path takes; `none` if it takes nothing. -/
def parametersDraft (doc : Value) (path : String) (operation : Value) :
    Except Fault (Option ParametersDraft) :=
  match partsOf (operation.field? "parameters") with
  | .error e => .error e
  | .ok raws =>
    match parameterDrafts doc path raws with
    | .error e => .error e
    | .ok params =>
      (bodyDraft doc ((operation.field? "requestBody").getD .null)).map fun body =>
        if params.isEmpty && body.isEmpty then none
        else some ⟨nonEmpty? params, nonEmpty? body⟩

/-- The response for a status, written as a text or as a number. -/
def response? (responses : Entries) (status : Nat) : Option Value :=
  match Value.present? (Entries.find? (.text (toString status)) responses) with
  | some r => some r
  | none => Value.present? (Entries.find? (.int status) responses)

/-- The statuses of success, the preferred one first. -/
def successStatuses : List Nat := [200, 201]

/-- The content type of the first successful response that is there. -/
def contentTypeDraft (doc : Value) (responses : Option Value) : Except Fault Value :=
  match (responses.bind Value.entries?).bind fun es =>
      successStatuses.findSome? (response? es) with
  | none => .ok .null
  | some response =>
    match Reference.follow doc response with
    | .error e => .error e
    | .ok r => (partsOf (r.field? "content")).map fun ps => ps.head?.getD .null

/-- An operation on the given path. -/
def methodDraft (doc : Value) (path : String) (verb : Verb) (operation : Value) :
    Except Fault MethodDraft :=
  match Value.present? (operation.field? "operationId") with
  | none => .error (.missingOperationId path verb)
  | some name =>
    match contentTypeDraft doc (operation.field? "responses") with
    | .error e => .error e
    | .ok contentType =>
      (parametersDraft doc path operation).map fun parameters =>
        { verb, name, url := path, contentType, parameters }

/-- The verb that a key of a path item names. -/
def verbOf? : Scalar → Option Verb
  | .text s => Verb.ofName? s
  | _ => none

/-- The operations of a path in order; keys that are no verbs are passed over. -/
def methodDrafts (doc : Value) (path : String) :
    List (Scalar × Value) → Except Fault (List MethodDraft)
  | [] => .ok []
  | (k, operation) :: rest =>
    match verbOf? k with
    | none => methodDrafts doc path rest
    | some verb =>
      match methodDraft doc path verb operation with
      | .error e => .error e
      | .ok m => (methodDrafts doc path rest).map (m :: ·)

end ApiScaffold.Draft
