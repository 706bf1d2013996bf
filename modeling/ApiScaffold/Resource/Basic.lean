/-!
# Resources

What a document compiles to, and what source files are generated from: models, and services and
controllers with their operations.
-/

namespace ApiScaffold

/-- A class that a generated file takes from another file. -/
structure Import where
  name : String
  path : String
  deriving DecidableEq, Repr

/-- A property of a model. -/
structure Field where
  name : String
  /-- A primitive type, a union of literals, a class or an array of these. -/
  type : String
  nullable : Bool
  description : String
  format : Option String
  /-- The class of the elements, if the property is an array of references. -/
  ref : Option String
  /-- Whether the property itself is a reference. -/
  topLevel : Bool
  enumValues : Option String
  deriving DecidableEq, Repr

/-- A data class. -/
structure Model where
  name : String
  description : String
  fields : List Field
  imports : List Import
  deriving DecidableEq, Repr

/-- The verbs of operations. -/
inductive Verb where
  | get
  | post
  | put
  | delete
  | patch
  deriving DecidableEq, Repr

namespace Verb

/-- All verbs. -/
def all : List Verb := [get, post, put, delete, patch]

/-- The verb as a document writes it. -/
def name : Verb → String
  | get => "get"
  | post => "post"
  | put => "put"
  | delete => "delete"
  | patch => "patch"

/-- The verb of the given name. -/
def ofName? (s : String) : Option Verb := all.find? fun v => v.name == s

/-- The decorator of a method that answers the verb. -/
def decorator : Verb → String
  | get => "Get"
  | post => "Post"
  | put => "Put"
  | delete => "Delete"
  | patch => "Patch"

end Verb

/-- A parameter of an operation other than its body. -/
structure Parameter where
  location : String
  name : String
  required : Bool
  deriving DecidableEq, Repr

/-- The body of an operation. -/
structure BodyParam where
  name : String
  type : String
  deriving DecidableEq, Repr

/-- What an operation takes. -/
structure MethodParameters where
  params : Option (List Parameter)
  body : Option (List BodyParam)
  deriving DecidableEq, Repr

/-- An operation. -/
structure Method where
  verb : Verb
  name : String
  url : String
  contentType : Option String
  parameters : Option MethodParameters
  deriving DecidableEq, Repr

/-- The bodies that an operation declares. -/
def Method.bodies (m : Method) : List BodyParam :=
  (m.parameters.bind (·.body)).getD []

/-- The type of the body of an operation. -/
def Method.bodyType? (m : Method) : Option String := m.bodies.head?.map (·.type)

/-- The operations on a resource, as a class of business logic. -/
structure Service where
  name : String
  description : String
  methods : List Method
  imports : List Import
  deriving DecidableEq, Repr

/-- The operations on a resource, as a class of routes. -/
structure Controller where
  name : String
  description : String
  path : String
  methods : List Method
  imports : List Import
  deriving DecidableEq, Repr

/-- The service class that a controller delegates to. -/
def Controller.serviceClass (c : Controller) : String := c.name ++ "Service"

/-- The kinds of resources. -/
inductive Kind where
  | model
  | service
  | controller
  deriving DecidableEq, Repr

/-- The word for a kind. -/
def Kind.name : Kind → String
  | model => "model"
  | service => "service"
  | controller => "controller"

end ApiScaffold
