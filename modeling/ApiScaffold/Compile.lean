import ApiScaffold.Draft.Group
import ApiScaffold.Log
import ApiScaffold.Store

/-!
# Compiling documents

A document is compiled into the stores: first its models, then its services, then its controllers.

* `compileModels` stores each model as soon as it is compiled, so that a fault leaves the models
  before it in the store;
* `compileServices` and `compileControllers` compile everything before they store anything, so that
  a fault leaves their store as it was;
* `compileDocument` does all three and stops at the first fault.
-/

namespace ApiScaffold

/-- What a compilation leaves behind: a store, the events, and a fault if it came to one. -/
structure Compiled (σ : Type) where
  store : σ
  log : List Event
  fault : Option Fault

open Draft

/-- The text that a fault of a resource's check calls it by. -/
def draftName (data : Value) : String := ((data.field? "name").getD (.text "")).plain

/-- Checks the data of a resource. -/
def validate {α : Type} (kind : Kind) (check : Check α) (data : Value) : Except Fault α :=
  match check data with
  | .ok a => .ok a
  | .error problems =>
    match data with
    | .dict _ => .error (.invalidNode kind (draftName data) problems)
    | _ => .error (.misuse .noSuchPart)

/-- Checks the data of a model. -/
def validateModel : Value → Except Fault Model := validate .model Model.check

/-- Checks the data of a service. -/
def validateService : Value → Except Fault Service := validate .service Service.check

/-- Checks the data of a controller. -/
def validateController : Value → Except Fault Controller := validate .controller Controller.check

/-- Compiles the schema under a key. -/
def compileModel (settings : Settings) (key : Scalar) (schema : Value) : Except Fault Model :=
  match textOf (.scalar key) with
  | .error e => .error e
  | .ok name =>
    match modelDraft settings name schema with
    | .error e => .error e
    | .ok d => validateModel d.data

/-- The events of storing a model. -/
def modelEvents (store : Store Model) (m : Model) : List Event :=
  (if store.contains m.name then [.modelRedefined m.name] else []) ++
    [.modelStored m.name m.fields.length]

/-- Compiles and stores schemas one after the other. -/
def compileSchemas (settings : Settings) :
    List (Scalar × Value) → Store Model → Compiled (Store Model)
  | [], store => ⟨store, [], none⟩
  | (k, schema) :: rest, store =>
    match compileModel settings k schema with
    | .error e => ⟨store, [], some e⟩
    | .ok m =>
      let done := compileSchemas settings rest (store.insert m.name m)
      { done with log := modelEvents store m ++ done.log }

/-- The schemas of a document. -/
def schemasOf (doc : Value) : Except Fault Entries :=
  if doc.entries?.isNone then .error (.misuse .noSuchPart)
  else
    match entriesOf? (doc.field? "components") with
    | none => .error (.misuse .noSuchPart)
    | some components =>
      match (Entries.find? (.text "schemas") components).bind Value.entries? with
      | some schemas => .ok schemas
      | none => .error (.spec .noSchemas "components.schemas")

/-- Compiles the models of a document into a store. -/
def compileModels (settings : Settings) (doc : Value) (store : Store Model) :
    Compiled (Store Model) :=
  match schemasOf doc with
  | .error e => ⟨store, [], some e⟩
  | .ok schemas => compileSchemas settings schemas store

/-- Merges the operations of a resource, path by path, into methods it has already. -/
def mergePaths (merged : String → Event) :
    List PathDraft → List MethodDraft → Traced (List MethodDraft)
  | [], methods => pure methods
  | p :: ps, methods => do
    if !methods.isEmpty then Traced.report (merged p.path)
    mergePaths merged ps (← mergeMethods methods p.methods)

/-- A service before its check. -/
structure ServiceDraft where
  name : String
  description : String
  methods : List MethodDraft
  imports : List Import

/-- The data of a service. -/
def ServiceDraft.data (s : ServiceDraft) : Value :=
  .record [("name", .text s.name), ("description", .text s.description),
    ("methods", .list (s.methods.map MethodDraft.data)),
    ("imports", .list (s.imports.map Import.data))]

/-- Compiles the service of a group, merged into the one stored under its name. -/
def compileService (settings : Settings) (store : Store Service) (g : Group) : Traced Service := do
  let existing := store.find? g.name
  let known := (existing.map fun s => s.methods.map MethodDraft.ofMethod).getD []
  let methods ← mergePaths (fun path => .serviceMerged path g.name) g.paths known
  let draft : ServiceDraft :=
    { name := g.name
      description := (existing.map (·.description)).getD ""
      methods := methods
      imports := bodyImports settings methods }
  validateService draft.data

/-- A controller before its check. -/
structure ControllerDraft where
  name : String
  description : String
  path : String
  methods : List MethodDraft
  imports : List Import

/-- The data of a controller. -/
def ControllerDraft.data (c : ControllerDraft) : Value :=
  .record [("name", .text c.name), ("description", .text c.description), ("path", .text c.path),
    ("methods", .list (c.methods.map MethodDraft.data)),
    ("imports", .list (c.imports.map Import.data))]

/-- The import of the service of a resource. -/
def serviceImport (settings : Settings) (name : String) : Import :=
  let serviceClass := Naming.className name .service
  ⟨serviceClass, settings.serviceImportPath serviceClass⟩

/-- The route of a group: that of the stored controller, or else that of its first path. -/
def groupRoute (existing : Option Controller) (g : Group) : String :=
  match existing with
  | some c => if c.path ≠ "" then c.path else firstRoute
  | none => firstRoute
where
  /-- The route of the first path of the group. -/
  firstRoute : String :=
    match g.paths with
    | [] => ""
    | p :: _ => String.ofList (Naming.baseRoute p.path.toList)

/-- Compiles the controller of a group, merged into the one stored under its name. -/
def compileController (settings : Settings) (store : Store Controller) (g : Group) :
    Traced Controller := do
  let existing := store.find? g.name
  let known := (existing.map fun c => c.methods.map MethodDraft.ofMethod).getD []
  let methods ← mergePaths (fun path => .controllerMerged path g.name) g.paths known
  let draft : ControllerDraft :=
    { name := g.name
      description := (existing.map (·.description)).getD ""
      path := groupRoute existing g
      methods := methods
      imports := serviceImport settings g.name :: bodyImports settings methods }
  validateController draft.data

/-- Runs a computation on each element in order and stops at the first fault. -/
def traceEach {α β : Type} (f : α → Traced β) : List α → Traced (List β)
  | [] => pure []
  | a :: as => do
    let b ← f a
    let bs ← traceEach f as
    return b :: bs

/-- Stores everything that a computation made; a fault leaves the store as it was. -/
def storeAll {α : Type} (name : α → String) (stored : α → Event) (store : Store α)
    (made : Traced (List α)) : Compiled (Store α) :=
  match made.result with
  | .error e => ⟨store, made.log, some e⟩
  | .ok as => ⟨store.insertAll name as, made.log ++ as.map stored, none⟩

/-- Compiles the groups of a document, each by the given function, and stores the results. -/
def compileGroups {α : Type} (name : α → String) (stored : α → Event)
    (compile : Group → Traced α) (doc : Value) (store : Store α) : Compiled (Store α) :=
  storeAll name stored store do
    let groups ← groupOperations doc
    traceEach compile groups

/-- Compiles the services of a document into a store. -/
def compileServices (settings : Settings) (doc : Value) (store : Store Service) :
    Compiled (Store Service) :=
  compileGroups (·.name) (fun s => .serviceStored s.name s.methods.length)
    (compileService settings store) doc store

/-- Compiles the controllers of a document into a store. -/
def compileControllers (settings : Settings) (doc : Value) (store : Store Controller) :
    Compiled (Store Controller) :=
  compileGroups (·.name) (fun c => .controllerStored c.name c.methods.length)
    (compileController settings store) doc store

/-- Compiles a document into the stores. -/
def compileDocument (settings : Settings) (doc : Value) (stores : Stores) : Compiled Stores :=
  let m := compileModels settings doc stores.models
  match m.fault with
  | some e => ⟨{ stores with models := m.store }, m.log, some e⟩
  | none =>
    let s := compileServices settings doc stores.services
    match s.fault with
    | some e => ⟨{ stores with models := m.store, services := s.store }, m.log ++ s.log, some e⟩
    | none =>
      let c := compileControllers settings doc stores.controllers
      let done : Stores := ⟨m.store, s.store, c.store⟩
      match c.fault with
      | some e => ⟨done, m.log ++ s.log ++ c.log, some e⟩
      | none =>
        ⟨done,
          m.log ++ s.log ++ c.log ++
            [.parsed done.models.size done.services.size done.controllers.size],
          none⟩

/-- What a document that names no version says it is. -/
def otherFormat (doc : Value) : Except Fault String :=
  match doc.field? "swagger" with
  | some v => (textOf v).map ("swagger " ++ ·)
  | none => .ok "none"

/-- Refuses a document that does not say it is of version 3. -/
def checkVersion (doc : Value) (location : String) : Except Fault Unit :=
  if doc.entries?.isNone then .error (.spec .rootNotMapping location)
  else
    match textOf ((doc.field? "openapi").getD (.text "")) with
    | .error e => .error e
    | .ok version =>
      if ['3', '.'].isPrefixOf version.toList then .ok ()
      else
        match (if version ≠ "" then .ok version else otherFormat doc) with
        | .error e => .error e
        | .ok found => .error (.spec (.otherVersion found) location)

end ApiScaffold
