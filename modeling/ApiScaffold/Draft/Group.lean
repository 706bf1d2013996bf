import ApiScaffold.Draft.Operation

/-!
# Operations by resource

The operations of a document are grouped by the resource that the first segment of their path names,
and the groups are merged into what is stored already.

* `Draft.groupOperations` compiles all paths before anything else happens;
* `Draft.mergeMethods` appends methods to others, where a method whose name is known takes the place
  of the earlier one.
-/

namespace ApiScaffold.Draft

/-- The operations of one path. -/
structure PathDraft where
  path : String
  methods : List MethodDraft

/-- The operations of one resource, path by path. -/
structure Group where
  name : String
  paths : List PathDraft

/-- Adds the operations of a path to the group of its resource. -/
def addToGroups (name : String) (p : PathDraft) : List Group → List Group
  | [] => [⟨name, [p]⟩]
  | g :: gs => if g.name = name then ⟨name, g.paths ++ [p]⟩ :: gs else g :: addToGroups name p gs

/-- The operations of a path and the resource it belongs to. -/
def pathDraft (doc : Value) (path : String) (item : Entries) : Except Fault (String × PathDraft) :=
  let name := String.ofList (Naming.resourceName path.toList)
  if name = "" then .error (.spec .rootPath path)
  else (methodDrafts doc path item).map fun ms => (name, ⟨path, ms⟩)

/-- The operations of the paths in order, each with its resource; an item that is absent is passed
over. -/
def pathDrafts (doc : Value) : List (Scalar × Value) → Except Fault (List (String × PathDraft))
  | [] => .ok []
  | (k, item) :: rest =>
    if !item.isTruthy then pathDrafts doc rest
    else
      match textOf (.scalar k), item.entries? with
      | .error e, _ => .error e
      | .ok path, none => .error (.spec .pathItemNotMapping path)
      | .ok path, some es =>
        match pathDraft doc path es with
        | .error e => .error e
        | .ok p => (pathDrafts doc rest).map (p :: ·)

/-- Gathers paths by resource, in the order in which the resources first come. -/
def gather (paths : List (String × PathDraft)) : List Group :=
  paths.foldl (fun gs p => addToGroups p.1 p.2 gs) []

/-- The operations of a document by resource. -/
def groupOperations (doc : Value) : Except Fault (List Group) :=
  if doc.entries?.isNone then .error (.misuse .noSuchPart)
  else
    match entriesOf? (doc.field? "paths") with
    | none => .error (.spec .pathsNotMapping "paths")
    | some paths => (pathDrafts doc paths).map gather

/-- Puts a value in the place of the first one with the same key, or at the end. -/
def replaceOrAppend {α : Type} (same : α → α → Bool) (a : α) : List α → List α
  | [] => [a]
  | b :: bs => if same b a then a :: bs else b :: replaceOrAppend same a bs

/-- Whether two methods have the same name. -/
def sameName (a b : MethodDraft) : Bool :=
  match a.name, b.name with
  | .scalar s, .scalar t => s.same t
  | _, _ => false

/-- Whether the name of a method can tell methods apart. -/
def hasScalarName (m : MethodDraft) : Bool :=
  match m.name with
  | .scalar _ => true
  | _ => false

/-- Methods under pairwise different names, written one after the other. -/
def mergeAll (methods : List MethodDraft) : List MethodDraft :=
  methods.foldl (fun acc m => replaceOrAppend sameName m acc) []

/-- Appends methods to others; a method with a known name takes the place of the earlier one. -/
def mergeMethods (existing new : List MethodDraft) : Except Fault (List MethodDraft) :=
  if (existing ++ new).all hasScalarName then .ok (mergeAll (existing ++ new))
  else .error (.misuse .wrongKind)

/-- The first occurrence of each import name. -/
def firstByName : (seen : List String) → List Import → List Import
  | _, [] => []
  | seen, i :: is =>
    if seen.contains i.name then firstByName seen is else i :: firstByName (i.name :: seen) is

/-- The imports of the classes that occur as bodies, each once, in the order of first use. -/
def bodyImports (settings : Settings) (methods : List MethodDraft) : List Import :=
  firstByName [] <| (methods.flatMap MethodDraft.bodies).map fun b =>
    ⟨b.type, settings.modelImportPath b.type⟩

end ApiScaffold.Draft
