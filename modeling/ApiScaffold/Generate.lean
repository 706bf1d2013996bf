import ApiScaffold.FileTree
import ApiScaffold.Log
import ApiScaffold.Reconcile
import ApiScaffold.Render.ControllerFile
import ApiScaffold.Render.MainFile
import ApiScaffold.TypeScript.Import

/-!
# Generating files

Each resource is generated into a file of its own below the library directory.  Models, controllers
and the main file are written anew; a service that has a file already is reconciled with it.  No
text is written that fails the check of its brackets, literals and class.

A generation leaves behind the file tree, the events, and a result or a fault.
-/

namespace ApiScaffold

/-- What became of a file. -/
structure BuildResult where
  path : DiskPath
  outcome : Outcome
  errors : List String
  deriving DecidableEq, Repr

/-- Whether the file was generated. -/
def BuildResult.ok (r : BuildResult) : Bool := r.outcome != .validationFailed

/-- What a generation leaves behind. -/
structure Generated (α : Type) where
  tree : FileTree
  log : List Event
  result : Except Fault α

/-- A source text as the contents of a file. -/
def sourceContent (source : List Char) : Content := .text (String.ofList source)

/-- The fault of an access that fails while a file is written. -/
def writeFault (path : DiskPath) : AccessFault → Fault
  | .badPath => .misuse .badText
  | e => .emission path.toString (.cannotWrite e.message)

/-- Writes a source text, unless it has problems. -/
def writeSource (tree : FileTree) (path : DiskPath) (source : List Char)
    (className : Option String) (outcome : Outcome) : Generated BuildResult :=
  let errors := (TypeScript.sourceProblems source className).map (·.message)
  if !errors.isEmpty then
    ⟨tree, [.rejected path.toString errors], .ok ⟨path, .validationFailed, errors⟩⟩
  else
    match tree.write path (sourceContent source) with
    | .error e => ⟨tree, [], .error (writeFault path e)⟩
    | .ok tree => ⟨tree, [.written outcome path.toString], .ok ⟨path, outcome, []⟩⟩

/-- Writes a source text over whatever is there. -/
def overwrite (tree : FileTree) (path : DiskPath) (source : List Char)
    (className : Option String) : Generated BuildResult :=
  writeSource tree path source className (if tree.holds path then .overwritten else .created)

/-- The file of a model. -/
def modelPath (settings : Settings) (m : Model) : DiskPath :=
  (settings.libDir.child "models").child (Naming.fileName m.name .model settings.extension)

/-- The file of a service. -/
def servicePath (settings : Settings) (s : Service) : DiskPath :=
  (settings.libDir.child "services").child (Naming.fileName s.name .service settings.extension)

/-- The file of a controller. -/
def controllerPath (settings : Settings) (c : Controller) : DiskPath :=
  (settings.libDir.child "controllers").child
    (Naming.fileName c.name .controller settings.extension)

/-- The main file. -/
def mainPath (settings : Settings) : DiskPath :=
  settings.libDir.child ("main." ++ settings.extension)

/-- Generates the file of a model. -/
def generateModel (settings : Settings) (tree : FileTree) (m : Model) : Generated BuildResult :=
  overwrite tree (modelPath settings m) (Render.modelFile settings m)
    (some (Naming.className m.name .model))

/-- Generates the file of a controller. -/
def generateController (settings : Settings) (tree : FileTree) (c : Controller) :
    Generated BuildResult :=
  overwrite tree (controllerPath settings c) (Render.controllerFile settings c)
    (some (Naming.className c.name .controller))

/-- Generates the main file of the given controllers. -/
def generateMain (settings : Settings) (tree : FileTree) (cs : List Controller) :
    Generated BuildResult :=
  overwrite tree (mainPath settings) (Render.mainFile settings cs) none

/-- Brings the source text of a service up to date and writes it if it changes. -/
def reconcileSource (settings : Settings) (tree : FileTree) (path : DiskPath) (s : Service)
    (source : List Char) : Generated BuildResult :=
  let name := Naming.className s.name .service
  match TypeScript.findClass? source name with
  | none =>
    ⟨tree, [], .ok ⟨path, .validationFailed,
      ["existing file does not declare class " ++ name]⟩⟩
  | some body =>
    let changes := Reconcile.changes settings s source body
    if changes.edits.isEmpty then
      ⟨tree, [.upToDate path.toString], .ok ⟨path, .reconciled, []⟩⟩
    else
      let event := Event.reconciling path.toString (changes.added.map (·.name))
        (changes.removed.map (·.name))
      let done := writeSource tree path (Splice.apply source changes.edits) (some name) .reconciled
      { done with log := event :: done.log }

/-- The fault of an access that fails while a service file is read. -/
def readFault : AccessFault → Fault
  | .isDirectory => .misuse .directory
  | _ => .misuse .badText

/-- Generates the file of a service, or reconciles the one that is there. -/
def generateService (settings : Settings) (tree : FileTree) (s : Service) :
    Generated BuildResult :=
  let path := servicePath settings s
  if tree.holds path then
    match tree.read path with
    | .error e => ⟨tree, [], .error (readFault e)⟩
    | .ok (.bytes _) => ⟨tree, [], .error (.misuse .notText)⟩
    | .ok (.text source) =>
      reconcileSource settings tree path s (Text.normalizeLineEnds source.toList)
  else
    writeSource tree path (Render.serviceFile settings s) (some (Naming.className s.name .service))
      .created

end ApiScaffold
