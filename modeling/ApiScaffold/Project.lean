import ApiScaffold.Compile
import ApiScaffold.Generate

/-!
# Generating projects

`generateProject` generates every resource of the stores and the main file.  All files are
attempted, whatever happens to the others; the first fault in the order of the tasks is the answer,
and if there is none, files that failed their check are a fault together.

`generateDocument` compiles a document into fresh stores first; one that does not compile leaves all
files alone.
-/

namespace ApiScaffold

/-- A file to generate. -/
inductive Task where
  | model (m : Model)
  | service (s : Service)
  | controller (c : Controller)
  | main (cs : List Controller)
  deriving DecidableEq, Repr

namespace Task

/-- The tasks of the stores: models, services, controllers, and the main file. -/
def ofStores (stores : Stores) : List Task :=
  stores.models.values.map model ++ stores.services.values.map service ++
    stores.controllers.values.map controller ++ [main stores.controllers.values]

/-- The file that a task generates. -/
def path (settings : Settings) : Task → DiskPath
  | model m => modelPath settings m
  | service s => servicePath settings s
  | controller c => controllerPath settings c
  | main _ => mainPath settings

/-- Generates a file. -/
def run (settings : Settings) (tree : FileTree) : Task → Generated BuildResult
  | model m => generateModel settings tree m
  | service s => generateService settings tree s
  | controller c => generateController settings tree c
  | main cs => generateMain settings tree cs

end Task

/-- Runs tasks one after the other, faults included. -/
def runTasks (settings : Settings) :
    FileTree → List Task → FileTree × List Event × List (Except Fault BuildResult)
  | tree, [] => (tree, [], [])
  | tree, task :: tasks =>
    let done := task.run settings tree
    let rest := runTasks settings done.tree tasks
    (rest.1, done.log ++ rest.2.1, done.result :: rest.2.2)

/-- The results up to the first fault, or that fault. -/
def collect : List (Except Fault BuildResult) → Except Fault (List BuildResult)
  | [] => .ok []
  | .error e :: _ => .error e
  | .ok r :: rs => (collect rs).map (r :: ·)

/-- The results, unless a file failed its check. -/
def settle (results : List BuildResult) : Except Fault (List BuildResult) :=
  match results.filter fun r => !r.ok with
  | [] => .ok results
  | r :: rs =>
    .error (.emission r.path.toString
      (.invalid ((r :: rs).map fun x => (x.path.toString, x.errors))))

/-- Generates everything that the stores hold. -/
def generateProject (settings : Settings) (tree : FileTree) (stores : Stores) :
    Generated (List BuildResult) :=
  let done := runTasks settings tree (Task.ofStores stores)
  ⟨done.1, done.2.1,
    match collect done.2.2 with
    | .error e => .error e
    | .ok results => settle results⟩

/-- Generates what a compilation stored; nothing if it came to a fault. -/
def generateCompiled (settings : Settings) (tree : FileTree) (compiled : Compiled Stores) :
    Generated (List BuildResult) :=
  match compiled.fault with
  | some e => ⟨tree, compiled.log, .error e⟩
  | none =>
    let done := generateProject settings tree compiled.store
    { done with log := compiled.log ++ done.log }

/-- Compiles a document into fresh stores and generates its project. -/
def generateDocument (settings : Settings) (tree : FileTree) (doc : Value) :
    Generated (List BuildResult) :=
  generateCompiled settings tree (compileDocument settings doc .empty)

end ApiScaffold
