import ApiScaffold.Compile
import ApiScaffold.Document.Json.Reader
import ApiScaffold.Document.Yaml.Reader
import ApiScaffold.FileTree

/-!
# Loading documents

`load` reads the document in a file and refuses one that is not of version 3.  A file whose suffix
is `.json`, in any case, holds JSON, any other YAML.
-/

namespace ApiScaffold

/-- Whether a file holds JSON. -/
def isJsonFile (path : DiskPath) : Bool := path.suffix.map Char.toLower == ".json".toList

/-- Reads the text of a JSON document; `location` is where it comes from. -/
def readJson (location : String) (cs : List Char) : Except Fault Value :=
  match Json.read cs with
  | .ok v => .ok v
  | .error (.malformed p) => .error (.spec (.unparsable (some p.message)) location)
  | .error .longInteger => .error (.misuse .badText)
  | .error .tooDeep => .error (.misuse .tooDeep)

/-- Reads the text of a YAML document; `location` is where it comes from. -/
def readYaml (location : String) (cs : List Char) : Except Fault Value :=
  match Yaml.read cs with
  | .ok v => .ok v
  | .error .malformed => .error (.spec (.unparsable none) location)
  | .error (.misuse m) => .error (.misuse m)

/-- Reads the text of a document. -/
def readDocument (path : DiskPath) (cs : List Char) : Except Fault Value :=
  if isJsonFile path then readJson path.toString cs else readYaml path.toString cs

/-- The text of a document's file. -/
def documentText (tree : FileTree) (path : DiskPath) : Except Fault (List Char) :=
  match tree.read path with
  | .error .badPath => .error (.misuse .badText)
  | .error e => .error (.spec (.unreadable e.message) path.toString)
  | .ok (.bytes _) => .error (.misuse .notText)
  | .ok (.text s) => .ok (Text.normalizeLineEnds s.toList)

/-- Loads the document in a file. -/
def load (tree : FileTree) (path : DiskPath) : Except Fault Value :=
  match documentText tree path with
  | .error e => .error e
  | .ok cs =>
    match readDocument path cs with
    | .error e => .error e
    | .ok doc => (checkVersion doc path.toString).map fun _ => doc

end ApiScaffold
