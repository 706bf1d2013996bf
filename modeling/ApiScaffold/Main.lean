import ApiScaffold.CommandLine.Access

/-!
# The program

Reads from the disk what the command line looks at, runs it, writes the files that changed, and
prints what the run printed.
-/

namespace ApiScaffold.Disk

/-- The text of a place on the disk. -/
def diskText (path : DiskPath) (names : List String) : String :=
  DiskPath.toString ⟨path.root, names⟩

/-- What is on the disk at a path; nothing if there is nothing. -/
def readEntry? (path : String) : IO (Option Entry) := do
  try
    let bytes ← IO.FS.readBinFile path
    return some <| .file <|
      match String.fromUTF8? bytes with
      | some s => .text s
      | none => .bytes bytes.toList
  catch
    | .noFileOrDirectory .. => return none
    | _ => return some .directory

/-- The place that the given names of a path lead to. -/
def placeOf (path : DiskPath) (names : List String) : Place :=
  names.foldl FileTree.step (FileTree.origin path.root)

/-- Adds what is on the disk at a path and above it, name by name, as far as there is anything. -/
def readPath (path : DiskPath) :
    (done : List String) → (left : List String) → FileTree → IO FileTree
  | _, [], tree => return tree
  | done, name :: left, tree => do
    let names := done ++ [name]
    match ← readEntry? (diskText path names) with
    | none => return tree
    | some (.file c) => return tree.put (placeOf path names) (.file c)
    | some .directory => readPath path names left (tree.put (placeOf path names) .directory)

/-- Adds what is on the disk at several paths. -/
def readPaths (paths : List DiskPath) (tree : FileTree) : IO FileTree :=
  paths.foldlM (fun tree path => readPath path [] path.names tree) tree

/-- Writes a file of a tree to the disk. -/
def writePlace (place : Place) (content : Content) : IO Unit := do
  let directory := FileTree.placeText place.dropLast
  unless directory.isEmpty do
    IO.FS.createDirAll directory
  IO.FS.writeBinFile (FileTree.placeText place) <|
    match content with
    | .text s => s.toUTF8
    | .bytes bs => ⟨bs.toArray⟩

/-- Writes the files in which two trees differ. -/
def writeChanges (before after : FileTree) : IO Unit :=
  for e in after.entries do
    match e.2 with
    | .file content =>
      unless before.get? e.1 == some (.file content) do
        writePlace e.1 content
    | .directory => pure ()

/-- The variables of the environment that a run depends on. -/
def readEnvironment : IO (List (String × String)) := do
  let mut env := []
  for name in CommandLine.environmentNames do
    if let some value ← IO.getEnv name then
      env := (name, value) :: env
  return env

/-- The lines that are printed behind the log: the fault of a run, or how the program is used. -/
def closingLines (done : CommandLine.Run) : List String :=
  match done.error with
  | some (.misuse _) => ["Error: the document holds a value of an unexpected kind"]
  | some _ => [done.errorText]
  | none => if done.exitCode = 2 then usage else []
where
  /-- The forms of the command line. -/
  usage : List String :=
    ["Usage: [-v] generate SPEC [-o DIR] [--ext EXT] [--api-version V] [--workers N]",
      "       [-v] inspect SPEC [--kind all|model|service|controller]"]

end ApiScaffold.Disk

open ApiScaffold Disk in
/-- Runs a command line on the disk. -/
def main (words : List String) : IO UInt32 := do
  let env ← readEnvironment
  let named ← readPaths (CommandLine.namedPaths words) .empty
  let tree ← readPaths (CommandLine.targetPaths named env words) named
  let done := CommandLine.run tree env words
  writeChanges tree done.tree
  for text in done.output do
    IO.print text
  for event in done.log do
    IO.eprintln event.fullLine
  for text in closingLines done do
    IO.eprintln text
  return UInt32.ofNat done.exitCode
