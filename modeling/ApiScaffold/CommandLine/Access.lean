import ApiScaffold.CommandLine.Command

/-!
# What a command line looks at

The paths whose contents decide what a run does: those that its words name, and, once the document
is known, the files that it generates.  A tree that is right about these paths and the directories
they lie in serves a run as well as the whole disk.
-/

namespace ApiScaffold.CommandLine

/-- The paths that the words of a command line name. -/
def namedPaths (words : List String) : List DiskPath :=
  match arguments mainOptions false (words.length + 1) words with
  | some (_, _ :: rest) =>
    match arguments (generateOptions ++ inspectOptions) true (rest.length + 1) rest with
    | some (given, others) =>
      others.map DiskPath.ofString ++ (valueOf? given "output").toList.map DiskPath.ofString
    | none => []
  | _ => []

/-- The files that a command generates. -/
def Command.targets (tree : FileTree) (env : List (String × String)) : Command → List DiskPath
  | inspect _ _ => []
  | generate spec given =>
    match Settings.ofEnvironment env given, load tree spec with
    | .ok settings, .ok doc =>
      (Task.ofStores (compileDocument settings doc .empty).store).map (Task.path settings)
    | _, _ => []

/-- The files that a command line generates. -/
def targetPaths (tree : FileTree) (env : List (String × String)) (words : List String) :
    List DiskPath :=
  match arguments mainOptions false (words.length + 1) words with
  | some (_, name :: rest) =>
    match commandOf? tree name rest with
    | some (some command) => command.targets tree env
    | _ => []
  | _ => []

/-- The variables of the environment that a run depends on. -/
def environmentNames : List String := Settings.environmentNames.map (·.1) ++ ["LOG_LEVEL"]

end ApiScaffold.CommandLine
