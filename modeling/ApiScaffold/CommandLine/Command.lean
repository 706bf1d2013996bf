import ApiScaffold.CommandLine.Arguments
import ApiScaffold.Load
import ApiScaffold.LogLevel
import ApiScaffold.Project
import ApiScaffold.Document.Json.Writer
import ApiScaffold.Text.Numeral

/-!
# Commands

The commands of the program and what they do to a file tree: `generate` compiles a document and
generates its project, `inspect` prints what a document compiles to.

`CommandLine.run` answers with the exit code, the printed text and the log.  A wrong use of the
command line exits with two, a fault with one.
-/

namespace ApiScaffold.CommandLine

/-- What `inspect` prints. -/
inductive Selection where
  | all
  | only (kind : Kind)
  deriving DecidableEq, Repr

/-- A command with its options. -/
inductive Command where
  | generate (spec : DiskPath) (given : Entries)
  | inspect (spec : DiskPath) (selection : Selection)

/-- What a run leaves behind. -/
structure Run where
  exitCode : Nat
  output : List String
  error : Option Fault
  tree : FileTree
  log : List Event

/-- What is printed for the fault of a run, if it ended in one that has a wording. -/
def Run.errorText (r : Run) : String :=
  match r.error with
  | none | some (.misuse _) => ""
  | some f => "Error: " ++ f.message

/-- The options in front of the command. -/
def mainOptions : List OptionForm := [⟨"verbose", some 'v', false⟩]

/-- The options of `generate`. -/
def generateOptions : List OptionForm :=
  [⟨"output", some 'o', true⟩, ⟨"ext", none, true⟩, ⟨"api-version", none, true⟩,
    ⟨"workers", none, true⟩]

/-- The options of `inspect`. -/
def inspectOptions : List OptionForm := [⟨"kind", none, true⟩]

/-- Whether the text of a path asks for a directory: it ends in a slash or a single point. -/
def asksDirectory (s : String) : Bool :=
  let last := (Text.splitOn '/' s.toList).getLastD []
  last == [] || last == ['.']

/-- Whether the text of a path leads to a file. -/
def isFile (tree : FileTree) (s : String) : Bool :=
  !asksDirectory s &&
    match tree.read (.ofString s) with
    | .ok _ => true
    | .error _ => false

/-- The integer that a word denotes: an optional sign and digits, which single underscores may set
apart, blanks around them apart. -/
def integerWord? (s : String) : Option Int :=
  let number (cs : List Char) : Option Nat :=
    let digits := cs.filter (· != '_')
    if Settings.isDigitGroups cs && digits.length ≤ Text.maxIntegerDigits then
      some (Text.natOfDigits digits)
    else none
  match Text.asciiNumeral s.toList with
  | '-' :: cs => (number cs).map fun n => -(n : Int)
  | '+' :: cs => (number cs).map fun n => (n : Int)
  | cs => (number cs).map fun n => (n : Int)

/-- A setting that an option gives. -/
def settingOf (given : List Given) (option setting : String) : Entries :=
  match valueOf? given option with
  | none => []
  | some v => [(.text setting, .text v)]

/-- The number of workers that an option gives; `none` if it is no number. -/
def workersOf? (given : List Given) : Option Entries :=
  match valueOf? given "workers" with
  | none => some []
  | some v => (integerWord? v).map fun n => [(.text "max_workers", .int n)]

/-- What `inspect` is asked to print; `none` for an unknown kind. -/
def selectionOf? (given : List Given) : Option Selection :=
  match valueOf? given "kind" with
  | none => some .all
  | some s =>
    if s = "all" then some .all
    else ([Kind.model, .service, .controller].find? (·.name == s)).map .only

/-- The `generate` command of the words behind its name. -/
def generateCommand? (tree : FileTree) (words : List String) : Option Command := do
  let (given, others) ← arguments generateOptions true (words.length + 1) words
  let [spec] := others | none
  if !isFile tree spec then none
  if (valueOf? given "output").any (isFile tree) then none
  let workers ← workersOf? given
  return .generate (.ofString spec) <|
    settingOf given "output" "output_dir" ++ settingOf given "ext" "extension" ++
      settingOf given "api-version" "api_version" ++ workers

/-- The `inspect` command of the words behind its name. -/
def inspectCommand? (tree : FileTree) (words : List String) : Option Command := do
  let (given, others) ← arguments inspectOptions true (words.length + 1) words
  let [spec] := others | none
  if !isFile tree spec then none
  let selection ← selectionOf? given
  return .inspect (.ofString spec) selection

/-- A line of output. -/
def line (s : String) : String := s ++ "\n"

/-- A run that ends in a fault. -/
def failed (tree : FileTree) (output : List String) (log : List Event) (f : Fault) : Run :=
  ⟨1, output, some f, tree, log⟩

/-- A word with blanks behind it up to the given width. -/
def padRight (width : Nat) (s : String) : String :=
  s ++ String.ofList (List.replicate (width - s.length) ' ')

/-- The line for a generated file. -/
def resultLine (r : BuildResult) : String :=
  line ("  " ++ padRight 11 r.outcome.name ++ " " ++ r.path.toString)

/-- How many files had each outcome, by the word for it. -/
def outcomeCounts (results : List BuildResult) : String :=
  let words := results.map (·.outcome.name)
  let kinds := words.eraseDups.mergeSort fun a b => decide (a ≤ b)
  ", ".intercalate (kinds.map fun k => toString (words.count k) ++ " " ++ k)

/-- Compiles the document in a file and generates its project. -/
def generate (tree : FileTree) (env : List (String × String)) (spec : DiskPath)
    (given : Entries) : Run :=
  match Settings.ofEnvironment env given with
  | .error e => failed tree [] [] e
  | .ok settings =>
    let parsing := [line ("Parsing " ++ spec.toString ++ "...")]
    match load tree spec with
    | .error e => failed tree parsing [] e
    | .ok doc =>
      let compiled := compileDocument settings doc .empty
      let stores := compiled.store
      let found := [
        line ("Found " ++ toString stores.models.size ++ " models, " ++
          toString stores.services.size ++ " services, " ++
          toString stores.controllers.size ++ " controllers."),
        line ("Generating into " ++ settings.libDir.toString ++ "...")]
      let output := parsing ++ if compiled.fault.isSome then [] else found
      let done := generateCompiled settings tree compiled
      match done.result with
      | .error e => failed done.tree output done.log e
      | .ok results =>
        let summary := line ("Done! " ++ toString results.length ++ " files (" ++
          outcomeCounts results ++ ")")
        ⟨0, output ++ results.map resultLine ++ [summary], none, done.tree, done.log⟩

/-- The data of the resources in a store, by name. -/
def storeData {α : Type} (data : α → Value) (s : Store α) : Value :=
  .record (s.entries.map fun e => (e.1, data e.2))

/-- The data of all resources of a kind. -/
def kindData (s : Stores) : Kind → Value
  | .model => storeData Model.data s.models
  | .service => storeData Service.data s.services
  | .controller => storeData Controller.data s.controllers

/-- The kinds that a selection holds. -/
def Selection.kinds : Selection → List Kind
  | all => [.model, .service, .controller]
  | only kind => [kind]

/-- Prints what the document in a file compiles to. -/
def inspect (tree : FileTree) (env : List (String × String)) (spec : DiskPath)
    (selection : Selection) : Run :=
  match load tree spec with
  | .error e => failed tree [] [] e
  | .ok doc =>
    match Settings.ofEnvironment env [] with
    | .error e => failed tree [] [] e
    | .ok settings =>
      let compiled := compileDocument settings doc .empty
      match compiled.fault with
      | some e => failed tree [] compiled.log e
      | none =>
        let payload := Value.record <|
          selection.kinds.map fun k => (k.name ++ "s", kindData compiled.store k)
        ⟨0, [line (Json.pretty 0 payload)], none, tree, compiled.log⟩

/-- Runs a command. -/
def Command.run (tree : FileTree) (env : List (String × String)) : Command → Run
  | generate spec given => CommandLine.generate tree env spec given
  | inspect spec selection => CommandLine.inspect tree env spec selection

/-- The command of the given name, from the words behind it; the outer `none` means that there is no
such command, the inner that its words are wrong. -/
def commandOf? (tree : FileTree) (name : String) (words : List String) :
    Option (Option Command) :=
  if name = "generate" then some (generateCommand? tree words)
  else if name = "inspect" then some (inspectCommand? tree words)
  else none

/-- A run that a wrong use of the command line ends. -/
def misused (tree : FileTree) : Run := ⟨2, [], none, tree, []⟩

/-- Runs a command line. The log of the run holds the events that its threshold lets through. -/
def run (tree : FileTree) (env : List (String × String)) (words : List String) : Run :=
  match arguments mainOptions false (words.length + 1) words with
  | some (given, name :: rest) =>
    match commandOf? tree name rest with
    | none => misused tree
    | some command? =>
      let level := if (valueOf? given "verbose").isSome then some "DEBUG" else none
      match LogLevel.threshold level env with
      | .error m => failed tree [] [] (.misuse m)
      | .ok threshold =>
        match command? with
        | none => misused tree
        | some command =>
          let done := command.run tree env
          { done with log := done.log.filter fun e => threshold ≤ e.level.rank }
  | _ => misused tree

end ApiScaffold.CommandLine
