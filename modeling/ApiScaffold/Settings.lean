import ApiScaffold.DiskPath
import ApiScaffold.Document.Value
import ApiScaffold.Fault

/-!
# Settings

The layout conventions shared by compilation and generation, and how they are read: variables of the
environment override the defaults, given values override both.  Every invalid setting is reported.
-/

namespace ApiScaffold

/-- The conventions of a generated project. -/
structure Settings where
  outputDir : DiskPath := .ofString "."
  extension : String := "ts"
  apiVersion : String := "v1"
  frameworkModule : String := "@eyrie/app"
  modelsAlias : String := "@/models"
  servicesAlias : String := "@/services"
  maxWorkers : Option Int := none
  deriving DecidableEq, Repr

namespace Settings

/-- The directory of all generated files. -/
def libDir (s : Settings) : DiskPath := s.outputDir.child "lib"

/-- The module of a model, without extension. -/
def modelImportPath (s : Settings) (name : String) : String := s.modelsAlias ++ "/" ++ name

/-- The module of a service class, without extension. -/
def serviceImportPath (s : Settings) (serviceClass : String) : String :=
  s.servicesAlias ++ "/" ++ serviceClass

/-- Blanks around a number: all but the four information separators. -/
def isNumberBlank (c : Char) : Bool := Text.isBlank c && !(28 ≤ c.toNat && c.toNat ≤ 31)

/-- The text without blanks around it. -/
def trimNumber (cs : List Char) : List Char :=
  Text.dropSuffixWhile isNumberBlank (cs.dropWhile isNumberBlank)

/-- Whether a text is one or more groups of digits with single underscores between them. -/
def isDigitGroups (cs : List Char) : Bool :=
  (Text.splitOn '_' cs).all fun g => !g.isEmpty && g.all Char.isDigit

/-- The digits of a decimal integer: groups of digits, or digits without groups before a point and
zeros. -/
def integerDigits? (cs : List Char) : Option (List Char) :=
  let whole := cs.takeWhile (· != '.')
  let valid :=
    match cs.dropWhile (· != '.') with
    | [] => true
    | _ :: fraction => !fraction.isEmpty && fraction.all (· == '0')
  if isDigitGroups whole && valid then some (whole.filter (· != '_')) else none

/-- Reads the text of an integer with an optional sign. -/
def integerOfText (s : String) : Except SettingCause Int :=
  let cs := trimNumber s.toList
  let signed : Bool × List Char :=
    match cs with
    | '-' :: r => (true, r)
    | '+' :: r => (false, r)
    | r => (false, r)
  match integerDigits? signed.2 with
  | none => .error .unparsableInteger
  | some ds =>
    if Text.maxIntegerDigits < ds.length then .error .oversizedInteger
    else
      let n : Int := Text.natOfDigits ds
      .ok (if signed.1 then -n else n)

/-- The integer that a value stands for. -/
def integerOf : Value → Except SettingCause Int
  | .scalar (.int n) => .ok n
  | .scalar (.bool b) => .ok (if b then 1 else 0)
  | .scalar (.float x) =>
    if !x.isFinite then .error .notFinite
    else
      match x.toInt? with
      | none => .error .fractionalInteger
      | some n => if n.natAbs < Nat.pow 2 63 then .ok n else .error .oversizedInteger
  | .scalar (.text s) => integerOfText s
  | _ => .error .notInteger

/-- A number of workers: null, or an integer from one on. -/
def workersOf : Value → Except SettingCause (Option Int)
  | .null => .ok none
  | v =>
    match integerOf v with
    | .error e => .error e
    | .ok n => if n < 1 then .error .belowOne else .ok (some n)

/-- A setting that is a text. -/
def textOf : Value → Except SettingCause String
  | .text s => .ok s
  | _ => .error .notText

/-- A setting that is a path. -/
def pathOf : Value → Except SettingCause DiskPath
  | .text s => .ok (.ofString s)
  | _ => .error .notPath

/-- Reads one setting and gives it to settings under construction; the causes of all are kept. -/
def withSetting {α β : Type} (values : Entries) (name : String) (default : α)
    (read : Value → Except SettingCause α)
    (built : Except (List (String × SettingCause)) (α → β)) :
    Except (List (String × SettingCause)) β :=
  let value : Except SettingCause α :=
    match Entries.find? (.text name) values with
    | none => .ok default
    | some v => read v
  match built, value with
  | .ok f, .ok a => .ok (f a)
  | .ok _, .error e => .error [(name, e)]
  | .error es, .ok _ => .error es
  | .error es, .error e => .error (es ++ [(name, e)])

/-- The settings with the given values; unknown names are ignored. -/
def ofValues (values : Entries) : Except Fault Settings :=
  let d : Settings := {}
  let built :=
    withSetting values "max_workers" d.maxWorkers workersOf <|
    withSetting values "services_alias" d.servicesAlias textOf <|
    withSetting values "models_alias" d.modelsAlias textOf <|
    withSetting values "framework_module" d.frameworkModule textOf <|
    withSetting values "api_version" d.apiVersion textOf <|
    withSetting values "extension" d.extension textOf <|
    withSetting values "output_dir" d.outputDir pathOf <|
    .ok Settings.mk
  match built with
  | .ok s => .ok s
  | .error causes => .error (.settings causes)

/-- The variables of the environment that are settings, with the settings they are. -/
def environmentNames : List (String × String) :=
  [("OAS_SCAFFOLD_OUTPUT_DIR", "output_dir"), ("OAS_SCAFFOLD_EXTENSION", "extension"),
    ("OAS_SCAFFOLD_API_VERSION", "api_version"), ("OAS_SCAFFOLD_MAX_WORKERS", "max_workers")]

/-- The settings that an environment gives; an empty variable counts as absent. -/
def environmentValues (env : List (String × String)) : Entries :=
  environmentNames.filterMap fun v =>
    match env.lookup v.1 with
    | none => none
    | some s => if s = "" then none else some (.text v.2, .text s)

/-- The settings of an environment and given values; a given null counts as absent. -/
def ofEnvironment (env : List (String × String)) (given : Entries) : Except Fault Settings :=
  let present := given.filter fun e => match e.2 with | .null => false | _ => true
  ofValues (present.foldl (fun acc e => Entries.insert e.1 e.2 acc) (environmentValues env))

end Settings

end ApiScaffold
