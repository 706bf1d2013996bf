import ApiScaffold.Render.ServiceFile
import ApiScaffold.Resource.Schema

/-!
# Files of controllers

A controller becomes a class that answers each operation by the method of the same name of its
service, which is injected.
-/

namespace ApiScaffold.Render

/-- The text without slashes at its end. -/
def dropSlashes (cs : List Char) : List Char := Text.dropSuffixWhile (· == '/') cs

/-- What a url adds to a base route that it lies below; an empty rest is the root. -/
def routeSuffix (url base : List Char) : List Char :=
  let root := dropSlashes base
  let below := !base.isEmpty && (url == base || (root ++ ['/']).isPrefixOf url)
  let rest := if below then url.drop root.length else url
  if rest.isEmpty then ['/'] else rest

/-- The route of an operation below the first segment of its url. -/
def methodRoute (m : Method) : List Char :=
  routeSuffix m.url.toList (Naming.baseRoute m.url.toList)

/-- The method that answers an operation. -/
def controllerMethod (serviceField : List Char) (m : Method) : List Char :=
  joinLines [
    '@' :: m.verb.decorator.toList ++ "(\x7b description: \"\", path: \"".toList ++ methodRoute m ++
      "\" \x7d)".toList,
    m.name.toList ++ "(".toList ++ methodParameters "Context" m.bodyType? ++ ") \x7b".toList,
    "  return this.".toList ++ serviceField ++ ['.'] ++ m.name.toList ++ "(".toList ++
      callArguments m.bodyType? ++ ");".toList,
    ['}']]

/-- The name of the injected service. -/
def serviceField (c : Controller) : List Char := Naming.camelCase c.serviceClass.toList

/-- The members of a controller class. -/
def controllerMembers (c : Controller) : List (List Char) :=
  ("constructor(private readonly ".toList ++ serviceField c ++ ": ".toList ++
      c.serviceClass.toList ++ ") \x7b\x7d".toList) ::
    c.methods.map (controllerMethod (serviceField c)) ++ [registerMethod [c.serviceClass]]

/-- The names that a controller takes from the framework: the decorators of its verbs, each once. -/
def frameworkNames (c : Controller) : List String :=
  "Controller" :: (c.methods.map fun m => m.verb.decorator).eraseDups ++
    ["type Context", "type InjectableRegistration"]

/-- The import lines of a controller: its service, the types it mentions, the framework. -/
def controllerImportLines (settings : Settings) (c : Controller) : List (List Char) :=
  c.serviceImports.map (classImport settings) ++
    (c.imports.filter fun i => i.name != c.serviceClass).map
      (fun i => typeImport [i.name] (moduleOf settings i.path)) ++
    [valueImport (frameworkNames c) settings.frameworkModule]

/-- The file of a controller. -/
def controllerFile (settings : Settings) (c : Controller) : List Char :=
  fileOfLines <|
    controllerImportLines settings c ++
    [[],
      "@Controller(\"".toList ++ (if c.path = "" then ['/'] else c.path.toList) ++ "\")".toList,
      "export class ".toList ++ (Naming.className c.name .controller).toList ++ " \x7b".toList,
      memberBlock (controllerMembers c),
      ['}']]

end ApiScaffold.Render
