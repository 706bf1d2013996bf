import ApiScaffold.Text.Quoted
import ApiScaffold.Text.Blank
import ApiScaffold.Text.WordChar

/-!
# Phrases of generated sources

The pieces that the generated files share: lines and their indentation, comments, property names,
lines of imports, parameter lists and the registration method.
-/

namespace ApiScaffold.Render

/-- Lines as one text, each but the last followed by a line break. -/
def joinLines (lines : List (List Char)) : List Char := Text.joinWith ['\n'] lines

/-- Lines as a text that ends in a line break. -/
def fileOfLines (lines : List (List Char)) : List Char := joinLines lines ++ ['\n']

/-- The indentation of a level. -/
def indentation (level : Nat) : List Char := List.replicate (2 * level) ' '

/-- The text with its lines indented, empty ones apart. -/
def indent (level : Nat) (text : List Char) : List Char :=
  joinLines <| (Text.splitOn '\n' text).map fun line =>
    if line.isEmpty then [] else indentation level ++ line

/-- A text on one line, as a comment that nothing in it can end. -/
def docComment (text : List Char) : List Char :=
  let line := Text.joinWith [' '] (Text.words text)
  "/** ".toList ++ Text.replaceAll "*/".toList "*\\/".toList line ++ " */".toList

/-- Whether a text is an identifier. -/
def isIdentifier : List Char → Bool
  | [] => false
  | c :: cs => Text.isIdentifierStart c && cs.all Text.isIdentifierChar

/-- The name of a property, between quotes unless it is an identifier. -/
def propertyKey (name : List Char) : List Char :=
  if isIdentifier name then name else Text.quote .ascii name

/-- Texts with commas between them. -/
def commaList (items : List String) : List Char := (", ".intercalate items).toList

/-- A line that imports names from a module. -/
def importLine (keyword : String) (names : List String) (module : String) : List Char :=
  keyword.toList ++ " \x7b ".toList ++ commaList names ++ " \x7d from \"".toList ++
    module.toList ++ "\";".toList

/-- A line that imports values. -/
def valueImport : List String → String → List Char := importLine "import"

/-- A line that imports types. -/
def typeImport : List String → String → List Char := importLine "import type"

/-- The parameters of a method that may take a body. -/
def methodParameters (contextType : String) (bodyType : Option String) : List Char :=
  "context: ".toList ++ contextType.toList ++ ", params: unknown".toList ++
    match bodyType with
    | none => []
    | some t => if t = "" then [] else ", body: ".toList ++ t.toList

/-- The arguments that a controller passes on. -/
def callArguments (bodyType : Option String) : List Char :=
  match bodyType with
  | none => "context, params".toList
  | some t => if t = "" then "context, params".toList else "context, params, body".toList

/-- The method that registers a class with the classes it depends on. -/
def registerMethod (dependencies : List String) : List Char :=
  joinLines [
    "register(): InjectableRegistration \x7b".toList,
    "  return \x7b dependencies: [".toList ++
      commaList (dependencies.map fun n => "\x7b class: " ++ n ++ " \x7d") ++ "] \x7d;".toList,
    "\x7d".toList]

/-- Class members below the opening brace, with an empty line between two of them. -/
def memberBlock (members : List (List Char)) : List Char :=
  Text.joinWith ['\n', '\n'] (members.map (indent 1))

end ApiScaffold.Render
