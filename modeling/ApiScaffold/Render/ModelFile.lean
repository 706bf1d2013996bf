import ApiScaffold.Naming
import ApiScaffold.Render.Phrase
import ApiScaffold.Settings

/-!
# Files of models

A model becomes an exported class with a property for each of its fields, below the imports of the
classes it refers to.
-/

namespace ApiScaffold.Render

/-- The module that an import path denotes. -/
def moduleOf (settings : Settings) (path : String) : String := path ++ "." ++ settings.extension

/-- The remarks on a property: its description and its format. -/
def remarks (f : Field) : List (List Char) :=
  (if f.description = "" then [] else [f.description.toList]) ++
    match f.format with
    | none => []
    | some s => if s = "" then [] else ["@format ".toList ++ s.toList]

/-- A property without remarks. -/
def propertyLine (f : Field) : List Char :=
  propertyKey f.name.toList ++ (if f.nullable then ['?'] else ['!']) ++ ": ".toList ++
    f.type.toList ++ [';']

/-- A property with its remarks in front of it. -/
def property (f : Field) : List Char :=
  if (remarks f).isEmpty then propertyLine f
  else joinLines [docComment (Text.joinWith [' '] (remarks f)), propertyLine f]

/-- The import lines of a model and the empty line below them. -/
def modelImportLines (settings : Settings) (m : Model) : List (List Char) :=
  if m.imports.isEmpty then []
  else m.imports.map (fun i => typeImport [i.name] (moduleOf settings i.path)) ++ [[]]

/-- The file of a model. -/
def modelFile (settings : Settings) (m : Model) : List Char :=
  fileOfLines <|
    modelImportLines settings m ++
    (if m.description = "" then [] else [docComment m.description.toList]) ++
    ["export class ".toList ++ (Naming.className m.name .model).toList ++ " \x7b".toList] ++
    m.fields.map (fun f => indent 1 (property f)) ++
    [['}']]

end ApiScaffold.Render
