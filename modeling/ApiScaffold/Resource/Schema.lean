import ApiScaffold.Resource.Basic
import ApiScaffold.Resource.Check

/-!
# Schemas of resources

The data of a resource is a mapping with certain keys; keys outside the schema are refused.

* `Model.check`, `Service.check` and `Controller.check` read a resource from its data;
* `Model.data`, `Service.data` and `Controller.data` write it back, every key present.

Beyond the shapes, import names are pairwise different, an operation has at most one body, and a
controller imports its service exactly once.
-/

namespace ApiScaffold

open Check

/-- An optional text as a value. -/
def optionalText : Option String → Value
  | none => .null
  | some s => .text s

namespace Import

/-- Reads an import. -/
def check : Check Import :=
  mapping "Import" fun es =>
    ((Checked.and (.ok Import.mk) (required "name" someText es)).and
      (required "path" someText es)).withProblems (strayKeys ["name", "path"] es)

/-- The data of an import. -/
def data (i : Import) : Value := .record [("name", .text i.name), ("path", .text i.path)]

/-- The names that occur more than once, in the order of their characters. -/
def duplicates (is : List Import) : List String :=
  let names := is.map (·.name)
  ((names.filter fun n => 1 < names.count n).eraseDups).mergeSort (fun a b => decide (a ≤ b))

/-- Reads a list of imports of pairwise different names. -/
def checkAll : Check (List Import) := fun v =>
  (listOf check v).andThen fun is =>
    if (duplicates is).isEmpty then .ok is else .object (.duplicateImports (duplicates is))

end Import

namespace Field

/-- Reads a property. -/
def check : Check Field :=
  mapping "Field" fun es =>
    ((((((((Checked.and (.ok Field.mk) (required "name" someText es)).and
      (required "type" someText es)).and
      (optional "nullable" false truth es)).and
      (optional "description" "" anyText es)).and
      (optional "format" none (orNull anyText) es)).and
      (optional "ref" none (orNull anyText) es)).and
      (optional "top_level" false truth es)).and
      (optional "enum_values" none (orNull anyText) es)).withProblems
      (strayKeys
        ["name", "type", "nullable", "description", "format", "ref", "top_level", "enum_values"] es)

/-- The data of a property. -/
def data (f : Field) : Value :=
  .record [("name", .text f.name), ("type", .text f.type), ("nullable", .bool f.nullable),
    ("description", .text f.description), ("format", optionalText f.format),
    ("ref", optionalText f.ref), ("top_level", .bool f.topLevel),
    ("enum_values", optionalText f.enumValues)]

end Field

namespace Model

/-- Reads a model. -/
def check : Check Model :=
  mapping "Model" fun es =>
    ((((Checked.and (.ok Model.mk) (required "name" someText es)).and
      (optional "description" "" anyText es)).and
      (required "fields" (listOf Field.check) es)).and
      (optional "imports" [] Import.checkAll es)).withProblems
      (strayKeys ["name", "description", "fields", "imports"] es)

/-- The data of a model. -/
def data (m : Model) : Value :=
  .record [("name", .text m.name), ("description", .text m.description),
    ("fields", .list (m.fields.map Field.data)), ("imports", .list (m.imports.map Import.data))]

end Model

namespace Parameter

/-- Reads a parameter. -/
def check : Check Parameter :=
  mapping "Parameter" fun es =>
    (((Checked.and (.ok Parameter.mk) (Check.required "location" someText es)).and
      (Check.required "name" someText es)).and
      (optional "required" false truth es)).withProblems
      (strayKeys ["location", "name", "required"] es)

/-- The data of a parameter. -/
def data (p : Parameter) : Value :=
  .record [("location", .text p.location), ("name", .text p.name), ("required", .bool p.required)]

end Parameter

namespace BodyParam

/-- Reads a body. -/
def check : Check BodyParam :=
  mapping "BodyParam" fun es =>
    ((Checked.and (.ok BodyParam.mk) (required "name" someText es)).and
      (required "type" someText es)).withProblems (strayKeys ["name", "type"] es)

/-- The data of a body. -/
def data (b : BodyParam) : Value := .record [("name", .text b.name), ("type", .text b.type)]

end BodyParam

namespace MethodParameters

/-- Reads what an operation takes. -/
def check : Check MethodParameters :=
  mapping "MethodParameters" fun es =>
    ((Checked.and (.ok MethodParameters.mk)
      (optional "params" none (orNull (listOf Parameter.check)) es)).and
      (optional "body" none (orNull (atMostOne BodyParam.check)) es)).withProblems
      (strayKeys ["params", "body"] es)

/-- The data of what an operation takes. -/
def data (p : MethodParameters) : Value :=
  .record [
    ("params", match p.params with
      | none => .null
      | some ps => .list (ps.map Parameter.data)),
    ("body", match p.body with
      | none => .null
      | some bs => .list (bs.map BodyParam.data))]

end MethodParameters

/-- Reads a verb. -/
def Verb.check : Check Verb
  | .text s =>
    match Verb.ofName? s with
    | some v => .ok v
    | none => .object .notVerb
  | _ => .object .notVerb

namespace Method

/-- Reads an operation. -/
def check : Check Method :=
  mapping "Method" fun es =>
    (((((Checked.and (.ok Method.mk) (required "type" Verb.check es)).and
      (required "name" someText es)).and
      (required "url" someText es)).and
      (optional "content_type" none (orNull anyText) es)).and
      (optional "parameters" none (orNull MethodParameters.check) es)).withProblems
      (strayKeys ["type", "name", "url", "content_type", "parameters"] es)

/-- The data of an operation. -/
def data (m : Method) : Value :=
  .record [("type", .text m.verb.name), ("name", .text m.name), ("url", .text m.url),
    ("content_type", optionalText m.contentType),
    ("parameters", match m.parameters with
      | none => .null
      | some p => p.data)]

end Method

namespace Service

/-- Reads a service. -/
def check : Check Service :=
  mapping "Service" fun es =>
    ((((Checked.and (.ok Service.mk) (required "name" someText es)).and
      (optional "description" "" anyText es)).and
      (required "methods" (listOf Method.check) es)).and
      (optional "imports" [] Import.checkAll es)).withProblems
      (strayKeys ["name", "description", "methods", "imports"] es)

/-- The data of a service. -/
def data (s : Service) : Value :=
  .record [("name", .text s.name), ("description", .text s.description),
    ("methods", .list (s.methods.map Method.data)), ("imports", .list (s.imports.map Import.data))]

end Service

namespace Controller

/-- The imports of the controller's own service. -/
def serviceImports (c : Controller) : List Import :=
  c.imports.filter fun i => i.name == c.serviceClass

/-- Accepts a controller that imports its service exactly once. -/
def checkService (c : Controller) : Checked Controller :=
  if c.serviceImports.length = 1 then .ok c
  else .object (.serviceImports c.serviceClass c.serviceImports.length)

/-- Reads a controller. -/
def check : Check Controller :=
  mapping "Controller" fun es =>
    ((((((Checked.and (.ok Controller.mk) (required "name" someText es)).and
      (optional "description" "" anyText es)).and
      (optional "path" "" anyText es)).and
      (required "methods" (listOf Method.check) es)).and
      (required "imports" Import.checkAll es)).withProblems
      (strayKeys ["name", "description", "path", "methods", "imports"] es)).andThen checkService

/-- The data of a controller. -/
def data (c : Controller) : Value :=
  .record [("name", .text c.name), ("description", .text c.description), ("path", .text c.path),
    ("methods", .list (c.methods.map Method.data)), ("imports", .list (c.imports.map Import.data))]

end Controller

end ApiScaffold
