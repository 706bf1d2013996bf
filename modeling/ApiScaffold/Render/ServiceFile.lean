import ApiScaffold.Render.ModelFile

/-!
# Files of services

A service becomes a class with a stub for each of its operations and a registration method.
-/

namespace ApiScaffold.Render

/-- The stub of an operation: it throws. -/
def serviceMethod (m : Method) : List Char :=
  joinLines [
    m.name.toList ++ "(".toList ++ methodParameters "unknown" m.bodyType? ++ ") \x7b".toList,
    "  throw new Error(\"".toList ++ m.name.toList ++ " is not implemented\");".toList,
    ['}']]

/-- The line that imports a class. -/
def classImport (settings : Settings) (i : Import) : List Char :=
  valueImport [i.name] (moduleOf settings i.path)

/-- The members of a service class. -/
def serviceMembers (s : Service) : List (List Char) :=
  s.methods.map serviceMethod ++ [registerMethod (s.imports.map (·.name))]

/-- The file of a service. -/
def serviceFile (settings : Settings) (s : Service) : List Char :=
  fileOfLines <|
    s.imports.map (classImport settings) ++
    [valueImport ["Service", "type InjectableRegistration"] settings.frameworkModule,
      [],
      "@Service()".toList,
      "export class ".toList ++ (Naming.className s.name .service).toList ++ " \x7b".toList,
      memberBlock (serviceMembers s),
      ['}']]

end ApiScaffold.Render
