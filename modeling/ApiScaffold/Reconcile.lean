import ApiScaffold.Render.ServiceFile
import ApiScaffold.Splice
import ApiScaffold.TypeScript.Import

/-!
# Reconciling a service class

The source text of a service is brought into line with its operations by edits alone: methods of the
class that are no operations are cut out, stubs of operations that are no methods are inserted
behind the last member that stays, and missing imports behind the last import declaration.
Everything else, the bodies of methods above all, stays as it is.
-/

namespace ApiScaffold.Reconcile

/-- The methods that are never cut out. -/
def protectedMembers : List String := ["register", "constructor"]

/-- What has to change in a class. -/
structure Changes where
  removed : List TypeScript.Member
  added : List Method
  edits : List Splice.Edit

/-- Whether a member is a method that the service does not have. -/
def isRemoved (s : Service) (m : TypeScript.Member) : Bool :=
  m.kind == .method && !(s.methods.map (·.name)).contains m.name &&
    !protectedMembers.contains m.name

/-- The methods to be cut out. -/
def removed (s : Service) (body : TypeScript.ClassBody) : List TypeScript.Member :=
  body.members.filter (isRemoved s)

/-- The members that stay. -/
def kept (s : Service) (body : TypeScript.ClassBody) : List TypeScript.Member :=
  body.members.filter fun m => !isRemoved s m

/-- The operations that the class has no method for. -/
def added (s : Service) (body : TypeScript.ClassBody) : List Method :=
  s.methods.filter fun m => !(body.methods.map (·.name)).contains m.name

/-- The stubs of operations, each below an empty line. -/
def stubs (ms : List Method) : List Char :=
  ms.flatMap fun m => '\n' :: '\n' :: Render.indent 1 (Render.serviceMethod m)

/-- An insertion at an offset. -/
def insertion (place : Nat) (text : List Char) : Splice.Edit := ⟨place, place, text⟩

/-- Inserts the stubs behind the last member that stays, or else behind the opening brace. -/
def insertStubs (s : Service) (body : TypeScript.ClassBody) : List Splice.Edit :=
  let new := added s body
  if new.isEmpty then []
  else
    match (kept s body).getLast? with
    | some m => [insertion m.stop (stubs new)]
    | none => [insertion (body.opening + 1) ((stubs new).drop 1 ++ ['\n'])]

/-- The imports of the service that the source text lacks. -/
def missingImports (s : Service) (source : List Char) : List Import :=
  let known := TypeScript.importedNames source
  s.imports.filter fun i => !known.contains i.name

/-- Inserts the missing imports: below the last import declaration, or above everything. -/
def insertImports (settings : Settings) (s : Service) (source : List Char) : List Splice.Edit :=
  let missing := missingImports s source
  if missing.isEmpty then []
  else
    let lines := Render.joinLines (missing.map (Render.classImport settings))
    let place := TypeScript.importInsertionPoint source
    [insertion place (if place = 0 then lines ++ ['\n'] else '\n' :: lines)]

/-- What has to change in the class of a service, whose body is given. -/
def changes (settings : Settings) (s : Service) (source : List Char)
    (body : TypeScript.ClassBody) : Changes :=
  { removed := removed s body
    added := added s body
    edits :=
      (removed s body).map (fun m => ⟨m.start, m.stop, []⟩) ++ insertStubs s body ++
        insertImports settings s source }

end ApiScaffold.Reconcile
