import ApiScaffold.Text.Blank

/-!
# Paths on disk

A path is a root and the names below it.  Reading a text drops empty names and single points, keeps
double points, and keeps the distinction between one leading slash and two.
-/

namespace ApiScaffold

/-- A path in normal form. -/
structure DiskPath where
  /-- Nothing for a relative path, otherwise one slash or two. -/
  root : String
  names : List String
  deriving DecidableEq, Repr

namespace DiskPath

/-- The root of a text: two slashes count only if a third does not follow. -/
def rootOf : List Char → String
  | '/' :: '/' :: '/' :: _ => "/"
  | '/' :: '/' :: _ => "//"
  | '/' :: _ => "/"
  | _ => ""

/-- The path that a text denotes. -/
def ofString (s : String) : DiskPath :=
  { root := rootOf s.toList
    names := ((Text.splitOn '/' s.toList).map String.ofList).filter fun n => n != "" && n != "." }

/-- The text of a path. -/
def toString (p : DiskPath) : String :=
  if p.root = "" ∧ p.names = [] then "." else p.root ++ "/".intercalate p.names

/-- Puts a path below another; a path with a root stands for itself. -/
def append (p q : DiskPath) : DiskPath :=
  if q.root = "" then { p with names := p.names ++ q.names } else q

/-- The path below another that a text denotes. -/
def child (p : DiskPath) (s : String) : DiskPath := p.append (ofString s)

/-- The directory that a path lies in. -/
def parent (p : DiskPath) : DiskPath := { p with names := p.names.dropLast }

/-- The last point of a name and what follows it, unless the point begins or ends the name. -/
def suffixOf (name : List Char) : List Char :=
  let after := Text.takeSuffixWhile (· != '.') name
  if after.length + 1 < name.length ∧ after ≠ [] then '.' :: after else []

/-- The suffix of the last name of a path. -/
def suffix (p : DiskPath) : List Char := suffixOf (p.names.getLastD "").toList

end DiskPath

end ApiScaffold
