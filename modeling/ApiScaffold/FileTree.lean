import ApiScaffold.DiskPath

/-!
# File trees

The files and directories below a working directory, and the ways in which reading and writing them
can fail.  A place is a list of names from the working directory; a path reaches it name by name,
each step from a directory that is there.  Places above the working directory and the root are
directories without known contents.

What is put at a place is there, and nothing else changes (`get?_put`).
-/

namespace ApiScaffold

/-- What a file holds: text, or bytes that are no text. -/
inductive Content where
  | text (s : String)
  | bytes (bs : List UInt8)
  deriving DecidableEq, Repr

/-- What is at a place. -/
inductive Entry where
  | file (content : Content)
  | directory
  deriving DecidableEq, Repr

/-- Why an access fails. -/
inductive AccessFault where
  | missing
  | notDirectory
  | isDirectory
  | occupied
  /-- The path holds a character that no path can hold. -/
  | badPath
  deriving DecidableEq, Repr

/-- The wording of a failed access. -/
def AccessFault.message : AccessFault → String
  | missing => "No such file or directory"
  | notDirectory => "Not a directory"
  | isDirectory => "Is a directory"
  | occupied => "File exists"
  | badPath => "embedded null byte"

/-- A place: the names that lead to it from the working directory. -/
abbrev Place := List String

/-- Files and directories by place. -/
structure FileTree where
  entries : List (Place × Entry)
  deriving DecidableEq, Repr

namespace FileTree

/-- The tree without files. -/
def empty : FileTree := ⟨[]⟩

/-- Whether a place is the working directory, above it, or the root. -/
def isAncestor (p : Place) : Bool := p.all fun n => n == ".." || n == "/"

/-- What is at a place. -/
def get? (t : FileTree) (p : Place) : Option Entry :=
  if isAncestor p then some .directory else t.entries.lookup p

/-- Puts an entry at a place. -/
def put (t : FileTree) (p : Place) (e : Entry) : FileTree :=
  ⟨(p, e) :: t.entries.filter fun x => x.1 != p⟩

theorem lookup_filter_ne {p q : Place} (es : List (Place × Entry)) (h : q ≠ p) :
    (es.filter fun x => x.1 != p).lookup q = es.lookup q := by
  induction es with
  | nil => rfl
  | cons e es ih =>
    obtain ⟨k, b⟩ := e
    by_cases hk : k = p
    · subst hk
      simp [ih, List.lookup_cons, beq_eq_false_iff_ne.2 h]
    · simp [hk, ih, List.lookup_cons]

/-- What is put at a place inside the working directory is there, and other places stay as they
are. -/
theorem get?_put (t : FileTree) (p q : Place) (e : Entry) (hp : isAncestor p = false) :
    (t.put p e).get? q = if q = p then some e else t.get? q := by
  by_cases h : q = p
  · simp [get?, put, h, hp]
  · simp [get?, put, h, List.lookup_cons, beq_eq_false_iff_ne.2 h, lookup_filter_ne _ h]

/-- One step from a directory. -/
def step (p : Place) (name : String) : Place :=
  if name = ".." then
    match p.getLast? with
    | none => [".."]
    | some ".." => p ++ [".."]
    | some "/" => p
    | some _ => p.dropLast
  else p ++ [name]

/-- Follows names from a place, which has to be a directory as long as names follow. -/
def walk (t : FileTree) : Place → List String → Except AccessFault Place
  | p, [] => .ok p
  | p, n :: ns =>
    match t.get? p with
    | some .directory => t.walk (step p n) ns
    | some (.file _) => .error .notDirectory
    | none => .error .missing

/-- The place where a path begins. -/
def origin (root : String) : Place := if root = "" then [] else ["/"]

/-- The place that a path leads to. -/
def locate (t : FileTree) (path : DiskPath) : Except AccessFault Place :=
  if path.names.any fun n => n.toList.contains '\x00' then .error .badPath
  else t.walk (origin path.root) path.names

/-- What is at the end of a path. -/
def lookup (t : FileTree) (path : DiskPath) : Except AccessFault Entry :=
  match t.locate path with
  | .error e => .error e
  | .ok p =>
    match t.get? p with
    | some e => .ok e
    | none => .error .missing

/-- Whether something is at the end of a path. -/
def holds (t : FileTree) (path : DiskPath) : Bool :=
  match t.lookup path with
  | .ok _ => true
  | .error _ => false

/-- Whether a directory is at the end of a path. -/
def isDirectory (t : FileTree) (path : DiskPath) : Bool :=
  match t.lookup path with
  | .ok .directory => true
  | _ => false

/-- The contents of the file at the end of a path. -/
def read (t : FileTree) (path : DiskPath) : Except AccessFault Content :=
  match t.lookup path with
  | .error e => .error e
  | .ok .directory => .error .isDirectory
  | .ok (.file c) => .ok c

/-- Makes one directory. -/
def makeDirectory (t : FileTree) (path : DiskPath) : Except AccessFault FileTree :=
  match t.locate path with
  | .error e => .error e
  | .ok p =>
    match t.get? p with
    | some _ => .error .occupied
    | none => .ok (t.put p .directory)

/-- Makes a directory and those it lies in, as far as they are missing. The names come innermost
first. -/
def makeDirectories (t : FileTree) (root : String) : List String → Except AccessFault FileTree
  | [] => .ok t
  | n :: outer =>
    let path : DiskPath := ⟨root, (n :: outer).reverse⟩
    let settle (t : FileTree) : Except AccessFault FileTree :=
      match t.makeDirectory path with
      | .ok t => .ok t
      | .error e => if t.isDirectory path then .ok t else .error e
    match t.makeDirectory path with
    | .error .missing =>
      match t.makeDirectories root outer with
      | .ok t => settle t
      | .error e => .error e
    | _ => settle t

/-- Writes a file into a directory that is there. -/
def writeFile (t : FileTree) (path : DiskPath) (c : Content) : Except AccessFault FileTree :=
  match t.locate path with
  | .error e => .error e
  | .ok p =>
    match t.get? p with
    | some .directory => .error .isDirectory
    | _ => .ok (t.put p (.file c))

/-- Writes a file and makes the directories it lies in. -/
def write (t : FileTree) (path : DiskPath) (c : Content) : Except AccessFault FileTree :=
  match t.makeDirectories path.root path.parent.names.reverse with
  | .error e => .error e
  | .ok t => t.writeFile path c

/-- Whether a place lies below the working directory. -/
def isInside (p : Place) : Bool := !p.isEmpty && p.all fun n => n != ".." && n != "/"

/-- The path text of a place. -/
def placeText (p : Place) : String := "/".intercalate p

/-- The files below the working directory, by the characters of their paths. -/
def files (t : FileTree) : List (String × Content) :=
  let found := t.entries.filterMap fun e =>
    match e.2 with
    | .file c => if isInside e.1 then some (placeText e.1, c) else none
    | .directory => none
  found.mergeSort fun a b => decide (a.1 ≤ b.1)

end FileTree

end ApiScaffold
