import ApiScaffold.Document.Yaml.Graph

/-!
# The objects of a YAML document

Each node of a document becomes one object: a scalar with a value, or a collection of other objects.
`Workshop.run` makes the objects of a document.

A scalar is made when it is first met.  A collection is only begun then, and waits until the
collections begun before it are complete.  So of several nodes without a value the first in this
order counts.
-/

namespace ApiScaffold.Yaml

/-- An object, whose parts are given by their numbers. -/
inductive Object where
  | scalar (s : Scalar)
  | list (items : List Nat)
  | dict (entries : List (Scalar × Nat))
  | keys (ks : List Scalar)
  | pairs (ps : List (Nat × Nat))
  deriving Repr

/-- The objects that are being made. -/
structure Workshop where
  graph : Graph
  /-- What has been made of each node. -/
  objects : Array (Option Object)
  /-- The collections that have been begun and not taken up, the last first. -/
  waiting : List Nat

namespace Workshop

/-- A step of the work. -/
abbrev Work := Workshop → Except Failure Workshop

/-- The object of a number, if it has been begun. -/
def object? (w : Workshop) (id : Nat) : Option Object := (w.objects[id]?).join

/-- Notes the object of a number. -/
def put (w : Workshop) (id : Nat) (o : Object) : Workshop :=
  { w with objects := w.objects.setIfInBounds id (some o) }

/-- Begins a collection. -/
def await (w : Workshop) (id : Nat) (o : Object) : Workshop :=
  { w.put id o with waiting := id :: w.waiting }

/-- The text of a scalar; a mapping with a default key stands for the value of that key. The first
argument bounds the number of mappings passed. -/
def textOf (g : Graph) : (depth : Nat) → Nat → Except Failure String
  | 0, _ => .error (.misuse .tooDeep)
  | n + 1, id =>
    match g.part id with
    | .scalar _ text => .ok text
    | .sequence _ _ => malformed
    | .mapping _ es =>
      match es.find? fun e => (g.part e.1).tag = .defaultKey with
      | some e => textOf g n e.2
      | none => malformed

/-- The value of a scalar node. A point in time has to be a scalar itself. -/
def scalarOf (g : Graph) (id : Nat) : Except Failure Scalar :=
  let p := g.part id
  match textOf g (g.parts.size + 1) id with
  | .error e => .error e
  | .ok text =>
    if p.tag = .timestamp ∧ p.entries?.isSome then .error (.misuse .wrongKind)
    else scalarValue p.tag text

/-- Makes or begins the object of a node, unless that has been done. -/
def make (id : Nat) : Work := fun w =>
  if (w.object? id).isSome then .ok w
  else
    match (w.graph.part id).tag with
    | .seq => .ok (w.await id (.list []))
    | .map => .ok (w.await id (.dict []))
    | .set => .ok (w.await id (.keys []))
    | .orderedMap | .pairs => .ok (w.await id (.pairs []))
    | .merge | .defaultKey | .unknown => malformed
    | .null | .bool | .int | .float | .timestamp | .binary | .str =>
      (scalarOf w.graph id).map fun s => w.put id (.scalar s)

/-- Makes the objects of several nodes in order. -/
def makeAll : List Nat → Work
  | [], w => .ok w
  | id :: ids, w =>
    match make id w with
    | .error e => .error e
    | .ok w => makeAll ids w

/-- The key that the object of a number is: only scalars are keys. -/
def keyOf (w : Workshop) (id : Nat) : Except Failure Scalar :=
  match w.object? id with
  | some (.scalar s) => .ok s
  | _ => malformed

/-- Makes the keys and values of entries in order. -/
def makeEntries : List (Nat × Nat) → Workshop → Except Failure (List (Scalar × Nat) × Workshop)
  | [], w => .ok ([], w)
  | (k, v) :: es, w =>
    match make k w with
    | .error e => .error e
    | .ok w =>
      match w.keyOf k with
      | .error e => .error e
      | .ok key =>
        match make v w with
        | .error e => .error e
        | .ok w => (makeEntries es w).map fun r => ((key, v) :: r.1, r.2)

/-- Makes the entries of a mapping, after those that its merge keys bring in. -/
def makeMapping (id : Nat) (w : Workshop) : Except Failure (List (Scalar × Nat) × Workshop) :=
  match (w.graph.part id).entries? with
  | none => malformed
  | some _ =>
    match w.graph.merge id with
    | .error e => .error e
    | .ok g =>
      (makeEntries (g.entries id) { w with graph := g }).map fun r => (Entries.ofList r.1, r.2)

/-- Makes the pairs of a list of mappings with one entry each. -/
def makePairs : List Nat → Workshop → Except Failure (List (Nat × Nat) × Workshop)
  | [], w => .ok ([], w)
  | id :: ids, w =>
    match (w.graph.part id).entries? with
    | some [(k, v)] =>
      match makeAll [k, v] w with
      | .error e => .error e
      | .ok w => (makePairs ids w).map fun r => ((k, v) :: r.1, r.2)
    | _ => malformed

/-- The items of the sequence of a number. -/
def itemsOf (w : Workshop) (id : Nat) : Except Failure (List Nat) :=
  match (w.graph.part id).items? with
  | some items => .ok items
  | none => malformed

/-- Completes a collection. -/
def complete (id : Nat) : Work := fun w =>
  match (w.graph.part id).tag with
  | .map => (makeMapping id w).map fun r => r.2.put id (.dict r.1)
  | .set => (makeMapping id w).map fun r => r.2.put id (.keys (r.1.map (·.1)))
  | .orderedMap | .pairs =>
    match w.itemsOf id with
    | .error e => .error e
    | .ok items => (makePairs items w).map fun r => r.2.put id (.pairs r.1)
  | _ =>
    match w.itemsOf id with
    | .error e => .error e
    | .ok items => (makeAll items w).map fun w => w.put id (.list items)

/-- Completes the collections of a list, and then those that have been begun meanwhile. The first
argument bounds their number. -/
def completeAll : (steps : Nat) → List Nat → Work
  | 0, _, w => .ok w
  | n + 1, [], w =>
    match w.waiting with
    | [] => .ok w
    | ids => completeAll n ids.reverse { w with waiting := [] }
  | n + 1, id :: ids, w =>
    match complete id w with
    | .error e => .error e
    | .ok w => completeAll n ids w

/-- Makes the objects of a document, which is number zero. Each collection takes a step, and so does
each time that the waiting ones are taken up. -/
def run (g : Graph) : Except Failure (Array (Option Object)) :=
  match make 0 ⟨g, Array.replicate g.parts.size none, []⟩ with
  | .error e => .error e
  | .ok w => (completeAll (2 * g.parts.size + 2) [] w).map (·.objects)

end Workshop

end ApiScaffold.Yaml
