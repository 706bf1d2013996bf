import ApiScaffold.Document.Yaml.Node

/-!
# A YAML document as a graph

The nodes of a document, each with a number, and collections that give their nodes by number.  So an
alias is the number of the node it stands for, and a node may contain itself.

* `Graph.ofNode` numbers the nodes of a document; the document itself is number zero;
* `Graph.merge` carries out the merge keys of a mapping: it takes over the entries of others, and
  its own entries come after them and so win.
-/

namespace ApiScaffold.Yaml

/-- A node whose parts are given by their numbers. -/
inductive Part where
  | scalar (tag : Tag) (text : String)
  | sequence (tag : Tag) (items : List Nat)
  | mapping (tag : Tag) (entries : List (Nat × Nat))
  deriving Repr

namespace Part

/-- The tag of a node. -/
def tag : Part → Tag
  | scalar t _ => t
  | sequence t _ => t
  | mapping t _ => t

/-- The node with another tag. -/
def withTag (t : Tag) : Part → Part
  | scalar _ s => scalar t s
  | sequence _ items => sequence t items
  | mapping _ es => mapping t es

/-- The mapping with other entries. -/
def withEntries (es : List (Nat × Nat)) : Part → Part
  | mapping t _ => mapping t es
  | p => p

/-- The entries of a mapping. -/
def entries? : Part → Option (List (Nat × Nat))
  | mapping _ es => some es
  | _ => none

/-- The items of a sequence. -/
def items? : Part → Option (List Nat)
  | sequence _ items => some items
  | _ => none

end Part

/-- Nodes by number. -/
structure Graph where
  parts : Array Part
  deriving Repr

namespace Graph

/-- The node of a number. -/
def part (g : Graph) (id : Nat) : Part := g.parts.getD id (.scalar .null "")

/-- The entries of the mapping of a number; empty for another node. -/
def entries (g : Graph) (id : Nat) : List (Nat × Nat) := (g.part id).entries?.getD []

/-- Puts a node in the place of the one of a number. -/
def set (g : Graph) (id : Nat) (p : Part) : Graph := ⟨g.parts.setIfInBounds id p⟩

/-- Gives the mapping of a number other entries. -/
def setEntries (g : Graph) (id : Nat) (es : List (Nat × Nat)) : Graph :=
  g.set id ((g.part id).withEntries es)

/-- Gives the node of a number another tag. -/
def setTag (g : Graph) (id : Nat) (t : Tag) : Graph := g.set id ((g.part id).withTag t)

end Graph

/-! ## Numbering -/

/-- The nodes that have numbers so far, and the numbers of the anchors among them. -/
structure Numbering where
  graph : Graph
  anchors : List (String × Nat)

namespace Numbering

/-- The next number. -/
def next (s : Numbering) : Nat := s.graph.parts.size

/-- Gives a node the next number. -/
def push (s : Numbering) (p : Part) : Numbering := { s with graph := ⟨s.graph.parts.push p⟩ }

/-- Completes the node of a number. -/
def complete (s : Numbering) (id : Nat) (p : Part) : Numbering :=
  { s with graph := s.graph.set id p }

mutual

/-- The number of a node. A collection has its number before its parts have theirs. -/
def add : Node → Numbering → Nat × Numbering
  | .scalar tag text, s => (s.next, s.push (.scalar tag text))
  | .sequence tag items, s =>
    let r := addItems items (s.push (.sequence tag []))
    (s.next, r.2.complete s.next (.sequence tag r.1))
  | .mapping tag es, s =>
    let r := addEntries es (s.push (.mapping tag []))
    (s.next, r.2.complete s.next (.mapping tag r.1))
  | .anchored name v, s => add v { s with anchors := (name, s.next) :: s.anchors }
  | .alias name, s => ((s.anchors.lookup name).getD 0, s)

/-- The numbers of the items of a sequence. -/
def addItems : List Node → Numbering → List Nat × Numbering
  | [], s => ([], s)
  | v :: vs, s =>
    let r := add v s
    let rs := addItems vs r.2
    (r.1 :: rs.1, rs.2)

/-- The numbers of the entries of a mapping. -/
def addEntries : List (Node × Node) → Numbering → List (Nat × Nat) × Numbering
  | [], s => ([], s)
  | e :: es, s =>
    let r := addEntry e s
    let rs := addEntries es r.2
    (r.1 :: rs.1, rs.2)

/-- The numbers of the key and the value of an entry. -/
def addEntry : Node × Node → Numbering → (Nat × Nat) × Numbering
  | (k, v), s =>
    let r := add k s
    let rs := add v r.2
    ((r.1, rs.1), rs.2)

end

end Numbering

namespace Graph

/-- The nodes of a document. -/
def ofNode (v : Node) : Graph := (Numbering.add v ⟨⟨#[]⟩, []⟩).2.graph

/-! ## Merge keys -/

/-- A computation on a graph that changes it. -/
abbrev Changing (α : Type) := Graph → Except Failure (α × Graph)

/-- The entries of the mappings in a list, the last mapping first, once each of them has merged its
own by `mergeOne`. -/
def mergedItems (mergeOne : Nat → Graph → Except Failure Graph) :
    List Nat → Changing (List (Nat × Nat))
  | [], g => .ok ([], g)
  | id :: ids, g =>
    match (g.part id).entries? with
    | none => malformed
    | some _ =>
      match mergeOne id g with
      | .error e => .error e
      | .ok g =>
        let own := g.entries id
        (mergedItems mergeOne ids g).map fun r => (r.1 ++ own, r.2)

/-- The entries that the value of a merge key brings in. -/
def mergedEntries (mergeOne : Nat → Graph → Except Failure Graph) (id : Nat) :
    Changing (List (Nat × Nat)) := fun g =>
  match g.part id with
  | .scalar _ _ => malformed
  | .sequence _ items => mergedItems mergeOne items g
  | .mapping _ _ => (mergeOne id g).map fun g => (g.entries id, g)

/-- Passes over the given number of entries of a mapping, from an index on, and takes the merge keys
out; a default key becomes a text. `merged` holds the entries brought in so far, which come in front
of the others at the end. -/
def mergeFrom (mergeOne : Nat → Graph → Except Failure Graph) (id : Nat) :
    (count index : Nat) → (merged : List (Nat × Nat)) → Graph → Except Failure Graph
  | 0, _, merged, g =>
    .ok (if merged.isEmpty then g else g.setEntries id (merged ++ g.entries id))
  | count + 1, index, merged, g =>
    match (g.entries id)[index]? with
    | none => mergeFrom mergeOne id count index merged g
    | some (k, v) =>
      match (g.part k).tag with
      | .merge =>
        match mergedEntries mergeOne v (g.setEntries id ((g.entries id).eraseIdx index)) with
        | .error e => .error e
        | .ok (es, g) => mergeFrom mergeOne id count index (merged ++ es) g
      | .defaultKey => mergeFrom mergeOne id count (index + 1) merged (g.setTag k .str)
      | _ => mergeFrom mergeOne id count (index + 1) merged g

/-- Carries out the merge keys of a mapping, and first those of the mappings it merges. Each of
these has lost a merge key on the way, so that `depth` is at most the number of nodes. -/
def mergeWithin : (depth : Nat) → Nat → Graph → Except Failure Graph
  | 0, _, _ => .error (.misuse .tooDeep)
  | n + 1, id, g => mergeFrom (mergeWithin n) id (g.entries id).length 0 [] g

/-- Carries out the merge keys of a mapping. -/
def merge (g : Graph) (id : Nat) : Except Failure Graph := mergeWithin (g.parts.size + 1) id g

end Graph

end ApiScaffold.Yaml
