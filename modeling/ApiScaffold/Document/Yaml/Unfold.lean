import ApiScaffold.Document.Yaml.Object

/-!
# Objects as values

The objects of a document refer to each other by number; `unfold` writes them out as a value.

An object whose parts all end is a finite value.  Any other contains itself somewhere.  It is
written out as deep as a look into it can go: along a reference, which takes a character for each
step, and then once through all objects.
-/

namespace ApiScaffold.Yaml

/-- Objects by number, as far as they have been made. -/
abbrev Objects := Array (Option Object)

/-- Values by number, as far as they are known. -/
abbrev Known := Array (Option Value)

/-- The value of a number, if it is known. -/
def Known.find? (known : Known) (id : Nat) : Option Value := (known[id]?).join

namespace Object

/-- The numbers of the parts of an object. -/
def parts : Object → List Nat
  | scalar _ => []
  | list items => items
  | dict es => es.map (·.2)
  | keys _ => []
  | pairs ps => ps.flatMap fun p => [p.1, p.2]

/-- The value of an object whose parts have values. `mark` is applied to each pair of a list of
pairs, with its place and its parts. -/
def value? (part? : Nat → Option Value) (mark : Nat → Nat × Nat → Value → Value) :
    Object → Option Value
  | scalar s => some (.scalar s)
  | list items => (items.mapM part?).map Value.list
  | dict es => (es.mapM fun e => (part? e.2).map fun v => (e.1, v)).map Value.dict
  | keys ks => some (.keys ks)
  | pairs ps =>
    (ps.zipIdx.mapM fun p =>
      (part? p.1.1).bind fun a =>
        (part? p.1.2).map fun b => mark p.2 p.1 (.pair a b)).map Value.list

/-- The number of characters of a text. -/
def textLength : Object → Nat
  | scalar (.text s) => s.length
  | _ => 0

end Object

/-- One pass over all objects, the last first: `write` makes the value of an object from its number
and what is known so far. -/
def sweep (objects : Objects) (write : Nat → Object → Known → Option Value) (known : Known) :
    Known :=
  (List.range objects.size).foldr
    (fun id known =>
      match (objects[id]?).join with
      | none => known
      | some o => known.setIfInBounds id (write id o known))
    known

/-- Several passes over all objects. -/
def sweeps (objects : Objects) (write : Nat → Object → Known → Option Value) : Nat → Known → Known
  | 0, known => known
  | n + 1, known => sweeps objects write n (sweep objects write known)

/-- The value of an object whose parts are known. -/
def writeFinite (_ : Nat) (o : Object) (known : Known) : Option Value :=
  o.value? known.find? fun _ _ v => v

/-- A pair at a place in the list of a number: one that does not end gets a number that no object
and no other pair has. -/
def numberPair (finite : Known) (id place : Nat) (p : Nat × Nat) (v : Value) : Value :=
  if (finite.find? p.1).isSome && (finite.find? p.2).isSome then v
  else .numbered (finite.size * (place + 1) + id) v

/-- The value of an object that does not end: what is not known yet is left out. -/
def writeEndless (finite : Known) (id : Nat) (o : Object) (known : Known) : Option Value :=
  match finite.find? id with
  | some v => some v
  | none =>
    (o.value? (fun part => some ((known.find? part).getD .null)) (numberPair finite id)).map
      (Value.numbered id)

/-- Whether an object has a part that a pass reaches only after the object. -/
def looksBack (id : Nat) (o : Object) : Bool := o.parts.any (· ≤ id)

/-- The number of objects with a part that a pass reaches only after them. A chain of parts that
ends passes each of them at most once. -/
def countBack (objects : Objects) : Nat :=
  ((List.range objects.size).filter fun id =>
    ((objects[id]?).join).any (looksBack id)).length

/-- The length of the longest text. -/
def longestText (objects : Objects) : Nat :=
  objects.foldl (fun n o => max n (o.elim 0 Object.textLength)) 0

/-- The value of the first object. -/
def unfold (objects : Objects) : Value :=
  let unknown : Known := Array.replicate objects.size none
  let finite := sweeps objects writeFinite (countBack objects + 1) unknown
  match finite.find? 0 with
  | some v => v
  | none =>
    let depth := longestText objects + 2 * objects.size + 20
    ((sweeps objects (writeEndless finite) depth finite).find? 0).getD .null

end ApiScaffold.Yaml
