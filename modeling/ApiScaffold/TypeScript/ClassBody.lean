import ApiScaffold.TypeScript.Bracket

/-!
# Classes and their members

`TypeScript.findClass` locates the body of a class in a source text and lists its members.

Members are found in the masked text by their outline.  A parenthesis whose header holds no equals
sign makes a method, which extends over its parameters and what follows them up to its body or a
semicolon. Anything else is a property, which ends at a semicolon, at the end of a line that cannot
go on, or with the class.  A member includes the blanks, comments and decorators in front of it.

The functions below work on the text that follows a place, together with the number `room` of its
characters that still belong to the class.
-/

namespace ApiScaffold.TypeScript

/-- What a member is. -/
inductive MemberKind where
  | method
  | property
  deriving DecidableEq, Repr

/-- The word for a kind of member. -/
def MemberKind.name : MemberKind → String
  | method => "method"
  | property => "property"

/-- A member of a class: its name, kind and extent. -/
structure Member where
  name : String
  kind : MemberKind
  start : Nat
  stop : Nat
  deriving DecidableEq, Repr

/-- The body of a class: the places of its braces, and its members. -/
structure ClassBody where
  name : String
  opening : Nat
  closing : Nat
  members : List Member
  deriving DecidableEq, Repr

/-- The methods of a class. -/
def ClassBody.methods (b : ClassBody) : List Member := b.members.filter fun m => m.kind == .method

/-- Whether a word ends between two characters, either of which may be missing. -/
def isWordBoundary (before after : Option Char) : Bool :=
  before.any Text.isWordChar != after.any Text.isWordChar

/-- The length of a name between a place after the given number of blanks and a word boundary. -/
def nameAfter? (name cs : List Char) (blanks : Nat) : Option Nat :=
  match Text.dropLeading? name (cs.drop blanks) with
  | none => none
  | some rest =>
    let size := blanks + name.length
    if isWordBoundary ((cs.take size).getLast?) rest.head? then some size else none

/-- The first answer of a search over `n`, `n - 1`, … `1`. -/
def searchDown {α : Type} (f : Nat → Option α) : Nat → Option α
  | 0 => none
  | n + 1 =>
    match f (n + 1) with
    | some a => some a
    | none => searchDown f n

/-- The length of the declaration of a class at the front of a masked text, from its keyword to the
end of its name. Of the blanks in between as many as possible are passed over. -/
def declarationHere? (name : List Char) (before : Option Char) (cs : List Char) : Option Nat :=
  match Text.dropLeading? "class".toList cs with
  | none => none
  | some rest =>
    if before.any Text.isWordChar then none
    else
      (searchDown (nameAfter? name rest) (rest.takeWhile Text.isBlank).length).map (· + 5)

/-- The end of the first declaration of a class in a masked text; `before` is the character in front
of the text. -/
def declarationEnd? (name : List Char) (before : Option Char) : List Char → Option Nat
  | [] => none
  | c :: cs =>
    match declarationHere? name before (c :: cs) with
    | some n => some n
    | none => (declarationEnd? name (some c) cs).map (· + 1)

/-- Whether a masked text declares a class. -/
def declaresClass (name : String) (masked : List Char) : Bool :=
  (declarationEnd? name.toList none masked).isSome

/-- The characters after which a property without a semicolon goes on in the next line. -/
def continuationChars : List Char := "=,:|&(+-*/?.<".toList

/-- The header without a pair of angle brackets, holding none, at its end. -/
def dropGeneric (header : List Char) : List Char :=
  let trimmed := (Text.trimRight header).reverse
  match trimmed with
  | '>' :: rest =>
    match rest.dropWhile fun c => c != '<' && c != '>' with
    | '<' :: before => before.reverse
    | _ => header
  | _ => header

/-- The header without one question or exclamation mark at its end. -/
def dropMarker (header : List Char) : List Char :=
  match (Text.trimRight header).reverse with
  | '?' :: rest => rest.reverse
  | '!' :: rest => rest.reverse
  | _ => header

/-- The name that a header ends in; empty if it ends in none. -/
def nameOf (header : List Char) : String :=
  String.ofList (trailingIdentifier (dropMarker (dropGeneric header)))

/-- The part of a property before its type, value or end. -/
def propertyHeader (header : List Char) : List Char :=
  header.takeWhile fun c => !(c == ':' || c == '=' || c == ';' || c == '\n')

/-- What the outline of a member shows: its name, its kind, and its length. -/
structure Outline where
  name : String
  kind : MemberKind
  length : Nat
  deriving DecidableEq, Repr

/-- A property whose text is given, of the given length. -/
def propertyOutline (text : List Char) (length : Nat) : Outline :=
  ⟨nameOf (propertyHeader text), .property, length⟩

/-- The length of what follows the parameters of a method: up to the end of its body, a semicolon,
or the end of the class. `skip` counts the characters of a bracket that are still to be passed
over. -/
def methodTail : (skip room : Nat) → List Char → Nat
  | _, 0, _ => 0
  | _, _, [] => 0
  | skip + 1, room + 1, _ :: cs => methodTail skip room cs + 1
  | 0, room + 1, c :: cs =>
    if c = '{' then
      match closingOffset? (c :: cs) with
      | some n => min (n + 1) (room + 1)
      | none => room + 1
    else if c = ';' then 1
    else if c = '(' ∨ c = '[' then
      match closingOffset? (c :: cs) with
      | some n => methodTail n room cs + 1
      | none => room + 1
    else methodTail 0 room cs + 1

/-- Whether the line before a place can be the end of a property. -/
def endsProperty (header : List Char) : Bool :=
  match (Text.trimRight header).getLast? with
  | none => false
  | some c => !continuationChars.contains c

/-- The outline of the member whose header begins at the front of a masked text. `taken` holds the
characters of the member so far, the last first; `skip` counts those of a bracket that are still to
be passed over. -/
def outlineFrom (taken : List Char) : (skip room : Nat) → List Char → Outline
  | _, 0, _ => propertyOutline taken.reverse taken.length
  | _, _, [] => propertyOutline taken.reverse taken.length
  | skip + 1, room + 1, c :: cs => outlineFrom (c :: taken) skip room cs
  | 0, room + 1, c :: cs =>
    if c = '(' then
      match closingOffset? (c :: cs) with
      | none => ⟨nameOf taken.reverse, .property, taken.length + room + 1⟩
      | some n =>
        if taken.contains '=' then outlineFrom (c :: taken) n room cs
        else
          ⟨nameOf taken.reverse, .method, taken.length + (methodTail n room cs + 1)⟩
    else if c = '{' ∨ c = '[' then
      match closingOffset? (c :: cs) with
      | none => outlineFrom (c :: taken) room room cs
      | some n => outlineFrom (c :: taken) n room cs
    else if c = ';' then propertyOutline taken.reverse (taken.length + 1)
    else if c = '\n' ∧ endsProperty taken.reverse then
      propertyOutline (Text.trimRight taken.reverse) taken.length
    else if c = '}' then propertyOutline taken.reverse taken.length
    else outlineFrom (c :: taken) 0 room cs

/-- The number of leading characters of a class's text that satisfy `p`. -/
def leading (p : Char → Bool) (room : Nat) (cs : List Char) : Nat :=
  ((cs.take room).takeWhile p).length

/-- The characters of the name of a decorator. -/
def isDecoratorChar (c : Char) : Bool := Text.isIdentifierChar c || c == '.'

/-- The length of the decorators at the front of a masked text, with the blanks after each. At most
`steps` of them are passed over. -/
def decoratorsLength : (steps room : Nat) → List Char → Nat
  | 0, _, _ => 0
  | steps + 1, room, cs =>
    match room, cs with
    | room + 1, '@' :: rest =>
      let word := leading isDecoratorChar room rest
      let gap := leading Text.isBlank (room - word) (rest.drop word)
      let head := word + gap
      let after := rest.drop head
      if head < room ∧ after.head? = some '(' then
        match closingOffset? after with
        | none => room + 1
        | some n =>
          let used := head + n + 1
          if room ≤ used then room + 1
          else
            let blanks := leading Text.isBlank (room - used) (rest.drop used)
            let all := used + blanks
            1 + all + decoratorsLength steps (room - all) (rest.drop all)
      else 1 + head + decoratorsLength steps (room - head) after
    | _, _ => 0

/-- The members in the rest of a class, which begins at the offset `pos`. At most `steps` places are
looked at, one for each character that is left. -/
def membersFrom : (steps : Nat) → (pos room : Nat) → List Char → List Member
  | 0, _, _, _ => []
  | steps + 1, pos, room, cs =>
    let gap := leading Text.isBlank room cs
    if room ≤ gap then []
    else
      let here := cs.drop gap
      if here.head? = some ';' then
        membersFrom steps (pos + gap + 1) (room - (gap + 1)) (here.drop 1)
      else
        let decorators := decoratorsLength steps (room - gap) here
        let o := outlineFrom [] 0 (room - gap - decorators) (here.drop decorators)
        let size := gap + decorators + o.length
        let passed := max size (gap + decorators + 1)
        ⟨o.name, o.kind, pos, pos + size⟩ ::
          membersFrom steps (pos + passed) (room - passed) (cs.drop passed)

/-- The offset of the first opening brace of a text. -/
def openingOffset? (cs : List Char) : Option Nat := cs.findIdx? (· == '{')

/-- The body of a class in a masked text. -/
def findBody? (name : String) (masked : List Char) : Option ClassBody := do
  let declared ← declarationEnd? name.toList none masked
  let gap ← openingOffset? (masked.drop declared)
  let opening := declared + gap
  let size ← closingOffset? (masked.drop opening)
  let inside := size - 1
  return {
    name := name
    opening := opening
    closing := opening + size
    members := membersFrom (inside + 1) (opening + 1) inside (masked.drop (opening + 1)) }

/-- The body of a class in a source text. -/
def findClass? (source : List Char) (name : String) : Option ClassBody :=
  findBody? name (mask source)

end ApiScaffold.TypeScript
