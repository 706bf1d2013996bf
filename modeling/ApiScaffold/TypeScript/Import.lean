import ApiScaffold.TypeScript.ClassBody

/-!
# Import declarations

* `TypeScript.importedNames` lists the names that the import clauses of a source text bind;
* `TypeScript.importInsertionPoint` is the place after the last import declaration outside all
  braces.

Both look for the keyword at the beginnings of lines of the masked text, blanks apart.
-/

namespace ApiScaffold.TypeScript

/-- What follows the keyword `import` at the front of a text, blanks apart. -/
def afterImport? (cs : List Char) : Option (List Char) :=
  Text.dropLeading? "import".toList (cs.dropWhile Text.isBlank)

/-- What follows the blanks at the front of a text, of which there is at least one. -/
def afterBlanks? : List Char → Option (List Char)
  | [] => none
  | c :: cs => if Text.isBlank c then some (cs.dropWhile Text.isBlank) else none

/-- What follows the keyword `type` and its blanks, or the text itself. -/
def skipTypeWord (cs : List Char) : List Char :=
  ((Text.dropLeading? "type".toList cs).bind afterBlanks?).getD cs

/-- The names between braces of an import clause at the front of a text, and what follows its
closing brace. -/
def clauseHere? (cs : List Char) : Option (List Char × List Char) := do
  let rest ← afterImport? cs
  let rest ← afterBlanks? rest
  match skipTypeWord rest with
  | '{' :: inner =>
    match inner.dropWhile (· != '}') with
    | _ :: after => some (inner.takeWhile (· != '}'), after)
    | [] => none
  | _ => none

/-- The contents of the import clauses of a masked text. `fresh` says that a line begins here;
`skip` counts the characters of a clause that are still to be passed over. -/
def clausesFrom : (fresh : Bool) → (skip : Nat) → List Char → List (List Char)
  | _, _, [] => []
  | _, skip + 1, c :: cs => clausesFrom (c == '\n') skip cs
  | fresh, 0, c :: cs =>
    match (if fresh then clauseHere? (c :: cs) else none) with
    | some (names, after) =>
      names :: clausesFrom (c == '\n') (cs.length - after.length) cs
    | none => clausesFrom (c == '\n') 0 cs

/-- The part of a text after the last occurrence of `sep`, occurrences being found from left to
right. `skip` counts the characters of an occurrence that are still to be passed over, `part` holds
the part so far, the last character first. -/
def lastPart (sep : List Char) (part : List Char) : (skip : Nat) → List Char → List Char
  | _, [] => part.reverse
  | skip + 1, _ :: cs => lastPart sep [] skip cs
  | 0, c :: cs =>
    if (Text.dropLeading? sep (c :: cs)).isSome then lastPart sep [] (sep.length - 1) cs
    else lastPart sep (c :: part) 0 cs

/-- The item of an import clause without the keyword `type` in front of it. -/
def untyped (item : List Char) : List Char :=
  ((Text.dropLeading? "type".toList (item.dropWhile Text.isBlank)).bind afterBlanks?).getD item

/-- The name that an item of an import clause binds; none for an empty item. -/
def boundName? (item : List Char) : Option String :=
  let text := Text.trim (untyped item)
  if text.isEmpty then none
  else some (String.ofList (Text.trim (lastPart " as ".toList [] 0 text)))

/-- The names that a clause binds. -/
def clauseNames (clause : List Char) : List String :=
  (Text.splitOn ',' clause).filterMap boundName?

/-- The names that the import clauses of a source text bind, in the order of the text. -/
def importedNames (source : List Char) : List String :=
  (clausesFrom true 0 (mask source)).flatMap clauseNames

/-- Whether a space or a tab. -/
def isLineBlank (c : Char) : Bool := c == ' ' || c == '\t'

/-- Whether nothing but spaces and tabs comes before the end of the line; if so, how many. -/
def lineEnd? (cs : List Char) : Option Nat :=
  match cs.dropWhile isLineBlank with
  | [] => some (cs.takeWhile isLineBlank).length
  | '\n' :: _ => some (cs.takeWhile isLineBlank).length
  | _ => none

/-- The offset of the last line break of a text. -/
def lastLineBreak? (cs : List Char) : Option Nat :=
  let after := (Text.takeSuffixWhile (· != '\n') cs).length
  if after < cs.length then some (cs.length - after - 1) else none

/-- The length of what follows the keyword of an import declaration: up to the first semicolon if
its line ends there, otherwise up to the last line break before the semicolon; without a semicolon
up to the end of the text. -/
def declarationTail? (cs : List Char) : Option Nat :=
  let before := cs.takeWhile (· != ';')
  match cs.dropWhile (· != ';') with
  | [] => some before.length
  | _ :: after =>
    match lineEnd? after with
    | some n => some (before.length + 1 + n)
    | none => lastLineBreak? before

/-- The length of the import declaration at the front of a text, the blanks before it included. -/
def declarationLength? (cs : List Char) : Option Nat := do
  let rest ← afterImport? cs
  if rest.head?.any Text.isWordChar then none
  else
    let tail ← declarationTail? rest
    return cs.length - rest.length + tail

/-- The end of the last import declaration outside all braces of a masked text that begins at the
offset `pos`, or `found` if there is none. `depth` is the number of opening braces so far less that
of closing ones; `fresh` says that a line begins here; `skip` counts the characters of a declaration
that are still to be passed over. -/
def lastDeclarationEnd (found : Nat) :
    (pos : Nat) → (depth : Int) → (fresh : Bool) → (skip : Nat) → List Char → Nat
  | _, _, _, _, [] => found
  | pos, depth, fresh, skip, c :: cs =>
    let depthAfter := if c = '{' then depth + 1 else if c = '}' then depth - 1 else depth
    match skip with
    | skip + 1 => lastDeclarationEnd found (pos + 1) depthAfter (c == '\n') skip cs
    | 0 =>
      match (if fresh then declarationLength? (c :: cs) else none) with
      | some n =>
        lastDeclarationEnd (if depth = 0 then pos + n else found) (pos + 1) depthAfter (c == '\n')
          (n - 1) cs
      | none => lastDeclarationEnd found (pos + 1) depthAfter (c == '\n') 0 cs

/-- The place after the last import declaration outside all braces, or the beginning of the text. -/
def importInsertionPoint (source : List Char) : Nat :=
  lastDeclarationEnd 0 0 0 true 0 (mask source)

/-- The problems of a source text that should declare the given class, if one is given: endless
literals, unbalanced brackets, and then the missing class. -/
def sourceProblems (source : List Char) (className : Option String) : List SourceProblem :=
  balanceProblems source ++
    match className with
    | none => []
    | some name =>
      if name = "" ∨ declaresClass name (mask source) then [] else [.undeclaredClass name]

end ApiScaffold.TypeScript
