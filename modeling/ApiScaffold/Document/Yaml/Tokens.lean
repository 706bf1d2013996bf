import ApiScaffold.Document.Yaml.Lexeme

/-!
# A YAML text as tokens

`Yaml.tokens` reads a text into its tokens.

Outside flow collections the column of a token tells the block it belongs to: a larger column than
that of the block around it begins a block, a smaller one ends blocks.  A key without a question
mark is known as a key only at its colon.  So the places where such a key may have begun are
remembered, one for each level of flow collections, and the colon inserts the key token there.  A
key of this kind stays on one line and within 1024 characters.

As long as a token may turn out to be a key, nobody can use it before what follows it is read.  So a
text that cannot be read further fails at the first token that may still be a key.
-/

namespace ApiScaffold.Yaml

/-- A place where a key may have begun. -/
structure KeyStart where
  /-- The number of tokens in front of the key. -/
  position : Nat
  /-- Whether nothing but a key can stand there. -/
  required : Bool
  /-- The number of characters behind the place. -/
  left : Nat
  line : Nat
  column : Nat
  deriving Repr

/-- The state of reading tokens. -/
structure Lexer where
  cursor : Cursor
  /-- The tokens so far, the last first. -/
  tokens : List Token
  /-- The number of tokens so far. -/
  count : Nat
  /-- The column of the innermost block, and those around it. -/
  indent : Int
  outer : List Int
  /-- The number of flow collections that are open. -/
  flow : Nat
  /-- Whether a key may begin here. -/
  keyAllowed : Bool
  /-- The places where keys may have begun, by flow level. -/
  keys : List (Nat × KeyStart)
  deriving Repr

namespace Lexer

/-- The state at the beginning of a text. -/
def start (cs : List Char) : Lexer :=
  let k := Cursor.start cs
  ⟨if k.peek = some '\uFEFF' then k.next else k, [], 0, -1, [], 0, true, []⟩

/-- The longest distance between the beginning of a key and its colon. -/
def keyReach : Nat := 1024

/-- Adds a token. -/
def add (s : Lexer) (t : Token) : Lexer := { s with tokens := t :: s.tokens, count := s.count + 1 }

/-- Inserts a token after the first `position` ones. -/
def insertAt (s : Lexer) (position : Nat) (t : Token) : Lexer :=
  let behind := s.count - position
  { s with
    tokens := s.tokens.take behind ++ t :: s.tokens.drop behind
    count := s.count + 1 }

/-- Moves to a place. -/
def moveTo (s : Lexer) (k : Cursor) : Lexer := { s with cursor := k }

/-- Whether a possible key can no longer be one. -/
def isStale (s : Lexer) (key : KeyStart) : Bool :=
  key.line != s.cursor.line || s.cursor.left + keyReach < key.left

/-- Forgets possible keys that can no longer be keys; a required one must not be among them. -/
def dropStale (s : Lexer) : Except Failure Lexer :=
  if s.keys.any fun p => s.isStale p.2 && p.2.required then malformed
  else .ok { s with keys := s.keys.filter fun p => !s.isStale p.2 }

/-- Forgets the possible key of the current flow level, which must not be required. -/
def dropKey (s : Lexer) : Except Failure Lexer :=
  if (s.keys.lookup s.flow).any (·.required) then malformed
  else .ok { s with keys := s.keys.filter fun p => p.1 != s.flow }

/-- Remembers that a key may begin here, if that is so. -/
def saveKey (s : Lexer) : Except Failure Lexer :=
  if !s.keyAllowed then .ok s
  else
    match s.dropKey with
    | .error e => .error e
    | .ok s =>
      let key : KeyStart :=
        { position := s.count
          required := s.flow == 0 && s.indent == (s.cursor.column : Int)
          left := s.cursor.left
          line := s.cursor.line
          column := s.cursor.column }
      .ok { s with keys := (s.flow, key) :: s.keys }

/-- Ends the blocks of a larger column. The list holds the columns of the blocks around the
innermost. -/
def unwindFrom (column : Int) : (outer : List Int) → Lexer → Lexer
  | [], s => s
  | c :: cs, s =>
    if column < s.indent then
      unwindFrom column cs { s.add .blockEnd with indent := c, outer := cs }
    else s

/-- Ends the blocks of a larger column; inside flow collections columns do not matter. -/
def unwind (s : Lexer) (column : Int) : Lexer :=
  if s.flow ≠ 0 then s else unwindFrom column s.outer s

/-- Begins a block at a larger column, with the given token after the first `position` ones. -/
def beginBlock (s : Lexer) (column position : Nat) (t : Token) : Lexer :=
  if s.indent < column then
    { s.insertAt position t with indent := column, outer := s.indent :: s.outer }
  else s

/-- Passes over spaces, comments and line breaks; outside flow collections a key may begin after a
line break. The first argument bounds the number of lines. -/
def toNextToken : (steps : Nat) → Lexer → Lexer
  | 0, s => s
  | n + 1, s =>
    let k := s.cursor.skipSpaces.skipComment
    if k.lineBreak?.isSome then
      toNextToken n { s with cursor := k.next, keyAllowed := s.keyAllowed || s.flow == 0 }
    else s.moveTo k

/-- Ends all blocks and forgets the possible key. -/
def closeBlocks (s : Lexer) : Except Failure Lexer :=
  match (s.unwind (-1)).dropKey with
  | .error e => .error e
  | .ok s => .ok { s with keyAllowed := false }

/-- The beginning or end of a document. -/
def documentMark (s : Lexer) (t : Token) : Except Failure Lexer :=
  s.closeBlocks.map fun s => (s.moveTo (s.cursor.forward 3)).add t

/-- A directive in front of a document. -/
def directiveLine (s : Lexer) : Except Failure Lexer :=
  match s.closeBlocks with
  | .error e => .error e
  | .ok s => (directive s.cursor).map fun r => (s.moveTo r.2).add (.directive r.1)

/-- The beginning of a flow collection. -/
def openFlow (s : Lexer) (t : Token) : Except Failure Lexer :=
  s.saveKey.map fun s =>
    { (s.moveTo s.cursor.next).add t with flow := s.flow + 1, keyAllowed := true }

/-- The end of a flow collection. -/
def closeFlow (s : Lexer) (t : Token) : Except Failure Lexer :=
  if s.flow = 0 then malformed
  else
    s.dropKey.map fun s =>
      { (s.moveTo s.cursor.next).add t with flow := s.flow - 1, keyAllowed := false }

/-- A comma of a flow collection. -/
def flowComma (s : Lexer) : Except Failure Lexer :=
  s.dropKey.map fun s =>
    { (s.moveTo s.cursor.next).add .flowEntry with keyAllowed := true }

/-- A hyphen, a question mark or, without a key in front of it, a colon: it needs a place where a
key may begin, and begins a block of its kind if its column is larger. -/
def indicator (s : Lexer) (block t : Token) (keyAfter : Bool) : Except Failure Lexer :=
  if s.flow = 0 ∧ !s.keyAllowed then malformed
  else
    let s := if s.flow = 0 then s.beginBlock s.cursor.column s.count block else s
    s.dropKey.map fun s => { (s.moveTo s.cursor.next).add t with keyAllowed := keyAfter }

/-- The colon behind a key that began at a known place. -/
def colonAfterKey (s : Lexer) (key : KeyStart) : Lexer :=
  let s := { s with keys := s.keys.filter fun p => p.1 != s.flow }
  let s := s.insertAt key.position .key
  let s := if s.flow = 0 then s.beginBlock key.column key.position .blockMappingStart else s
  { (s.moveTo s.cursor.next).add .value with keyAllowed := false }

/-- A colon. -/
def colon (s : Lexer) : Except Failure Lexer :=
  match s.keys.lookup s.flow with
  | some key => .ok (s.colonAfterKey key)
  | none => s.indicator .blockMappingStart .value (s.flow == 0)

/-- A lexeme that may be a key. -/
def keyLexeme (s : Lexer) (read : Cursor → Lexed Token) : Except Failure Lexer :=
  match s.saveKey with
  | .error e => .error e
  | .ok s =>
    (read s.cursor).map fun r => { (s.moveTo r.2).add r.1 with keyAllowed := false }

/-- A block scalar. -/
def blockScalar (s : Lexer) (folded : Bool) : Except Failure Lexer :=
  match s.dropKey with
  | .error e => .error e
  | .ok s =>
    (block folded s.indent s.cursor).map fun r =>
      { (s.moveTo r.2).add (.scalar (String.ofList r.1) false) with keyAllowed := true }

/-- A plain scalar; a key may begin behind it if it ends behind a line break. -/
def plainScalar (s : Lexer) : Except Failure Lexer :=
  s.saveKey.map fun s =>
    let r := plain (s.flow != 0) (s.indent + 1) s.cursor
    { (s.moveTo r.2.2).add (.scalar (String.ofList r.1) true) with keyAllowed := r.2.1 }

/-- The characters that cannot begin a plain scalar, unless the next character allows it. -/
def isIndicator (c : Char) : Bool := "-?:,[]\x7b\x7d#&*!|>\x27\x22%@\x60".toList.contains c

/-- Whether a plain scalar begins with the given character. -/
def beginsPlain (s : Lexer) (c : Char) : Bool :=
  !(isGap c || isBreak c || isIndicator c) ||
    (!endsWord (s.cursor.peekAt 1) && (c == '-' || (s.flow == 0 && (c == '?' || c == ':'))))

/-- Whether the character here stands alone, which makes it an indicator of a block. -/
def standsAlone (s : Lexer) : Bool := endsWord (s.cursor.peekAt 1)

/-- The token that begins with the given character. -/
def token (s : Lexer) (c : Char) : Except Failure Lexer :=
  let first := s.cursor.column == 0
  if c = '%' ∧ first then s.directiveLine
  else if c = '-' ∧ first ∧ s.cursor.atSeparator then s.documentMark .documentStart
  else if c = '.' ∧ first ∧ s.cursor.atSeparator then s.documentMark .documentEnd
  else if c = '[' then s.openFlow .flowSequenceStart
  else if c = '{' then s.openFlow .flowMappingStart
  else if c = ']' then s.closeFlow .flowSequenceEnd
  else if c = '}' then s.closeFlow .flowMappingEnd
  else if c = ',' then s.flowComma
  else if c = '-' ∧ s.standsAlone then s.indicator .blockSequenceStart .blockEntry true
  else if c = '?' ∧ (s.flow ≠ 0 ∨ s.standsAlone) then
    s.indicator .blockMappingStart .key (s.flow == 0)
  else if c = ':' ∧ (s.flow ≠ 0 ∨ s.standsAlone) then s.colon
  else if c = '*' then s.keyLexeme fun k => (anchorName k).map fun r => (.alias r.1, r.2)
  else if c = '&' then s.keyLexeme fun k => (anchorName k).map fun r => (.anchor r.1, r.2)
  else if c = '!' then s.keyLexeme tagToken
  else if c = '|' ∧ s.flow = 0 then s.blockScalar false
  else if c = '>' ∧ s.flow = 0 then s.blockScalar true
  else if c = '\x27' ∨ c = '\x22' then
    s.keyLexeme fun k => (quoted k).map fun r => (.scalar (String.ofList r.1) false, r.2)
  else if s.beginsPlain c then s.plainScalar
  else malformed

/-- The number of tokens that can be used without reading further: those in front of the first one
that may be a key. -/
def settled (s : Lexer) : Nat :=
  (s.keys.filter fun p => !s.isStale p.2).foldl (fun n p => min n p.2.position) s.count

/-- The tokens that can be used if the text cannot be read further, and the reason at their end. -/
def fail (s : Lexer) (f : Failure) : List Token :=
  s.tokens.reverse.take s.settled ++ [.failure f]

/-- The state after the next token; at the end of the text there is none. -/
def step (s : Lexer) : Except Failure (Option Lexer) :=
  match (s.toNextToken (s.cursor.left + 1)).dropStale with
  | .error e => .error e
  | .ok s =>
    let s := s.unwind s.cursor.column
    match s.cursor.peek with
    | none => .ok none
    | some c => (s.token c).map some

/-- The tokens at the end of the text. -/
def finish (s : Lexer) : List Token :=
  match s.closeBlocks with
  | .error e => s.fail e
  | .ok s => s.tokens.reverse

/-- Reads tokens up to the end of the text. The first argument bounds their number. -/
def run : (steps : Nat) → Lexer → List Token
  | 0, s => s.tokens.reverse
  | n + 1, s =>
    match s.step with
    | .error e => s.fail e
    | .ok none => s.finish
    | .ok (some s) => run n s

end Lexer

/-- Whether a character may occur in a YAML text. -/
def isAllowed (c : Char) : Bool :=
  let n := c.toNat
  n == 9 || n == 10 || n == 13 || (32 ≤ n && n ≤ 126) || n == 0x85 || (0xA0 ≤ n && n ≤ 0xD7FF) ||
    (0xE000 ≤ n && n ≤ 0xFFFD) || 0x10000 ≤ n

/-- The tokens of a text. -/
def tokens (cs : List Char) : List Token :=
  if cs.all isAllowed then Lexer.run (cs.length + 1) (Lexer.start cs) else [.failure .malformed]

end ApiScaffold.Yaml
