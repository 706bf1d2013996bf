import ApiScaffold.Document.Yaml.Cursor
import ApiScaffold.Document.Yaml.Token
import ApiScaffold.Text.Digits
import ApiScaffold.Text.Unit

/-!
# Lexemes of YAML

How the single lexemes of a YAML text are read: quoted, plain and block scalars, anchors, tags and
directives.  Each reader starts at the first character of its lexeme and answers with what it read
and the place behind it.
-/

namespace ApiScaffold.Yaml

/-- A reader of a lexeme. -/
abbrev Lexed (α : Type) := Except Failure (α × Cursor)

/-- Refuses the text. -/
def malformed {α : Type} : Except Failure α := .error .malformed

/-- The failure of a text that does not denote a value of its kind. -/
def badText {α : Type} : Except Failure α := .error (.misuse .badText)

/-- The text without a line feed at its end. -/
def withoutLastBreak (cs : List Char) : List Char :=
  if cs.getLast? = some '\n' then cs.dropLast else cs

/-- The characters of anchors and tag handles. -/
def isWordChar (c : Char) : Bool := c.isAlphanum || c == '-' || c == '_'

/-! ## Quoted scalars -/

/-- The line breaks behind a line break in a quoted scalar, with the blanks around them passed over.
The first argument bounds the number of lines. -/
def quotedBreaks : (steps : Nat) → Cursor → Lexed (List Char)
  | 0, _ => malformed
  | n + 1, k =>
    if k.atSeparator then malformed
    else
      let k := k.skip isGap
      match k.lineBreak? with
      | none => .ok ([], k)
      | some b => (quotedBreaks n k.next).map fun r => (b :: r.1, r.2)

/-- A single line break reads as a space, several as all but the first. -/
def foldBreaks (first : Char) (more : List Char) : List Char :=
  if first ≠ '\n' then first :: more
  else if more.isEmpty then [' '] else more

/-- The character of an escape of one letter. -/
def escapeChar? (c : Char) : Option Char :=
  match c with
  | '0' => some '\x00'
  | 'a' => some '\x07'
  | 'b' => some '\x08'
  | 't' => some '\t'
  | '\t' => some '\t'
  | 'n' => some '\n'
  | 'v' => some '\x0b'
  | 'f' => some '\x0c'
  | 'r' => some '\r'
  | 'e' => some '\x1b'
  | ' ' => some ' '
  | '\x22' => some '\x22'
  | '\\' => some '\\'
  | '/' => some '/'
  | 'N' => some '\x85'
  | '_' => some '\xa0'
  | 'L' => some '\u2028'
  | 'P' => some '\u2029'
  | _ => none

/-- The number of digits of an escape by code. -/
def escapeWidth? (c : Char) : Option Nat :=
  if c = 'x' then some 2 else if c = 'u' then some 4 else if c = 'U' then some 8 else none

/-- The number that hexadecimal digits denote, if all are digits. -/
def hexNumber? (ds : List Char) : Option Nat :=
  ds.foldl (fun n c => n.bind fun n => (Text.hexValue? c).map (n * 16 + ·)) (some 0)

/-- The character of a code. A code beyond the last character has none, and one of more than 31 bits
is no code. -/
def charOfCode (n : Nat) : Except Failure Char :=
  if n < 0x110000 then .ok (Text.unitChar n)
  else .error (.misuse (if n < Nat.pow 2 31 then .badText else .tooLarge))

/-- What a backslash in a double-quoted scalar stands for; the cursor is behind the backslash. -/
def escapeSequence (k : Cursor) : Lexed (List Char) :=
  match k.peek with
  | none => malformed
  | some c =>
    match escapeChar? c with
    | some e => .ok ([e], k.next)
    | none =>
      match escapeWidth? c with
      | some width =>
        let digits := k.next.rest.take width
        if digits.length < width then malformed
        else
          match hexNumber? digits with
          | none => malformed
          | some n => (charOfCode n).map fun e => ([e], k.forward (width + 1))
      | none =>
        if isBreak c then quotedBreaks (k.left + 1) k.next else malformed

/-- The rest of a quoted scalar. The first argument bounds the number of its parts. -/
def quotedRest (mark : Char) : (steps : Nat) → Cursor → Lexed (List Char)
  | 0, _ => malformed
  | n + 1, k =>
    match k.peek with
    | none => malformed
    | some c =>
      if c = mark then
        if mark = '\x27' ∧ k.peekAt 1 = some '\x27' then
          (quotedRest mark n (k.forward 2)).map fun r => ('\x27' :: r.1, r.2)
        else .ok ([], k.next)
      else if c = '\\' ∧ mark = '\x22' then
        match escapeSequence k.next with
        | .error e => .error e
        | .ok (cs, k) => (quotedRest mark n k).map fun r => (cs ++ r.1, r.2)
      else if isGap c ∨ isBreak c then
        let gap := k.run isGap
        let k := k.skip isGap
        match k.lineBreak? with
        | none => (quotedRest mark n k).map fun r => (gap ++ r.1, r.2)
        | some b =>
          match quotedBreaks (k.left + 1) k.next with
          | .error e => .error e
          | .ok (more, k) => (quotedRest mark n k).map fun r => (foldBreaks b more ++ r.1, r.2)
      else (quotedRest mark n k.next).map fun r => (c :: r.1, r.2)

/-- A quoted scalar. -/
def quoted (k : Cursor) : Lexed (List Char) :=
  match k.peek with
  | none => malformed
  | some mark => quotedRest mark (k.left + 1) k.next

/-! ## Plain scalars -/

/-- The characters that end a plain scalar inside a flow collection. -/
def isFlowStop (c : Char) : Bool := ",?[]\x7b\x7d".toList.contains c

/-- Whether a colon in front of the given character ends a plain scalar. -/
def colonEnds (flow : Bool) (c : Option Char) : Bool :=
  endsWord c || (flow && c.any fun c => ",[]\x7b\x7d".toList.contains c)

/-- The number of characters of a plain scalar up to a blank or its end. -/
def plainLength (flow : Bool) : List Char → Nat
  | [] => 0
  | c :: cs =>
    let ends :=
      isGap c || isBreak c || (c == ':' && colonEnds flow cs.head?) || (flow && isFlowStop c)
    if ends then 0 else plainLength flow cs + 1

/-- What separates two parts of a plain scalar. -/
inductive Gap where
  /-- Nothing, or a line that separates documents: the scalar ends. -/
  | stop
  | text (cs : List Char)

/-- The line breaks behind a line break in a plain scalar; `none` if a line that separates documents
follows. The first argument bounds the number of lines. -/
def plainBreaks : (steps : Nat) → Cursor → Option (List Char) × Cursor
  | 0, k => (none, k)
  | n + 1, k =>
    let k := k.skipSpaces
    match k.lineBreak? with
    | none => (some [], k)
    | some b =>
      let k := k.next
      if k.atSeparator then (none, k)
      else
        let r := plainBreaks n k
        (r.1.map (b :: ·), r.2)

/-- What separates the parts of a plain scalar at a place, whether a line break is in it, and the
place behind it. -/
def plainGap (k : Cursor) : Gap × Bool × Cursor :=
  let spaces := k.run (· == ' ')
  let k := k.skipSpaces
  match k.lineBreak? with
  | none => (if spaces.isEmpty then .stop else .text spaces, false, k)
  | some b =>
    let k := k.next
    if k.atSeparator then (.stop, true, k)
    else
      let r := plainBreaks (k.left + 1) k
      (match r.1 with | none => .stop | some more => .text (foldBreaks b more), true, r.2)

/-- The rest of a plain scalar after the text `gap`: its text, whether it ends behind a line break,
and the place behind it. `indent` is the least column of its further lines outside flow collections.
The second argument bounds the number of its parts. -/
def plainRest (flow : Bool) (indent : Int) :
    (steps : Nat) → (gap : List Char) → (broken : Bool) → Cursor → List Char × Bool × Cursor
  | 0, _, broken, k => ([], broken, k)
  | n + 1, gap, broken, k =>
    if k.peek = some '#' then ([], broken, k)
    else
      let size := plainLength flow k.rest
      if size = 0 then ([], broken, k)
      else
        let part := gap ++ k.rest.take size
        let g := plainGap (k.forward size)
        let k := g.2.2
        match g.1 with
        | .stop => (part, g.2.1, k)
        | .text text =>
          if !flow && (k.column : Int) < indent then (part, g.2.1, k)
          else
            let r := plainRest flow indent n text g.2.1 k
            (part ++ r.1, r.2.1, r.2.2)

/-- A plain scalar. -/
def plain (flow : Bool) (indent : Int) (k : Cursor) : List Char × Bool × Cursor :=
  plainRest flow indent (k.left + 1) [] false k

/-! ## Block scalars -/

/-- What happens to the line breaks at the end of a block scalar. -/
inductive Chomping where
  | strip
  | clip
  | keep
  deriving DecidableEq, Repr

/-- The sign that says what happens to the line breaks at the end. -/
def chomping? : Option Char → Option Chomping
  | some '+' => some .keep
  | some '-' => some .strip
  | _ => none

/-- A digit that says how far a block is indented. -/
def increment? (c : Option Char) : Option Nat :=
  c.bind fun c => if c.isDigit then some (c.toNat - 48) else none

/-- The signs behind the indicator of a block scalar, in either order. -/
def blockSigns (k : Cursor) : Chomping × Option Nat × Cursor :=
  match chomping? k.peek with
  | some ch =>
    match increment? k.next.peek with
    | some n => (ch, some n, k.next.next)
    | none => (ch, none, k.next)
  | none =>
    match increment? k.peek with
    | none => (.clip, none, k)
    | some n =>
      match chomping? k.next.peek with
      | some ch => (ch, some n, k.next.next)
      | none => (.clip, some n, k.next)

/-- The rest of a line that holds nothing but a comment. -/
def emptyRest (k : Cursor) : Except Failure Cursor :=
  let k := k.skipSpaces.skipComment
  match k.peek with
  | none => .ok k
  | some c => if isBreak c then .ok k.next else malformed

/-- The line breaks at the beginning of a block scalar, the largest column of a space among them,
and the place behind them. The first argument bounds the number of characters. -/
def blockIndentation : (steps : Nat) → (widest : Nat) → Cursor → List Char × Nat × Cursor
  | 0, widest, k => ([], widest, k)
  | n + 1, widest, k =>
    match k.lineBreak? with
    | some b =>
      let r := blockIndentation n widest k.next
      (b :: r.1, r.2)
    | none =>
      if k.peek = some ' ' then blockIndentation n (max widest k.next.column) k.next
      else ([], widest, k)

/-- The line breaks behind a line of a block scalar, with the indentation passed over. -/
def blockBreaks (indent : Nat) : (steps : Nat) → Cursor → List Char × Cursor
  | 0, k => ([], k)
  | n + 1, k =>
    let k := k.indentTo indent
    match k.lineBreak? with
    | none => ([], k)
    | some b =>
      let r := blockBreaks indent n k.next
      (b :: r.1, r.2)

/-- A line break as text; empty at the end of the text. -/
def breakText : Option Char → List Char
  | none => []
  | some b => [b]

/-- The lines of a block scalar from a place on, after the given line breaks: the text without its
tail, the last line break, the line breaks behind it, and the place behind all. -/
def blockLines (folded : Bool) (indent : Nat) :
    (steps : Nat) → (breaks : List Char) → Cursor → List Char × List Char × List Char × Cursor
  | 0, breaks, k => ([], [], breaks, k)
  | n + 1, breaks, k =>
    if k.column ≠ indent ∨ k.peek = none then ([], [], breaks, k)
    else
      let flush := !(k.peek.any isGap)
      let line := k.run fun c => !isBreak c
      let k := k.skip fun c => !isBreak c
      let ending := k.lineBreak?
      let k := if ending.isSome then k.next else k
      let b := blockBreaks indent (k.left + 1) k
      let k := b.2
      if k.column = indent ∧ k.peek ≠ none then
        let joint :=
          if folded && ending == some '\n' && flush && !(k.peek.any isGap) then
            (if b.1.isEmpty then [' '] else [])
          else breakText ending
        let r := blockLines folded indent n b.1 k
        (breaks ++ line ++ joint ++ r.1, r.2)
      else (breaks ++ line, breakText ending, b.1, k)

/-- A block scalar; `outer` is the column of the block around it. -/
def block (folded : Bool) (outer : Int) (k : Cursor) : Lexed (List Char) :=
  let signs := blockSigns k.next
  let k := signs.2.2
  if signs.2.1 = some 0 || !endsSpaced k.peek then malformed
  else
    match emptyRest k with
    | .error e => .error e
    | .ok k =>
      let least := (max (outer + 1) 1).toNat
      let steps := k.left + 1
      let start : Nat × List Char × Cursor :=
        match signs.2.1 with
        | none =>
          let r := blockIndentation steps 0 k
          (max least r.2.1, r.1, r.2.2)
        | some n =>
          let indent := least + n - 1
          let r := blockBreaks indent steps k
          (indent, r.1, r.2)
      let r := blockLines folded start.1 steps start.2.1 start.2.2
      let tail :=
        match signs.1 with
        | .strip => []
        | .clip => r.2.1
        | .keep => r.2.1 ++ r.2.2.1
      .ok (r.1 ++ tail, r.2.2.2)

/-! ## Anchors, tags and directives -/

/-- Whether an anchor can end in front of the given character. -/
def endsAnchor (c : Option Char) : Bool :=
  endsWord c || c.any fun c => "?:,]\x7d%@\x60".toList.contains c

/-- The name behind the sign of an anchor or alias. -/
def anchorName (k : Cursor) : Lexed String :=
  let name := k.next.run isWordChar
  let k := k.next.skip isWordChar
  if name.isEmpty || !endsAnchor k.peek then malformed else .ok (String.ofList name, k)

/-- The characters of tags; a percent sign begins the code of a byte. -/
def isTagChar (c : Char) : Bool :=
  c.isAlphanum || "-;/?:@&=+$,_.!~*\x27()[]".toList.contains c

/-- Bytes written as percent signs with two digits each. -/
def percentBytes : (steps : Nat) → Cursor → Lexed (List UInt8)
  | 0, k => .ok ([], k)
  | n + 1, k =>
    if k.peek ≠ some '%' then .ok ([], k)
    else
      let digits := k.next.rest.take 2
      if digits.length < 2 then malformed
      else
        match hexNumber? digits with
        | none => malformed
        | some b => (percentBytes n (k.forward 3)).map fun r => (UInt8.ofNat b :: r.1, r.2)

/-- The text of a tag. -/
def tagText : (steps : Nat) → Cursor → Lexed (List Char)
  | 0, k => .ok ([], k)
  | n + 1, k =>
    match k.peek with
    | none => .ok ([], k)
    | some c =>
      if isTagChar c then (tagText n k.next).map fun r => (c :: r.1, r.2)
      else if c = '%' then
        match percentBytes (k.left + 1) k with
        | .error e => .error e
        | .ok (bs, k) =>
          match String.fromUTF8? (ByteArray.mk bs.toArray) with
          | none => malformed
          | some s => (tagText n k).map fun r => (s.toList ++ r.1, r.2)
      else .ok ([], k)

/-- The text of a tag, which must not be empty. -/
def someTagText (k : Cursor) : Lexed String :=
  match tagText (k.left + 1) k with
  | .error e => .error e
  | .ok (cs, k') =>
    if k'.left = k.left then malformed else .ok (String.ofList cs, k')

/-- A tag handle: an exclamation mark, or a word between two. -/
def tagHandle (k : Cursor) : Lexed String :=
  if k.peek ≠ some '!' then malformed
  else if k.peekAt 1 = some ' ' then .ok ("!", k.next)
  else
    let word := k.next.run isWordChar
    let behind := k.next.skip isWordChar
    if behind.peek = some '!' then
      .ok (String.ofList ('!' :: word ++ ['!']), behind.next)
    else malformed

/-- A tag: its handle, if it has one, and its text. -/
def tagParts (k : Cursor) : Lexed (Option String × String) :=
  if k.peekAt 1 = some '<' then
    match someTagText (k.forward 2) with
    | .error e => .error e
    | .ok (s, k) => if k.peek = some '>' then .ok ((none, s), k.next) else malformed
  else if endsWord (k.peekAt 1) then .ok ((none, "!"), k.next)
  else
    let word := k.next.rest.takeWhile fun c => !(c == ' ' || isBreak c)
    if word.contains '!' then
      match tagHandle k with
      | .error e => .error e
      | .ok (handle, k) => (someTagText k).map fun r => ((some handle, r.1), r.2)
    else (someTagText k.next).map fun r => ((some "!", r.1), r.2)

/-- A tag as a token. -/
def tagToken (k : Cursor) : Lexed Token :=
  match tagParts k with
  | .error e => .error e
  | .ok (parts, k) => if endsSpaced k.peek then .ok (.tag parts.1 parts.2, k) else malformed

/-- The number that decimal digits denote. -/
def decimal (k : Cursor) : Lexed Nat :=
  let digits := k.run Char.isDigit
  if digits.isEmpty then malformed
  else if Text.maxIntegerDigits < digits.length then badText
  else .ok (Text.natOfDigits digits, k.skip Char.isDigit)

/-- The value of a version directive: the number in front of the point. -/
def versionValue (k : Cursor) : Lexed Nat :=
  match decimal k.skipSpaces with
  | .error e => .error e
  | .ok (major, k) =>
    if k.peek ≠ some '.' then malformed
    else
      match decimal k.next with
      | .error e => .error e
      | .ok (_, k) => if endsSpaced k.peek then .ok (major, k) else malformed

/-- The value of a tag directive: a handle and what it stands for. -/
def handleValue (k : Cursor) : Lexed (String × String) :=
  match tagHandle k.skipSpaces with
  | .error e => .error e
  | .ok (handle, k) =>
    if k.peek ≠ some ' ' then malformed
    else
      match someTagText k.skipSpaces with
      | .error e => .error e
      | .ok (s, k) => if endsSpaced k.peek then .ok ((handle, s), k) else malformed

/-- A directive. -/
def directive (k : Cursor) : Lexed Directive :=
  let name := String.ofList (k.next.run isWordChar)
  let k := k.next.skip isWordChar
  if name = "" || !endsSpaced k.peek then malformed
  else
    let value : Lexed Directive :=
      if name = "YAML" then (versionValue k).map fun r => (.version r.1, r.2)
      else if name = "TAG" then (handleValue k).map fun r => (.tagHandle r.1.1 r.1.2, r.2)
      else .ok (.other, k.skip fun c => !isBreak c)
    match value with
    | .error e => .error e
    | .ok (d, k) => (emptyRest k).map fun k => (d, k)

end ApiScaffold.Yaml
