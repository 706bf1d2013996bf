import ApiScaffold.Text.Blank
import ApiScaffold.Text.WordChar

/-!
# Masked source text

The mask of a source text blanks out its comments, string literals and regular expression literals,
so that every bracket left in it is a bracket of the program.  It has a character for each character
of the source: line breaks stay, a literal keeps its quotation marks, and a regular expression shows
quotation marks in the place of its slashes.

* `TypeScript.maskFrom` runs over the text one character at a time; a state says what the next
  character belongs to;
* `TypeScript.mask` is the mask of a text, `TypeScript.literalProblems` the comments and literals in
  it that have no end.

A slash opens a regular expression where no value can have ended: at the beginning, after an
operator or opening bracket, at the beginning of a line, and after certain keywords; and only if the
expression ends on its line.
-/

namespace ApiScaffold.TypeScript

/-- What is wrong with a source text; lines count from one. -/
inductive SourceProblem where
  | unterminatedComment (line : Nat)
  | unterminatedString (line : Nat)
  | unexpectedCloser (line : Nat) (closer : Char)
  | unclosedOpener (line : Nat) (opener : Char)
  | undeclaredClass (name : String)
  deriving DecidableEq, Repr

/-- The wording of a problem. -/
def SourceProblem.message : SourceProblem → String
  | unterminatedComment n => "line " ++ toString n ++ ": unterminated block comment"
  | unterminatedString n => "line " ++ toString n ++ ": unterminated string"
  | unexpectedCloser n c => "line " ++ toString n ++ ": unexpected '" ++ c.toString ++ "'"
  | unclosedOpener n c => "line " ++ toString n ++ ": '" ++ c.toString ++ "' is never closed"
  | undeclaredClass name => "class " ++ name ++ " is not declared"

/-- What the next character belongs to. -/
inductive Mode where
  | code
  /-- A comment up to the end of the line. -/
  | lineComment
  /-- The second character of a comment that began on the given line. -/
  | blockOpen (line : Nat)
  /-- A comment that began on the given line; `star` says that an asterisk precedes. -/
  | block (line : Nat) (star : Bool)
  /-- A string literal that began on the given line. -/
  | quoted (mark : Char) (line : Nat)
  /-- The character after a backslash in a string literal. -/
  | escaped (mark : Char) (line : Nat)
  /-- A regular expression with the given numbers of characters and flags still to come. -/
  | pattern (body flags : Nat)
  /-- The flags of a regular expression, the given number still to come. -/
  | patternFlags (count : Nat)
  deriving DecidableEq, Repr

/-- The state between two characters. -/
structure ScanState where
  mode : Mode
  /-- The last line break or character other than a blank outside comments; literals count as their
  quotation mark. -/
  last : Option Char
  /-- The source characters before this place, the nearest first, as far as they are looked at. -/
  recent : List Char
  line : Nat
  deriving DecidableEq, Repr

/-- The state at the beginning of a text. -/
def ScanState.start : ScanState := ⟨.code, none, [], 1⟩

/-- The number of characters that are searched for a keyword. -/
def keywordReach : Nat := 32

/-- The backquote. -/
def backquote : Char := '\x60'

/-- The characters that enclose string literals. -/
def isQuote (c : Char) : Bool := c == '\x27' || c == '\x22' || c == backquote

/-- What a character that is masked leaves: a line break, or a space. -/
def blank (c : Char) : Char := if c = '\n' then '\n' else ' '

/-- The characters after which a slash opens a regular expression. -/
def patternPreceders : List Char := "(,=:[!&|?\x7b;\x7d+-*%<>~^\n".toList

/-- The keywords after which a slash opens a regular expression. -/
def patternKeywords : List String :=
  ["return", "typeof", "case", "do", "else", "in", "of", "new", "delete", "void", "throw",
    "instanceof", "yield", "await"]

/-- The identifier that ends a text, trailing blanks apart; empty if none does. -/
def trailingIdentifier (cs : List Char) : List Char :=
  (Text.takeSuffixWhile Text.isIdentifierChar (Text.trimRight cs)).dropWhile
    fun c => !Text.isIdentifierStart c

/-- Whether a slash in this state opens a regular expression rather than dividing. -/
def patternAllowed (s : ScanState) : Bool :=
  match s.last with
  | none => true
  | some c =>
    patternPreceders.contains c ||
      (Text.isIdentifierChar c &&
        patternKeywords.contains (String.ofList (trailingIdentifier s.recent.reverse)))

/-- The number of characters up to the slash that ends a regular expression, which stays on its line
unless a line break is escaped; a slash inside a character class does not end it. -/
def patternLength? : (inClass : Bool) → List Char → Option Nat
  | _, [] => none
  | _, ['\\'] => none
  | k, '\\' :: _ :: cs => (patternLength? k cs).map (· + 2)
  | k, c :: cs =>
    if c = '\n' then none
    else if k then (patternLength? (c != ']') cs).map (· + 1)
    else if c = '[' then (patternLength? true cs).map (· + 1)
    else if c = '/' then some 0
    else (patternLength? false cs).map (· + 1)

/-- The lengths of the body and of the flags of the regular expression that a text continues after
its opening slash. -/
def patternEnd? (cs : List Char) : Option (Nat × Nat) :=
  (patternLength? false cs).map fun n =>
    (n, ((cs.drop (n + 1)).takeWhile Text.isIdentifierChar).length)

/-- The mode after a character of code. -/
def modeAfterCode (s : ScanState) (c : Char) (rest : List Char) : Mode :=
  if isQuote c then .quoted c s.line
  else if c = '/' then
    match rest with
    | '/' :: _ => .lineComment
    | '*' :: _ => .blockOpen s.line
    | _ =>
      if patternAllowed s then
        match patternEnd? rest with
        | some (body, flags) => .pattern body flags
        | none => .code
      else .code
  else .code

/-- The mode after a character. -/
def nextMode (s : ScanState) (c : Char) (rest : List Char) : Mode :=
  match s.mode with
  | .code => modeAfterCode s c rest
  | .lineComment => if c = '\n' then .code else .lineComment
  | .blockOpen line => .block line false
  | .block line star => if c = '/' ∧ star then .code else .block line (c == '*')
  | .quoted mark line =>
    if c = mark then .code
    else if c = '\\' then .escaped mark line
    else if c = '\n' ∧ mark ≠ backquote then .code
    else .quoted mark line
  | .escaped mark line => .quoted mark line
  | .pattern 0 flags => if flags = 0 then .code else .patternFlags flags
  | .pattern (n + 1) flags => .pattern n flags
  | .patternFlags n => if n ≤ 1 then .code else .patternFlags (n - 1)

/-- The last significant character after a character. -/
def nextLast (s : ScanState) (c : Char) (rest : List Char) : Option Char :=
  match s.mode with
  | .code =>
    match modeAfterCode s c rest with
    | .lineComment | .blockOpen _ => s.last
    | .pattern _ _ => some '\x22'
    | _ => if c = '\n' ∨ !Text.isBlank c then some c else s.last
  | .lineComment => if c = '\n' then some '\n' else s.last
  | _ => s.last

/-- The state after a character. -/
def ScanState.next (s : ScanState) (c : Char) (rest : List Char) : ScanState :=
  { mode := nextMode s c rest
    last := nextLast s c rest
    recent := (c :: s.recent).take keywordReach
    line := if c = '\n' then s.line + 1 else s.line }

/-- What the mask shows for a character. -/
def shown (s : ScanState) (c : Char) (rest : List Char) : Char :=
  match s.mode with
  | .code =>
    match modeAfterCode s c rest with
    | .lineComment | .blockOpen _ => ' '
    | .pattern _ _ => '\x22'
    | _ => c
  | .quoted mark _ => if c = mark then c else blank c
  | .escaped mark _ => if rest.isEmpty && c == mark then c else blank c
  | .pattern 0 _ => '\x22'
  | _ => blank c

/-- The problem that a character reveals: the end of a line inside a string literal. -/
def lineEndProblem (s : ScanState) (c : Char) : List SourceProblem :=
  match s.mode with
  | .quoted mark line =>
    if c = '\n' ∧ mark ≠ backquote then [.unterminatedString line] else []
  | _ => []

/-- The problem that the end of the text reveals. -/
def ScanState.endProblem (s : ScanState) : List SourceProblem :=
  match s.mode with
  | .blockOpen line | .block line _ => [.unterminatedComment line]
  | .quoted _ line | .escaped _ line => [.unterminatedString line]
  | _ => []

/-- The mask of what follows a state. -/
def maskFrom (s : ScanState) : List Char → List Char
  | [] => []
  | c :: cs => shown s c cs :: maskFrom (s.next c cs) cs

/-- The comments and literals without an end in what follows a state. -/
def literalProblemsFrom (s : ScanState) : List Char → List SourceProblem
  | [] => s.endProblem
  | c :: cs => lineEndProblem s c ++ literalProblemsFrom (s.next c cs) cs

/-- The mask of a text. -/
def mask (cs : List Char) : List Char := maskFrom .start cs

@[simp] theorem length_maskFrom (s : ScanState) (cs : List Char) :
    (maskFrom s cs).length = cs.length := by
  induction cs generalizing s with
  | nil => rfl
  | cons c cs ih => simp [maskFrom, ih]

/-- An offset in the mask is the same offset in the text. -/
@[simp] theorem length_mask (cs : List Char) : (mask cs).length = cs.length :=
  length_maskFrom .start cs

/-- The comments and literals without an end. -/
def literalProblems (cs : List Char) : List SourceProblem := literalProblemsFrom .start cs

end ApiScaffold.TypeScript
