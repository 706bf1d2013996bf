import ApiScaffold.TypeScript.Mask

/-!
# Brackets

* `TypeScript.closingOffset?` finds the bracket that closes the one at the front of a masked text,
  counting brackets of its kind only;
* `TypeScript.balanceProblems` lists the unbalanced brackets and endless literals of a source text,
  counting all three kinds with one stack.
-/

namespace ApiScaffold.TypeScript

/-- The bracket that closes an opening one. -/
def closerOf? (c : Char) : Option Char :=
  if c = '(' then some ')' else if c = '[' then some ']' else if c = '{' then some '}' else none

/-- Whether a character closes a bracket. -/
def isCloser (c : Char) : Bool := c == ')' || c == ']' || c == '}'

/-- The offset of the bracket that brings the number of open ones, now `depth`, to zero. -/
def closingFrom (opener closer : Char) : (depth : Nat) → List Char → Option Nat
  | _, [] => none
  | depth, c :: cs =>
    if c = opener then (closingFrom opener closer (depth + 1) cs).map (· + 1)
    else if c = closer then
      if depth ≤ 1 then some 0 else (closingFrom opener closer (depth - 1) cs).map (· + 1)
    else (closingFrom opener closer depth cs).map (· + 1)

/-- The offset of the bracket that closes the one at the front of a masked text; `none` if none does
or no bracket opens there. -/
def closingOffset? : List Char → Option Nat
  | [] => none
  | c :: cs =>
    match closerOf? c with
    | none => none
    | some closer => (closingFrom c closer 1 cs).map (· + 1)

theorem closingFrom_lt {o c : Char} {d n : Nat} {cs : List Char}
    (h : closingFrom o c d cs = some n) : n < cs.length := by
  induction cs generalizing d n with
  | nil => simp [closingFrom] at h
  | cons x cs ih =>
    rw [closingFrom] at h
    split at h
    · obtain ⟨m, hm, rfl⟩ := Option.map_eq_some_iff.1 h
      simpa using ih hm
    · split at h
      · split at h
        · simp at h
          simp [← h]
        · obtain ⟨m, hm, rfl⟩ := Option.map_eq_some_iff.1 h
          simpa using ih hm
      · obtain ⟨m, hm, rfl⟩ := Option.map_eq_some_iff.1 h
        simpa using ih hm

/-- The closing bracket lies inside the text. -/
theorem closingOffset?_lt {n : Nat} {cs : List Char} (h : closingOffset? cs = some n) :
    n < cs.length := by
  cases cs with
  | nil => simp [closingOffset?] at h
  | cons c cs =>
    rw [closingOffset?] at h
    split at h
    · simp at h
    · obtain ⟨m, hm, rfl⟩ := Option.map_eq_some_iff.1 h
      simpa using closingFrom_lt hm

/-- The unbalanced brackets of a masked text from the given line on. `opened` holds the brackets
that are open, the innermost first, each with its line; those that stay open are reported last, the
outermost first. -/
def bracketProblems : (opened : List (Char × Nat)) → (line : Nat) → List Char → List SourceProblem
  | opened, _, [] => opened.reverse.map fun o => .unclosedOpener o.2 o.1
  | opened, line, c :: cs =>
    if (closerOf? c).isSome then bracketProblems ((c, line) :: opened) line cs
    else if isCloser c then
      match opened with
      | [] => .unexpectedCloser line c :: bracketProblems [] line cs
      | (o, n) :: os =>
        if closerOf? o = some c then bracketProblems os line cs
        else .unexpectedCloser line c :: bracketProblems ((o, n) :: os) line cs
    else bracketProblems opened (if c = '\n' then line + 1 else line) cs

/-- The endless literals and unbalanced brackets of a source text. -/
def balanceProblems (cs : List Char) : List SourceProblem :=
  literalProblems cs ++ bracketProblems [] 1 (mask cs)

/-- Why a bracket has no answer. -/
inductive BracketFault where
  | outOfRange
  | notBracket
  deriving DecidableEq, Repr

/-- The index of the bracket that closes the one at a given index of a masked text, or -1. A
negative index counts from the end; the search for its closing bracket then runs to the end and on
from the beginning. -/
def closingIndex (masked : List Char) (index : Int) : Except BracketFault Int :=
  let size : Int := masked.length
  if index < -size ∨ size ≤ index then .error .outOfRange
  else
    let tail :=
      if index < 0 then masked.drop (size + index).toNat ++ masked else masked.drop index.toNat
    match tail.head?.bind closerOf? with
    | none => .error .notBracket
    | some _ =>
      match closingOffset? tail with
      | some n => .ok (index + n)
      | none => .ok (-1)

end ApiScaffold.TypeScript
