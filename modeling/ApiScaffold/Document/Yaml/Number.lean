import ApiScaffold.Document.Value
import ApiScaffold.Document.Yaml.Lexeme
import ApiScaffold.Text.Numeral

/-!
# Numbers in YAML

Integers are written with a base or in base sixty, and digits may be set apart by underscores.  A
float has a point, and a sign in its exponent; it may be written in base sixty too.

* `Yaml.isInt` and `Yaml.isFloat` say whether a plain scalar means a number;
* `Yaml.intValue` and `Yaml.floatValue` are the values of texts that are said to be numbers, which
  more texts have than those.
-/

namespace ApiScaffold.Yaml

/-! ## Shapes -/

/-- Whether every character is a digit or an underscore. -/
def allDigits (p : Char → Bool) (cs : List Char) : Bool := cs.all fun c => p c || c == '_'

/-- The text without a sign in front of it. -/
def dropSign : List Char → List Char
  | '+' :: cs => cs
  | '-' :: cs => cs
  | cs => cs

/-- Whether a text is a digit that satisfies `p`, followed by digits and underscores. -/
def isNumeral (p : Char → Bool) : List Char → Bool
  | [] => false
  | c :: cs => p c && allDigits Char.isDigit cs

/-- Whether a digit is not zero. -/
def isNonZero (c : Char) : Bool := c.isDigit && c != '0'

/-- A part of a number in base sixty behind its first: one or two digits below sixty. -/
def isSixtieth : List Char → Bool
  | [c] => c.isDigit
  | [c, d] => '0' ≤ c && c ≤ '5' && d.isDigit
  | _ => false

/-- Whether a text is a number in base sixty whose first part begins with a digit that satisfies
`p`. -/
def isSexagesimal (p : Char → Bool) (cs : List Char) : Bool :=
  match Text.splitOn ':' cs with
  | first :: second :: more => isNumeral p first && (second :: more).all isSixtieth
  | _ => false

/-- Whether an unsigned text is an integer. -/
def isUnsignedInt : List Char → Bool
  | ['0'] => true
  | '0' :: 'b' :: cs => !cs.isEmpty && allDigits (fun c => c == '0' || c == '1') cs
  | '0' :: 'x' :: cs => !cs.isEmpty && allDigits (fun c => (Text.hexValue? c).isSome) cs
  | '0' :: cs => allDigits (fun c => '0' ≤ c && c ≤ '7') cs
  | cs => isNumeral isNonZero cs || isSexagesimal isNonZero cs

/-- Whether a text is an integer. -/
def isInt (cs : List Char) : Bool := isUnsignedInt (dropSign cs)

/-- Whether a text is an exponent with a sign, or nothing. -/
def isExponent : List Char → Bool
  | [] => true
  | e :: sign :: digits =>
    (e == 'e' || e == 'E') && (sign == '+' || sign == '-') && !digits.isEmpty &&
      digits.all Char.isDigit
  | _ => false

/-- Whether a text is digits and underscores followed by an exponent or nothing. -/
def isFraction (cs : List Char) : Bool :=
  isExponent (cs.dropWhile fun c => c.isDigit || c == '_')

/-- Whether an unsigned text is a float that begins with a digit. -/
def isPointed (cs : List Char) : Bool :=
  let whole := cs.takeWhile (· != '.')
  match cs.dropWhile (· != '.') with
  | [] => false
  | _ :: fraction =>
    (isNumeral Char.isDigit whole && isFraction fraction) ||
      (isSexagesimal Char.isDigit whole && allDigits Char.isDigit fraction)

/-- Whether a text is one of the given words behind a point. -/
def isPointWord (words : List String) (cs : List Char) : Bool :=
  words.any fun w => cs == '.' :: w.toList

/-- Whether a text is a float. -/
def isFloat (cs : List Char) : Bool :=
  isPointed (dropSign cs) ||
    (match cs with
      | '.' :: c :: rest => c.isDigit && isFraction rest
      | _ => false) ||
    isPointWord ["inf", "Inf", "INF"] (dropSign cs) || isPointWord ["nan", "NaN", "NAN"] cs

/-! ## Values -/

/-- The integer of a text. -/
def integerOf (base : Nat) (cs : List Char) : Except Failure Int :=
  match Text.integer? base cs with
  | some n => .ok n
  | none => badText

/-- The value of parts in base sixty. -/
def sexagesimal (parts : List Int) : Int := parts.foldl (fun n d => n * 60 + d) 0

/-- The integers of several texts. -/
def integersOf : List (List Char) → Except Failure (List Int)
  | [] => .ok []
  | cs :: rest =>
    match integerOf 10 cs with
    | .error e => .error e
    | .ok n => (integersOf rest).map (n :: ·)

/-- The value of an unsigned integer. -/
def unsignedInt (cs : List Char) : Except Failure Int :=
  match cs with
  | [] => .error (.misuse .outOfRange)
  | ['0'] => .ok 0
  | '0' :: 'b' :: ds => integerOf 2 ds
  | '0' :: 'x' :: ds => integerOf 16 ds
  | '0' :: ds => integerOf 8 ('0' :: ds)
  | cs =>
    if cs.contains ':' then (integersOf (Text.splitOn ':' cs)).map sexagesimal
    else integerOf 10 cs

/-- The text without underscores. -/
def dropUnderscores (cs : List Char) : List Char := cs.filter (· != '_')

/-- The value of an integer. -/
def intValue (cs : List Char) : Except Failure Scalar :=
  match dropUnderscores cs with
  | [] => .error (.misuse .outOfRange)
  | '-' :: ds => (unsignedInt ds).map fun n => .int (-n)
  | '+' :: ds => (unsignedInt ds).map Scalar.int
  | ds => (unsignedInt ds).map Scalar.int

/-- The float that an unsigned text in small letters denotes. -/
def unsignedFloat? (negative : Bool) (cs : List Char) : Option Binary64 :=
  if cs == "inf".toList || cs == "infinity".toList then some (.infinity negative)
  else if cs == "nan".toList then some .nan
  else (Text.decimal? cs).map fun d => .ofDecimal negative d.1 d.2

/-- The float that a text in small letters denotes. -/
def floatOf (cs : List Char) : Except Failure Binary64 :=
  let found :=
    match Text.asciiNumeral cs with
    | '-' :: ds => unsignedFloat? true ds
    | '+' :: ds => unsignedFloat? false ds
    | ds => unsignedFloat? false ds
  match found with
  | some x => .ok x
  | none => badText

/-- The floats of several texts. -/
def floatsOf : List (List Char) → Except Failure (List Binary64)
  | [] => .ok []
  | cs :: rest =>
    match floatOf cs with
    | .error e => .error e
    | .ok x => (floatsOf rest).map (x :: ·)

/-- The value of parts in base sixty, the last first; `base` is the value of the first of them,
which has to be in the range of floats. -/
def sexagesimalFloat (base : Nat) (sum : Binary64) : List Binary64 → Except Failure Binary64
  | [] => .ok sum
  | x :: xs =>
    let factor := Binary64.ofInt base
    if factor.isFinite then sexagesimalFloat (base * 60) (sum.add (x.mul factor)) xs
    else .error (.misuse .tooLarge)

/-- The value of an unsigned float in small letters. -/
def unsignedFloat (cs : List Char) : Except Failure Binary64 :=
  if cs == ".inf".toList then .ok (.infinity false)
  else if cs == ".nan".toList then .ok .nan
  else if cs.contains ':' then
    match floatsOf (Text.splitOn ':' cs) with
    | .error e => .error e
    | .ok xs => sexagesimalFloat 1 (.ofInt 0) xs.reverse
  else floatOf cs

/-- The value of a float. -/
def floatValue (cs : List Char) : Except Failure Scalar :=
  match (dropUnderscores cs).map Char.toLower with
  | [] => .error (.misuse .outOfRange)
  | '-' :: ds => (unsignedFloat ds).map fun x => .float (if x.isNaN then .nan else x.neg)
  | '+' :: ds => (unsignedFloat ds).map Scalar.float
  | ds => (unsignedFloat ds).map Scalar.float

end ApiScaffold.Yaml
