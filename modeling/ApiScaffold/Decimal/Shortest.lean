import ApiScaffold.Decimal.Binary64
import ApiScaffold.Text.Digits

/-!
# The shortest decimal of a binary64 number

The text of a number is the decimal with the fewest digits that reads back as the number, of several
the nearest.

* `Binary64.shortest` finds it by trying, for 1, 2, … 17 digits, the two neighbours of the value on
  the grid of decimals with that many digits;
* `Binary64.render` lays it out: positional between `0.0001` and `10 ^ 16`, otherwise with an
  exponent of at least two digits.
-/

namespace ApiScaffold.Binary64

/-- A decimal `digits * 10 ^ exp`. -/
structure Decimal where
  digits : Nat
  exp : Int
  deriving DecidableEq, Repr

/-- The exponent `p` with `10 ^ p ≤ num / den < 10 ^ (p + 1)`, searched upwards from `p`. -/
def decimalExponent (num den : Nat) : (steps : Nat) → Int → Int
  | 0, p => p
  | s + 1, p =>
    let next := p + 1
    let reached : Bool :=
      if 0 ≤ next then den * Nat.pow 10 next.toNat ≤ num else den ≤ num * Nat.pow 10 (-next).toNat
    if reached then decimalExponent num den s next else p

/-- The magnitude of a finite value as a quotient. -/
def quotient (x : Binary64) : Nat × Nat :=
  if 0 ≤ x.exponent then (x.significand * Nat.pow 2 x.exponent.toNat, 1)
  else (x.significand, Nat.pow 2 (-x.exponent).toNat)

/-- The neighbour of `num / den` among the multiples of `10 ^ exp` that reads back as `x`: of two
the nearer, and of equally near ones the even one. -/
def neighbour? (x : Binary64) (num den : Nat) (exp : Int) : Option Decimal :=
  let s : Nat × Nat :=
    if 0 ≤ exp then (num, den * Nat.pow 10 exp.toNat) else (num * Nat.pow 10 (-exp).toNat, den)
  let below := s.1 / s.2
  let back (d : Nat) : Bool := ofDecimal x.isNegative d exp == x
  let near := roundQuotient s.1 s.2
  let far := if near = below then below + 1 else below
  if back near then some ⟨near, exp⟩ else if back far then some ⟨far, exp⟩ else none

/-- The first grid, from `count` digits on, that holds a decimal reading back as `x`. -/
def searchGrids (x : Binary64) (num den : Nat) (p : Int) : (steps : Nat) → (count : Nat) → Decimal
  | 0, _ => ⟨0, 0⟩
  | s + 1, count =>
    match neighbour? x num den (p - count + 1) with
    | some d => d
    | none => searchGrids x num den p s (count + 1)

/-- The shortest decimal that reads back as the magnitude of a finite value. -/
def shortest (x : Binary64) : Decimal :=
  let q := x.quotient
  if q.1 = 0 then ⟨0, 0⟩
  else
    let guess : Int := ((Nat.log2 q.1 : Int) - (Nat.log2 q.2 : Int)) * 30103 / 100000 - 2
    searchGrids x q.1 q.2 (decimalExponent q.1 q.2 6 guess) 17 1

/-- The decimal without the zeros at its end. -/
def stripZeros : (steps : Nat) → Decimal → Decimal
  | 0, d => d
  | s + 1, d =>
    if d.digits ≠ 0 ∧ d.digits % 10 = 0 then stripZeros s ⟨d.digits / 10, d.exp + 1⟩ else d

/-- Lays out a decimal: positional if its first digit stands for `10 ^ -4` to `10 ^ 15`, otherwise
with an exponent of at least two digits; a positional text always has a fraction. -/
def layOut (d : Decimal) : List Char :=
  let ds := Text.digitsOf d.digits
  let point : Int := ds.length + d.exp
  if d.digits = 0 then ['0', '.', '0']
  else if -3 ≤ point ∧ point ≤ 16 then
    if point ≤ 0 then '0' :: '.' :: List.replicate (-point).toNat '0' ++ ds
    else if (ds.length : Int) ≤ point then
      ds ++ List.replicate (point - ds.length).toNat '0' ++ ['.', '0']
    else ds.take point.toNat ++ '.' :: ds.drop point.toNat
  else
    let e := point - 1
    let mantissa :=
      match ds with
      | [] => []
      | [c] => [c]
      | c :: rest => c :: '.' :: rest
    let es := Text.digitsOf e.natAbs
    mantissa ++ ['e', if e < 0 then '-' else '+'] ++ (if es.length < 2 then '0' :: es else es)

/-- The text of a number. -/
def render (x : Binary64) : List Char :=
  if x.isNaN then "nan".toList
  else
    let sign := if x.isNegative then ['-'] else []
    if !x.isFinite then sign ++ "inf".toList else sign ++ layOut (stripZeros 20 x.shortest)

end ApiScaffold.Binary64
