/-!
# Binary64 numbers

Floating-point numbers of 64 bits, kept as their bit patterns so that equality is decidable.

* `Binary64.nearest` rounds a quotient of natural numbers to the nearest number, a tie to the even
  one;
* `Binary64.ofDecimal` reads a decimal with an exponent;
* `Binary64.add` and `Binary64.mul` round the exact sum and product.

Powers are `Nat.pow` by name: what `^` stands for depends on what is imported.
-/

namespace ApiScaffold

/-- A floating-point number of 64 bits. -/
structure Binary64 where
  /-- Sign, eleven bits of exponent and fifty-two bits of fraction. -/
  bits : UInt64
  deriving DecidableEq, Repr, Inhabited

namespace Binary64

/-- Assembles a number from its sign and the other 63 bits. -/
def ofParts (negative : Bool) (magnitude : Nat) : Binary64 :=
  ⟨UInt64.ofNat ((if negative then Nat.pow 2 63 else 0) + magnitude)⟩

/-- Whether the sign bit is set. -/
def isNegative (x : Binary64) : Bool := Nat.pow 2 63 ≤ x.bits.toNat

/-- The bits of exponent and fraction. -/
def magnitude (x : Binary64) : Nat := x.bits.toNat % Nat.pow 2 63

/-- The magnitude bits of infinity; those of a number that is not one are larger. -/
def infinityBits : Nat := 0x7FF * Nat.pow 2 52

/-- Positive or negative infinity. -/
def infinity (negative : Bool) : Binary64 := ofParts negative infinityBits

/-- The value that is not a number. -/
def nan : Binary64 := ofParts false (infinityBits + Nat.pow 2 51)

/-- Whether the value is neither infinite nor undefined. -/
def isFinite (x : Binary64) : Bool := x.magnitude < infinityBits

/-- Whether the value is not a number. -/
def isNaN (x : Binary64) : Bool := infinityBits < x.magnitude

/-- The significand `m` of a finite value of magnitude `m * 2 ^ q`. -/
def significand (x : Binary64) : Nat :=
  if x.magnitude < Nat.pow 2 52 then x.magnitude else x.magnitude % Nat.pow 2 52 + Nat.pow 2 52

/-- The exponent `q` of a finite value of magnitude `m * 2 ^ q`. -/
def exponent (x : Binary64) : Int :=
  if x.magnitude < Nat.pow 2 52 then -1074 else (x.magnitude / Nat.pow 2 52 : Nat) - 1075

/-- A quotient rounded to the nearest natural number, a tie to the even one. -/
def roundQuotient (num den : Nat) : Nat :=
  let q := num / den
  let r := num % den
  if 2 * r < den then q
  else if den < 2 * r then q + 1
  else if q % 2 = 0 then q else q + 1

/-- A power of two as numerator and denominator. -/
def scale (num den : Nat) (q : Int) : Nat × Nat :=
  if 0 ≤ q then (num, den * Nat.pow 2 q.toNat) else (num * Nat.pow 2 (-q).toNat, den)

/-- The number nearest to `num / den`, a tie going to the even one; too large a quotient gives
infinity. -/
def nearest (negative : Bool) (num den : Nat) : Binary64 :=
  if num = 0 ∨ den = 0 then ofParts negative 0
  else
    let guess : Int := (Nat.log2 num : Int) - (Nat.log2 den : Int)
    let reached : Bool :=
      let s := scale num den guess
      s.2 ≤ s.1
    let e : Int := if reached then guess else guess - 1
    let q : Int := max (e - 52) (-1074)
    if 1024 < e then infinity negative
    else
      let s := scale num den q
      let m := roundQuotient s.1 s.2
      -- The fraction is added to the exponent, so that it carries where rounding reaches a power of
      -- two.
      let field := if m < Nat.pow 2 52 then m else (q + 1074).toNat * Nat.pow 2 52 + m
      if infinityBits ≤ field then infinity negative else ofParts negative field

/-- The number nearest to `digits * 10 ^ exp`. The exponent is cut off where the value is certain to
be zero or infinite, so that no huge power is formed. -/
def ofDecimal (negative : Bool) (digits : Nat) (exp : Int) : Binary64 :=
  if digits = 0 then ofParts negative 0
  else
    let size : Int := (Nat.log2 digits : Int) * 30103 / 100000 + exp
    if 400 < size then infinity negative
    else if size < -400 then ofParts negative 0
    else if 0 ≤ exp then nearest negative (digits * Nat.pow 10 exp.toNat) 1
    else nearest negative digits (Nat.pow 10 (-exp).toNat)

/-- The number nearest to an integer. -/
def ofInt (n : Int) : Binary64 := nearest (n < 0) n.natAbs 1

/-- A finite value as a signed multiple of `2 ^ -1074`. -/
def inUnits (x : Binary64) : Int :=
  let m : Int := (x.significand * Nat.pow 2 (x.exponent + 1074).toNat : Nat)
  if x.isNegative then -m else m

/-- The number nearest to `units * 2 ^ -1074 / den`. -/
def ofUnits (units : Int) (den : Nat) : Binary64 :=
  nearest (units < 0) units.natAbs (den * Nat.pow 2 1074)

/-- The sum, rounded to the nearest number. -/
def add (x y : Binary64) : Binary64 :=
  if x.isNaN || y.isNaN then nan
  else if !x.isFinite then (if !y.isFinite && x.isNegative != y.isNegative then nan else x)
  else if !y.isFinite then y
  else if x.magnitude = 0 ∧ y.magnitude = 0 then ofParts (x.isNegative && y.isNegative) 0
  else ofUnits (x.inUnits + y.inUnits) 1

/-- The product, rounded to the nearest number. -/
def mul (x y : Binary64) : Binary64 :=
  let negative := x.isNegative != y.isNegative
  if x.isNaN || y.isNaN then nan
  else if !x.isFinite || !y.isFinite then
    (if x.magnitude = 0 ∨ y.magnitude = 0 then nan else infinity negative)
  else if x.magnitude = 0 ∨ y.magnitude = 0 then ofParts negative 0
  else ofUnits (x.inUnits * y.inUnits) (Nat.pow 2 1074)

/-- The value with the other sign. -/
def neg (x : Binary64) : Binary64 := ofParts (!x.isNegative) x.magnitude

/-- The value as an integer, if it is one. -/
def toInt? (x : Binary64) : Option Int :=
  if !x.isFinite then none
  else
    let u := x.inUnits
    let one : Int := (Nat.pow 2 1074 : Nat)
    if u % one = 0 then some (u / one) else none

end Binary64

end ApiScaffold
