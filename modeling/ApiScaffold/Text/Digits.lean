/-!
# Numbers as digits

* `digitsOf` and `natOfDigits` write and read a natural number in decimal digits;
* `hexDigits` and `hexValue?` do so for hexadecimal digits;
* `exponentPart` reads the exponent of a decimal.
-/

namespace ApiScaffold.Text

/-- The decimal digits of a natural number. -/
def digitsOf (n : Nat) : List Char := (toString n).toList

/-- The number written by decimal digits. -/
def natOfDigits (ds : List Char) : Nat := ds.foldl (fun n c => n * 10 + (c.toNat - 48)) 0

/-- The greatest number of decimal digits that an integer is read from or written with. -/
def maxIntegerDigits : Nat := 4300

/-- The lower-case hexadecimal digit of a number below sixteen. -/
def hexDigit (n : Nat) : Char :=
  if n < 10 then Char.ofNat (48 + n) else Char.ofNat (87 + n)

/-- The last `width` hexadecimal digits of a number. -/
def hexDigits : (width : Nat) → Nat → List Char
  | 0, _ => []
  | w + 1, n => hexDigits w (n / 16) ++ [hexDigit (n % 16)]

@[simp] theorem length_hexDigits (w n : Nat) : (hexDigits w n).length = w := by
  induction w generalizing n with
  | zero => rfl
  | succ w ih => simp [hexDigits, ih]

/-- The value of a hexadecimal digit. -/
def hexValue? (c : Char) : Option Nat :=
  if c.isDigit then some (c.toNat - 48)
  else if 'a' ≤ c ∧ c ≤ 'f' then some (c.toNat - 87)
  else if 'A' ≤ c ∧ c ≤ 'F' then some (c.toNat - 55)
  else none

/-- The exponent at the front of a text, if one with at least one digit stands there, and what
follows it. -/
def exponentPart : List Char → Option Int × List Char
  | [] => (none, [])
  | c :: cs =>
    if c = 'e' ∨ c = 'E' then
      let signed : Bool × List Char :=
        match cs with
        | '-' :: r => (true, r)
        | '+' :: r => (false, r)
        | r => (false, r)
      let ds := signed.2.takeWhile Char.isDigit
      if ds.isEmpty then (none, c :: cs)
      else
        let n : Int := natOfDigits ds
        (some (if signed.1 then -n else n), signed.2.dropWhile Char.isDigit)
    else (none, c :: cs)

end ApiScaffold.Text
