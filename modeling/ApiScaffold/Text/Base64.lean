/-!
# Base64

Bytes written in groups of four characters, each of which stands for six bits.  `decode` reads such
a text; characters that stand for nothing are passed over, and the text ends with the equals signs
that fill up a group.
-/

namespace ApiScaffold.Text.Base64

/-- The six bits that a character stands for. -/
def sextet? (c : Char) : Option Nat :=
  if c.isUpper then some (c.toNat - 65)
  else if c.isLower then some (c.toNat - 71)
  else if c.isDigit then some (c.toNat + 4)
  else if c = '+' then some 62
  else if c = '/' then some 63
  else none

/-- Reads characters into a group of which `filled` are there, with the bits of the last one that no
byte holds yet, and `pads` equals signs behind it. -/
def decodeFrom : (filled bits pads : Nat) → List Char → Option (List UInt8)
  | filled, _, _, [] => if filled = 0 then some [] else none
  | filled, bits, pads, c :: cs =>
    if c = '=' then
      if 2 ≤ filled ∧ 4 ≤ filled + pads + 1 then some []
      else decodeFrom filled bits (if 2 ≤ filled then pads + 1 else pads) cs
    else
      match sextet? c with
      | none => decodeFrom filled bits pads cs
      | some d =>
        let byte (n : Nat) (rest : Option (List UInt8)) := rest.map (UInt8.ofNat n :: ·)
        match filled with
        | 0 => decodeFrom 1 d 0 cs
        | 1 => byte (bits * 4 + d / 16) (decodeFrom 2 (d % 16) 0 cs)
        | 2 => byte (bits * 16 + d / 4) (decodeFrom 3 (d % 4) 0 cs)
        | _ => byte (bits * 64 + d) (decodeFrom 0 0 0 cs)

/-- The bytes of a text; `none` if its last group is not full. -/
def decode (cs : List Char) : Option (List UInt8) := decodeFrom 0 0 0 cs

end ApiScaffold.Text.Base64
