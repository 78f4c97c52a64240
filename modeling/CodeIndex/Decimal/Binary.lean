/-!
# Binary floating point values

A finite value is a sign and a product of a mantissa and a power of two. Both formats are decoded
from their bits; the least mantissa of a binade has a nearer neighbour below than above.
-/

namespace CodeIndex

/-- What the bits of a floating point number stand for. -/
inductive BinaryValue where
  | nan
  | infinite (negative : Bool)
  /-- The value `mantissa · 2 ^ exponent`, with its sign; `narrowBelow` when the next value below is
  half as far as the next above. -/
  | finite (negative : Bool) (mantissa : Nat) (exponent : Int) (narrowBelow : Bool)
  deriving DecidableEq, Repr

/-- Decodes a number with the given widths of the exponent and the fraction. -/
def BinaryValue.decode (exponentBits fractionBits : Nat) (bits : Nat) : BinaryValue :=
  let fraction := bits % Nat.pow 2 fractionBits
  let exponent := bits / Nat.pow 2 fractionBits % Nat.pow 2 exponentBits
  let negative := bits / Nat.pow 2 (fractionBits + exponentBits) % 2 = 1
  let bias : Int := Nat.pow 2 (exponentBits - 1) - 1 + fractionBits
  if exponent = Nat.pow 2 exponentBits - 1 then
    if fraction = 0 then .infinite negative else .nan
  else if exponent = 0 then .finite negative fraction (1 - bias) false
  else .finite negative (Nat.pow 2 fractionBits + fraction) (exponent - bias) (fraction = 0 && exponent > 1)

/-- Whether a value is a number that is not infinite. -/
def BinaryValue.isFinite : BinaryValue → Bool
  | .finite .. => true
  | _ => false

/-- The value of a double. -/
def BinaryValue.ofFloat (x : Float) : BinaryValue :=
  decode 11 52 x.toBits.toNat

/-- The value of a single, from its bits. -/
def BinaryValue.ofSingleBits (bits : UInt32) : BinaryValue :=
  decode 8 23 bits.toNat

/-- A product of a natural number and a power of two, as a fraction. -/
def powerFraction (m : Nat) (exponent : Int) : Nat × Nat :=
  match exponent with
  | .ofNat e => (m * Nat.pow 2 e, 1)
  | .negSucc e => (m, Nat.pow 2 (e + 1))

/-- The quotient rounded to a nearest whole number; a half goes to the even neighbour. -/
def roundHalfEven (numerator denominator : Nat) : Nat :=
  let quotient := numerator / denominator
  let twice := 2 * (numerator % denominator)
  if twice < denominator then quotient
  else if denominator < twice then quotient + 1
  else quotient + quotient % 2

end CodeIndex
