import CodeIndex.Decimal.Fixed
import CodeIndex.Decimal.Shortest

/-!
# Fifteen significant digits

A value is rounded to fifteen significant digits, a half to the even neighbour, and loses its trailing
zeros; one digit behind the point stays. Positional notation serves from the fourth place behind the
point to the fifteenth before it.
-/

namespace CodeIndex

def significantDigits : Nat := 15

/-- A positive fraction rounded to significant digits; the digits are exactly so many. -/
def roundSignificant (numerator denominator : Nat) : DecimalValue :=
  let exponent := leadingExponent numerator denominator - (significantDigits - 1 : Nat)
  let digits :=
    match exponent with
    | .ofNat e => roundHalfEven numerator (denominator * Nat.pow 10 e)
    | .negSucc e => roundHalfEven (numerator * Nat.pow 10 (e + 1)) denominator
  if digits = Nat.pow 10 significantDigits then ⟨digits / 10, exponent + 1⟩ else ⟨digits, exponent⟩

/-- Digits behind a point, without trailing zeros, but at least one. -/
def fractionDigits (digits : List Char) : String :=
  let kept := (digits.reverse.dropWhile (· == '0')).reverse
  if kept.isEmpty then "0" else String.ofList kept

/-- A decimal of significant digits in text. -/
def DecimalValue.significantText (d : DecimalValue) : String :=
  let digits := (toString d.digits).toList
  let leading : Int := d.exponent + (digits.length - 1 : Nat)
  if leading < -4 ∨ (significantDigits : Int) ≤ leading then
    String.ofList (digits.take 1) ++ "." ++ fractionDigits (digits.drop 1) ++ "e"
      ++ (if leading < 0 then "-" else "+") ++ padZeros 2 leading.natAbs
  else if leading < 0 then
    "0." ++ zeros (-leading - 1).toNat ++ fractionDigits digits
  else
    let whole := leading.toNat + 1
    String.ofList (digits.take whole) ++ "." ++ fractionDigits (digits.drop whole)

/-- The text of a value in significant digits. -/
def BinaryValue.significantText : BinaryValue → String
  | .nan => "NaN"
  | .infinite negative => if negative then "-Inf" else "Inf"
  | .finite negative mantissa exponent _ =>
    if mantissa = 0 then "0.0"
    else
      let (numerator, denominator) := powerFraction mantissa exponent
      (if negative then "-" else "") ++ (roundSignificant numerator denominator).significantText

end CodeIndex
