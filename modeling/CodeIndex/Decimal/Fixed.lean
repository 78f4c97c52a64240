import CodeIndex.Decimal.Binary

/-!
# Numbers with fixed places

A floating point value is shown with a fixed number of decimals: the exact value is rounded, a half
goes to the even neighbour, and a negative value that rounds to zero keeps its sign.
-/

namespace CodeIndex

/-- A decimal numeral padded with zeros on the left. -/
def padZeros (width n : Nat) : String :=
  let digits := toString n
  String.ofList (List.replicate (width - digits.length) '0') ++ digits

/-- A value with a fixed number of decimals. -/
def BinaryValue.fixed (places : Nat) : BinaryValue → String
  | .nan => "NaN"
  | .infinite negative => if negative then "-inf" else "inf"
  | .finite negative mantissa exponent _ =>
    let (numerator, denominator) := powerFraction mantissa exponent
    let scaled := roundHalfEven (numerator * Nat.pow 10 places) denominator
    let whole := toString (scaled / Nat.pow 10 places)
    let sign := if negative then "-" else ""
    if places = 0 then sign ++ whole
    else sign ++ whole ++ "." ++ padZeros places (scaled % Nat.pow 10 places)

/-- A double with a fixed number of decimals. -/
def fixedPlaces (places : Nat) (x : Float) : String :=
  (BinaryValue.ofFloat x).fixed places

end CodeIndex
