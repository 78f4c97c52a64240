import CodeIndex.Decimal.Binary

/-!
# Shortest decimals

The shortest decimal of a floating point value has the fewest digits among the decimals that read
back as the value, and is the nearest of those. For each number of digits the two neighbours of the
value on that decimal grid are tested against the interval of reals that round to it; the ends of
the interval belong to it when the mantissa is even.
-/

namespace CodeIndex

/-- The decimal `digits · 10 ^ exponent`. -/
structure DecimalValue where
  digits : Nat
  exponent : Int
  deriving DecidableEq, Repr

/-- The interval of reals that round to a value, and the value, over one denominator. -/
structure RoundingInterval where
  low : Nat
  value : Nat
  high : Nat
  denominator : Nat
  closed : Bool

/-- The interval of the value `mantissa · 2 ^ exponent`. -/
def RoundingInterval.of (mantissa : Nat) (exponent : Int) (narrowBelow : Bool) :
    RoundingInterval :=
  let below := if narrowBelow then 1 else 2
  let (scale, denominator) := powerFraction 1 (exponent - 2)
  ⟨(4 * mantissa - below) * scale, 4 * mantissa * scale, (4 * mantissa + 2) * scale, denominator,
    mantissa % 2 = 0⟩

/-- Whether `digits · 10 ^ exponent` lies in the interval. -/
def RoundingInterval.holds (r : RoundingInterval) (d : DecimalValue) : Bool :=
  let (x, y) :=
    match d.exponent with
    | .ofNat e => (d.digits * Nat.pow 10 e, 1)
    | .negSucc e => (d.digits, Nat.pow 10 (e + 1))
  let middle := x * r.denominator
  if r.closed then r.low * y ≤ middle && middle ≤ r.high * y
  else r.low * y < middle && middle < r.high * y

/-- Twice the value on the grid `10 ^ exponent`, as a fraction. -/
def RoundingInterval.onGrid (r : RoundingInterval) (exponent : Int) : Nat × Nat :=
  match exponent with
  | .ofNat e => (r.value, r.denominator * Nat.pow 10 e)
  | .negSucc e => (r.value * Nat.pow 10 (e + 1), r.denominator)

/-- The neighbour of the value on a grid that lies in the interval, the nearer one first. -/
def RoundingInterval.neighbour? (r : RoundingInterval) (exponent : Int) : Option DecimalValue :=
  let (numerator, denominator) := r.onGrid exponent
  let down : DecimalValue := ⟨numerator / denominator, exponent⟩
  let up : DecimalValue := ⟨numerator / denominator + 1, exponent⟩
  let twice := 2 * (numerator % denominator)
  let downFirst := twice < denominator || (twice == denominator && down.digits % 2 == 0)
  let first := if downFirst then down else up
  let second := if downFirst then up else down
  if r.holds first then some first else if r.holds second then some second else none

/-- The first grid from `exponent` down, over at most `fuel` grids, with a neighbour in the
interval. -/
def RoundingInterval.search (r : RoundingInterval) : (fuel : Nat) → (exponent : Int) → DecimalValue
  | 0, exponent => ⟨(r.onGrid exponent).1 / (r.onGrid exponent).2, exponent⟩
  | fuel + 1, exponent =>
    match r.neighbour? exponent with
    | some d => d
    | none => search r fuel (exponent - 1)

/-- The decimal exponent of the first digit of a positive fraction. -/
def leadingExponent (numerator denominator : Nat) : Int :=
  let high := (toString (numerator / denominator)).length
  if denominator ≤ numerator then high - 1
  else
    -- the first digit of a fraction below one
    let shifted := (toString (denominator / numerator)).length
    if numerator * Nat.pow 10 (shifted - 1) ≥ denominator then 1 - shifted else -shifted

/-- The shortest decimal of a positive value. -/
def shortest (mantissa : Nat) (exponent : Int) (narrowBelow : Bool) : DecimalValue :=
  let r := RoundingInterval.of mantissa exponent narrowBelow
  r.search 40 (leadingExponent r.value r.denominator + 1)

/-- A decimal without trailing zeros in its digits (`fuel` bounds their number). -/
def DecimalValue.trim : (fuel : Nat) → DecimalValue → DecimalValue
  | 0, d => d
  | fuel + 1, d =>
    if d.digits ≠ 0 ∧ d.digits % 10 = 0 then trim fuel ⟨d.digits / 10, d.exponent + 1⟩ else d

def zeros (n : Nat) : String := String.ofList (List.replicate n '0')

/-- A decimal in text: positional when its first digit stands at one of the places from the fifth
behind the point to the sixteenth before it, else with an exponent. -/
def DecimalValue.text (d : DecimalValue) : String :=
  let digits := toString d.digits
  let length := digits.length
  let point : Int := length + d.exponent
  if 0 ≤ d.exponent ∧ point ≤ 16 then digits ++ zeros d.exponent.toNat ++ ".0"
  else if 0 < point ∧ point ≤ 16 then
    let cs := digits.toList
    String.ofList (cs.take point.toNat) ++ "." ++ String.ofList (cs.drop point.toNat)
  else if -5 < point ∧ point ≤ 0 then "0." ++ zeros (-point).toNat ++ digits
  else
    let cs := digits.toList
    let fraction := if length = 1 then "" else "." ++ String.ofList (cs.drop 1)
    String.ofList (cs.take 1) ++ fraction ++ "e" ++ toString (point - 1)

/-- The text of a value: its shortest decimal, always with a point or an exponent. -/
def BinaryValue.text : BinaryValue → String
  | .nan => "NaN"
  | .infinite negative => if negative then "-inf" else "inf"
  | .finite negative mantissa exponent narrowBelow =>
    (if negative then "-" else "")
      ++ if mantissa = 0 then "0.0" else ((shortest mantissa exponent narrowBelow).trim 20).text

end CodeIndex
