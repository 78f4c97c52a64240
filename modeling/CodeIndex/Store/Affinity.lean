import CodeIndex.Decimal.Significant
import CodeIndex.Number.Bound
import CodeIndex.Store.Cell

/-!
# Affinities

A column prefers a kind of cell. What is put into it is turned into that kind where nothing is lost by
it, and kept as it is otherwise; bytes are always kept. A text that is put where numbers are preferred
becomes a number when it spells one from end to end.
-/

namespace CodeIndex

/-! ### Numerals -/

/-- Whether a character may stand around a numeral. -/
def isNumeralBlank (c : Char) : Bool :=
  c == ' ' || (9 ≤ c.toNat && c.toNat ≤ 13)

/-- A numeral as scanned: its value as a cell, whether it has a point or an exponent, and what
follows. -/
structure Numeral where
  cell : Cell
  isReal : Bool
  rest : Text

/-- A whole number as a cell, unless it needs more than 64 bits. -/
def Cell.ofWhole (n : Int) : Cell :=
  if -bound63 ≤ n ∧ n < bound63 then .integer n else .real (Float.ofInt n)

/-- The sign that a text starts with, and what follows. -/
def numeralSign (t : Text) : Bool × Text :=
  match t with
  | '-' :: rest => (true, rest)
  | '+' :: rest => (false, rest)
  | _ => (false, t)

/-- The numeral that a text starts with, behind blanks; `none` when there is no digit in it. -/
def numeral? (t : Text) : Option Numeral := do
  let (negative, t) := numeralSign (t.dropWhile isNumeralBlank)
  let (whole, t) := Json.takeDigits t
  let (fraction, afterPoint) :=
    match t with
    | '.' :: rest => let (digits, rest) := Json.takeDigits rest; (some digits, rest)
    | _ => (none, t)
  let digits := whole ++ fraction.getD []
  if digits.isEmpty then none
  else
    let (exponent, rest) := (Json.exponentPart? afterPoint).getD (none, afterPoint)
    let isReal := fraction.isSome || exponent.isSome
    let n := Json.digitsValue digits
    let x := Json.nearestFloat n (exponent.getD 0 - (fraction.getD []).length)
    let cell :=
      if isReal then .real (if negative then -x else x)
      else .ofWhole (if negative then -n else n)
    some ⟨cell, isReal, rest⟩

/-- A real number as a whole one, if it is whole and strictly within 64 bits. -/
def wholeOfReal? (x : Float) : Option Int :=
  match BinaryValue.ofFloat x with
  | .finite negative mantissa exponent _ =>
    let (numerator, denominator) := powerFraction mantissa exponent
    let n : Int := numerator / denominator
    if numerator % denominator = 0 ∧ n < bound63 then some (if negative then -n else n) else none
  | _ => none

/-! ### Conversions -/

/-- What a column prefers. -/
inductive Affinity where
  | text
  | integer
  | real
  | blob
  deriving DecidableEq, Repr

/-- A number as a column of whole numbers keeps it. -/
def Cell.preferWhole : Cell → Cell
  | .real x => (wholeOfReal? x).elim (.real x) .integer
  | c => c

/-- A text as a column of numbers keeps it: as the number that it spells, if it spells one. -/
def Cell.preferNumber : Cell → Cell
  | .text w =>
    match numeral? w.text.toList with
    | some found => if found.rest.all isNumeralBlank then found.cell else .text w
    | none => .text w
  | c => c

/-- A number in which a zero has lost its sign. -/
def unsignedZero (x : Float) : Float :=
  if x == 0.0 then 0.0 else x

/-- A cell as a column keeps it. A column of real numbers keeps no sign of zero. -/
def Affinity.keep : Affinity → Cell → Cell
  | .text, .integer n => .plain (toString n)
  | .text, .real x => .plain (BinaryValue.ofFloat x).significantText
  | .integer, c => c.preferNumber.preferWhole
  | .real, c =>
    match c.preferNumber with
    | .integer n => .real (Float.ofInt n)
    | .real x => .real (unsignedZero x)
    | other => other
  | _, c => c

/-! ### Counting up -/

/-- The number that the start of some characters spells, 0 if there is none. -/
def leadingNumber (t : Text) : Cell :=
  ((numeral? t).map (·.cell)).getD (.integer 0)

/-- A cell with one added to the number in it, as a column of whole numbers keeps it. -/
def Cell.successor : Cell → Cell
  | .integer n => .ofWhole (n + 1)
  | .real x => Cell.preferWhole (.real (x + 1.0))
  | .text w => addOne (leadingNumber w.text.toList)
  | .blob bytes => addOne (leadingNumber (bytes.map fun b => Char.ofNat b.toNat))
where
  /-- One more than a number. -/
  addOne : Cell → Cell
    | .integer n => .ofWhole (n + 1)
    | .real x => Cell.preferWhole (.real (x + 1.0))
    | c => c

end CodeIndex
