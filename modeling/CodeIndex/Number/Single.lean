import CodeIndex.Decimal.Binary
import CodeIndex.Number.Bound

/-!
# Single precision numbers

A single is its 32 bits, so that every bit pattern, not-a-numbers included, is a value of its own.
Arithmetic is that of the hardware format. The order compares sign and magnitude; a not-a-number is
below and above nothing, and the two zeros are alike. A double holds the value of every single, and is
narrowed to the nearest one.
-/

namespace CodeIndex

/-- A number in the 32-bit binary format. -/
structure Single where
  bits : UInt32
  deriving DecidableEq, Repr, Inhabited

namespace Single

/-! ### Widths -/

/-- The bits of a magnitude in the 64-bit format. The values below the least normal single are normal
doubles: the leading bit of such a fraction is the implicit one. -/
def widened (m : Nat) : Nat :=
  let exponent := m / Nat.pow 2 23
  let fraction := m % Nat.pow 2 23
  if exponent = 255 then 2047 * Nat.pow 2 52 + fraction * Nat.pow 2 29
  else if exponent = 0 then
    if fraction = 0 then 0
    else (fraction.log2 + 873) * Nat.pow 2 52 + fraction * Nat.pow 2 (52 - fraction.log2)
  else (exponent + 896) * Nat.pow 2 52 + fraction * Nat.pow 2 29

/-- The bits of the nearest magnitude in the 32-bit format; what is too large is infinite. -/
def narrowed (m : Nat) : Nat :=
  let exponent := m / Nat.pow 2 52
  let fraction := m % Nat.pow 2 52
  if exponent = 2047 then
    if fraction = 0 then 255 * Nat.pow 2 23 else 255 * Nat.pow 2 23 + Nat.pow 2 22
  else
    let significand := if exponent = 0 then fraction else fraction + Nat.pow 2 52
    -- 29 bits are dropped, and one more for each binade below the least normal single
    let dropped := 29 + (897 - max exponent 1)
    min ((exponent - 897) * Nat.pow 2 23 + roundHalfEven significand (Nat.pow 2 dropped)) (255 * Nat.pow 2 23)

/-! ### Conversions -/

/-- The single of a hardware value. -/
def ofFloat32 (x : Float32) : Single := ⟨x.toBits⟩

/-- The hardware value of a single. -/
def toFloat32 (x : Single) : Float32 := Float32.ofBits x.bits

/-- The nearest single to a double. -/
def ofFloat (x : Float) : Single :=
  let bits := x.toBits.toNat
  ⟨.ofNat (bits / bound63 * bound31 + narrowed (bits % bound63))⟩

/-- The double with the same value. -/
def toFloat (x : Single) : Float :=
  let bits := x.bits.toNat
  .ofBits (.ofNat (bits / bound31 * bound63 + widened (bits % bound31)))

/-- The nearest single to a natural number. -/
def ofNat (n : Nat) : Single := ofFloat32 (Float32.ofNat n)

def zero : Single := ⟨0⟩

/-- Zero with a minus sign, the neutral element of addition. -/
def negativeZero : Single := ⟨0x80000000⟩

def one : Single := ⟨0x3f800000⟩

def minusOne : Single := ⟨0xbf800000⟩

/-! ### Order -/

/-- The bits without the sign. -/
def magnitude (x : Single) : Nat := x.bits.toNat % bound31

/-- Whether the bits stand for no number. -/
def isNaN (x : Single) : Bool := 0x7f800000 < x.magnitude

/-- Whether the bits stand for a number that is not infinite. -/
def isFinite (x : Single) : Bool := (BinaryValue.ofSingleBits x.bits).isFinite

/-- A whole number that grows with the value; not-a-numbers have one too, but it means nothing. -/
def key (x : Single) : Int :=
  if x.bits.toNat < bound31 then x.magnitude else -x.magnitude

/-- Whether one number is less than another. -/
def less (x y : Single) : Bool :=
  !x.isNaN && !y.isNaN && x.key < y.key

/-- The value forced between two bounds; what is no number stays as it is. -/
def clamp (low high x : Single) : Single :=
  if x.less low then low else if high.less x then high else x

/-! ### Arithmetic -/

instance : Add Single := ⟨fun x y => ofFloat32 (x.toFloat32 + y.toFloat32)⟩
instance : Mul Single := ⟨fun x y => ofFloat32 (x.toFloat32 * y.toFloat32)⟩
instance : Div Single := ⟨fun x y => ofFloat32 (x.toFloat32 / y.toFloat32)⟩

/-- The square root. -/
def sqrt (x : Single) : Single := ofFloat32 x.toFloat32.sqrt

/-- The sum of a list, from left to right. -/
def sum (list : List Single) : Single := list.foldl (· + ·) negativeZero

/-- The natural logarithm of one more than the value, computed in double precision. -/
def logOnePlus (x : Single) : Single := ofFloat (1.0 + x.toFloat).log

/-- Whether the value is a zero of either sign. -/
def isZero (x : Single) : Bool := x.magnitude == 0

/-- The value with the sign of a zero left out. -/
def unsigned (x : Single) : Single := if x.isZero then zero else x

end Single

end CodeIndex
