/-!
# Bounds of words

The number of values that a word of some bits can take.
-/

namespace CodeIndex

/-- 2 to the power of 31. -/
def bound31 : Nat := 0x80000000

/-- 2 to the power of 32. -/
def bound32 : Nat := 0x100000000

/-- 2 to the power of 63. -/
def bound63 : Nat := 0x8000000000000000

/-- 2 to the power of 64. -/
def bound64 : Nat := 0x10000000000000000

/-- The sum of counts. -/
def total (counts : List Nat) : Nat := counts.foldr (· + ·) 0

end CodeIndex
