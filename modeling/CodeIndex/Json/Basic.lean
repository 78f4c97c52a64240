import CodeIndex.Number.Single

/-!
# JSON documents

Values with objects as lists of named members in order. Numbers are counted, negative or real, as
written: a number with a point or an exponent is real even when it is whole.
-/

namespace CodeIndex

inductive JsonNumber where
  /-- A whole number without a sign, below 2^64. -/
  | count (n : Nat)
  /-- The negative whole number `-n`. -/
  | negative (n : Nat)
  | real (x : Float)
  /-- A real number that is kept in single precision. -/
  | single (x : Single)
  deriving Repr, Inhabited

/-- Whether a number is neither infinite nor no number at all. -/
def JsonNumber.isFinite : JsonNumber → Bool
  | .count _ => true
  | .negative _ => true
  | .real x => (BinaryValue.ofFloat x).isFinite
  | .single x => x.isFinite

inductive Json where
  | null
  | bool (b : Bool)
  | number (n : JsonNumber)
  | string (s : String)
  | array (items : List Json)
  | object (members : List (String × Json))
  deriving Repr, Inhabited

namespace Json

/-! ### Building values -/

def count (n : Nat) : Json := .number (.count n)

def int (i : Int) : Json :=
  match i with
  | .ofNat n => .number (.count n)
  | .negSucc n => .number (.negative (n + 1))

/-- A double as a value. -/
def real (x : Float) : Json := .number (.real x)

def single (x : Single) : Json := .number (.single x)

def strings (list : List String) : Json := .array (list.map .string)

/-- A value or null. -/
def optional {α : Type} (write : α → Json) : Option α → Json
  | some a => write a
  | none => .null

/-! ### Looking into values -/

/-- The value of the last member with a name. -/
def member? (name : String) : Json → Option Json
  | .object members => members.reverse.lookup name
  | _ => none

/-- The value of a member, unless it is missing or null. -/
def present? (name : String) (v : Json) : Option Json :=
  match v.member? name with
  | some .null => none
  | other => other

/-- The items of an array. -/
def items? : Json → Option (List Json)
  | .array items => some items
  | _ => none

/-- The members of an object. -/
def members? : Json → Option (List (String × Json))
  | .object members => some members
  | _ => none

def string? : Json → Option String
  | .string s => some s
  | _ => none

/-- The truth value that a value is. -/
def bool? : Json → Option Bool
  | .bool b => some b
  | _ => none

/-- The count that a value is, if it is below `bound`. -/
def countBelow? (bound : Nat) : Json → Option Nat
  | .number (.count n) => if n < bound then some n else none
  | _ => none

/-- The double that a number is; a single is widened. -/
def float? : Json → Option Float
  | .number (.count n) => some (Float.ofNat n)
  | .number (.negative n) => some (-Float.ofNat n)
  | .number (.real x) => some x
  | .number (.single x) => some x.toFloat
  | _ => none

/-- The single that a number is; a double is rounded. -/
def single? : Json → Option Single
  | .number (.count n) => some (Single.ofNat n)
  | .number (.negative n) => some (Single.ofFloat (-Float.ofNat n))
  | .number (.real x) => some (Single.ofFloat x)
  | .number (.single x) => some x
  | _ => none

def strings? (v : Json) : Option (List String) :=
  v.items?.bind (·.mapM string?)

end Json

end CodeIndex
