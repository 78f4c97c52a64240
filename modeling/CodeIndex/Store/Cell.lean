import CodeIndex.Json.Printer
import CodeIndex.Json.Reader
import CodeIndex.Number.Bound
import CodeIndex.Path.Order
import CodeIndex.Store.Error

/-!
# Cells

A cell of a table holds a whole number, a real number, a text or bytes, whatever its column was meant
for. Reading a cell as one of these fails when it holds another; the error names the column and its
place in the query. A text that holds a document keeps the document itself, and reads back as what its
text spells: the document, with null for reals that are not finite. Texts are in UTF-8.
-/

namespace CodeIndex

/-! ### Contents -/

/-- A stored text: plain characters, or a document in one line. -/
inductive Written where
  | plain (s : String)
  | document (v : Json)
  deriving Repr, Inhabited

namespace Written

/-- The characters of a stored text. -/
def text : Written → String
  | plain s => s
  | document v => v.compact

/-- The document that a stored text holds. -/
def document? : Written → Option Json
  | plain s => Json.ofText? s.toList
  | document v => some v.spelled

/-- What a stored text holds, by a reader of its document; `what` names it in the error. -/
def decode {α : Type} (what : String) (read : Json → Option α) (w : Written) :
    Except StoreError α :=
  match w.document?.bind read with
  | some a => .ok a
  | none => .error (.unreadable what none)

end Written

/-- What a cell holds. -/
inductive Cell where
  | integer (n : Int)
  | real (x : Float)
  | text (w : Written)
  | blob (bytes : List UInt8)
  deriving Repr, Inhabited

namespace Cell

def plain (s : String) : Cell := .text (.plain s)

def document (v : Json) : Cell := .text (.document v)

/-- Whether a cell holds the given text. -/
def isText (s : String) : Cell → Bool
  | .text w => w.text == s
  | _ => false

/-- Whether a cell holds a whole number. -/
def isInteger : Cell → Bool
  | .integer _ => true
  | _ => false

/-! ### Reading -/

/-- The name of what a cell holds. -/
def kindName : Cell → String
  | .integer _ => "Integer"
  | .real _ => "Real"
  | .text _ => "Text"
  | .blob _ => "Blob"

/-- The error for a cell that does not hold what its column is read as; `place` counts from 0. -/
def mismatch (place : Nat) (column : String) (c : Cell) : StoreError :=
  .database ("Invalid column type " ++ c.kindName ++ " at index: " ++ toString place ++ ", name: "
    ++ column)

def readWritten (place : Nat) (column : String) : Cell → Except StoreError Written
  | .text w => .ok w
  | c => .error (c.mismatch place column)

/-- The characters of a cell. -/
def readText (place : Nat) (column : String) (c : Cell) : Except StoreError String :=
  (c.readWritten place column).map Written.text

/-- The whole number of a cell. -/
def readInteger (place : Nat) (column : String) : Cell → Except StoreError Int
  | .integer n => .ok n
  | c => .error (c.mismatch place column)

/-- The real number of a cell; a whole number is one. -/
def readReal (place : Nat) (column : String) : Cell → Except StoreError Float
  | .real x => .ok x
  | .integer n => .ok (Float.ofInt n)
  | c => .error (c.mismatch place column)

def readBytes (place : Nat) (column : String) : Cell → Except StoreError (List UInt8)
  | .blob bytes => .ok bytes
  | c => .error (c.mismatch place column)

/-! ### Order -/

/-- A whole number that grows with a double that is a number; the zeros are alike. -/
def realKey (x : Float) : Int :=
  let bits := x.toBits.toNat
  if bits < bound63 then bits else -(bits - bound63 : Nat)

/-- The rank of a kind of cell: numbers, texts, bytes. -/
def rank : Cell → Nat
  | .integer _ => 0
  | .real _ => 0
  | .text _ => 1
  | .blob _ => 2

/-- How two lists of bytes compare. -/
def compareBytes : List UInt8 → List UInt8 → Ordering
  | [], [] => .eq
  | [], _ :: _ => .lt
  | _ :: _, [] => .gt
  | a :: s, b :: t => if a < b then .lt else if b < a then .gt else compareBytes s t

/-- How two cells compare: by rank, then by value; a whole number compares with a real one as a
double. -/
def compare : Cell → Cell → Ordering
  | .integer m, .integer n => Ord.compare m n
  | .integer m, .real y => Ord.compare (realKey (Float.ofInt m)) (realKey y)
  | .real x, .integer n => Ord.compare (realKey x) (realKey (Float.ofInt n))
  | .real x, .real y => Ord.compare (realKey x) (realKey y)
  | .text v, .text w => Text.compare v.text.toList w.text.toList
  | .blob s, .blob t => compareBytes s t
  | a, b => Ord.compare a.rank b.rank

/-- Whether two cells hold the same value. -/
def same (a b : Cell) : Bool := a.compare b == .eq

/-! ### Search -/

/-- Whether some bytes start with others. -/
def startsWithBytes : (bytes needle : List UInt8) → Bool
  | _, [] => true
  | [], _ :: _ => false
  | a :: bytes, b :: needle => a == b && startsWithBytes bytes needle

/-- Whether some bytes hold others in a row. -/
def hasBytes (needle : List UInt8) : List UInt8 → Bool
  | [] => needle.isEmpty
  | a :: rest => startsWithBytes (a :: rest) needle || hasBytes needle rest

/-- Whether a cell contains a text; in bytes, the bytes of the text are searched. The columns that are
searched hold no numbers. -/
def contains (needle : String) : Cell → Bool
  | .text w => Text.hasPart needle.toList w.text.toList
  | .blob bytes => hasBytes needle.toUTF8.toList bytes
  | _ => false

end Cell

end CodeIndex
