import CodeIndex.Json.Basic
import CodeIndex.Number.Bound
import CodeIndex.Text.Basic

/-!
# Reading JSON text

The text holds one value, with blanks around its parts. Control characters stand in no string, a
surrogate escape is one half of a pair, and containers nest less than 128 deep. A whole number
outside 64 bits is read as a real number, and a number too large for a double is refused.
-/

namespace CodeIndex.Json

/-! ### Characters -/

/-- Whether a character may stand between the parts of a document. -/
def isFiller (c : Char) : Bool :=
  c == ' ' || c == '\n' || c == '\t' || c == '\r'

/-- The text without leading fillers. -/
def skipFiller (t : Text) : Text :=
  t.dropWhile isFiller

/-- The value of a hexadecimal digit. -/
def hexDigit? (c : Char) : Option Nat :=
  if '0' ≤ c ∧ c ≤ '9' then some (c.toNat - 48)
  else if 'a' ≤ c ∧ c ≤ 'f' then some (c.toNat - 87)
  else if 'A' ≤ c ∧ c ≤ 'F' then some (c.toNat - 55)
  else none

/-- The value of four hexadecimal digits, and what follows them. -/
def hexFour? : Text → Option (Nat × Text)
  | a :: b :: c :: d :: rest => do
    let a ← hexDigit? a
    let b ← hexDigit? b
    let c ← hexDigit? c
    let d ← hexDigit? d
    return (((a * 16 + b) * 16 + c) * 16 + d, rest)
  | _ => none

/-- The character of a one-letter escape. -/
def shortEscape? (c : Char) : Option Char :=
  [('"', '"'), ('\\', '\\'), ('/', '/'), ('b', '\x08'), ('f', '\x0c'), ('n', '\n'), ('r', '\r'),
    ('t', '\t')].lookup c

/-- The character of an escape with hexadecimal digits, behind its letter, and what follows. -/
def unicodeEscape? (t : Text) : Option (Char × Text) := do
  let (unit, rest) ← hexFour? t
  if 0xD800 ≤ unit ∧ unit < 0xDC00 then
    match rest with
    | '\\' :: 'u' :: rest =>
      let (low, rest) ← hexFour? rest
      if 0xDC00 ≤ low ∧ low < 0xE000 then
        some (Char.ofNat (0x10000 + (unit - 0xD800) * 1024 + (low - 0xDC00)), rest)
      else none
    | _ => none
  else if 0xDC00 ≤ unit ∧ unit < 0xE000 then none
  else some (Char.ofNat unit, rest)

/-- The rest of a string behind its opening quote, with the characters read so far in reverse. -/
def readString : (fuel : Nat) → (done : List Char) → Text → Option (String × Text)
  | 0, _, _ => none
  | fuel + 1, done, t =>
    match t with
    | [] => none
    | '"' :: rest => some (String.ofList done.reverse, rest)
    | '\\' :: 'u' :: rest =>
      match unicodeEscape? rest with
      | some (c, rest) => readString fuel (c :: done) rest
      | none => none
    | '\\' :: e :: rest =>
      match shortEscape? e with
      | some c => readString fuel (c :: done) rest
      | none => none
    | c :: rest => if c.toNat < 32 then none else readString fuel (c :: done) rest

/-! ### Numbers -/

/-- The value of decimal digits. -/
def digitsValue (t : Text) : Nat :=
  t.foldl (fun n c => n * 10 + (c.toNat - 48)) 0

/-- The leading digits of a text, and what follows. -/
def takeDigits (t : Text) : Text × Text :=
  (t.takeWhile Char.isDigit, t.dropWhile Char.isDigit)

/-- The digits of the whole part: one zero, or digits that do not start with a zero. -/
def wholePart? (t : Text) : Option (Text × Text) :=
  match takeDigits t with
  | ([], _) => none
  | (['0'], rest) => some (['0'], rest)
  | ('0' :: _, _) => none
  | other => some other

/-- The digits behind a point, if there is one. -/
def fractionPart? (t : Text) : Option (Option Text × Text) :=
  match t with
  | '.' :: rest =>
    match takeDigits rest with
    | ([], _) => none
    | (digits, rest) => some (some digits, rest)
  | _ => some (none, t)

/-- The signed exponent, if there is one. -/
def exponentPart? (t : Text) : Option (Option Int × Text) :=
  let signed (rest : Text) : Option (Option Int × Text) :=
    let (negative, rest) :=
      match rest with
      | '-' :: rest => (true, rest)
      | '+' :: rest => (false, rest)
      | _ => (false, rest)
    match takeDigits rest with
    | ([], _) => none
    | (digits, rest) =>
      let n : Int := digitsValue digits
      some (some (if negative then -n else n), rest)
  match t with
  | 'e' :: rest => signed rest
  | 'E' :: rest => signed rest
  | _ => some (none, t)

/-- The double nearest to `digits · 10 ^ exponent`. -/
def nearestFloat (digits : Nat) (exponent : Int) : Float :=
  if digits = 0 then 0.0
  else
    let magnitude : Int := (toString digits).length + exponent
    if magnitude > 400 then 1.0 / 0.0
    else if magnitude < -400 then 0.0
    else Float.ofScientific digits (exponent < 0) exponent.natAbs

/-- A number and what follows it; `negative` tells whether a minus sign came before. -/
def readNumber (negative : Bool) (t : Text) : Option (Json × Text) := do
  let (whole, rest) ← wholePart? t
  let (fraction, rest) ← fractionPart? rest
  let (exponent, rest) ← exponentPart? rest
  let n := digitsValue whole
  let isWhole := fraction.isNone && exponent.isNone
  if isWhole && !negative && n < bound64 then return (.number (.count n), rest)
  if isWhole && negative && 0 < n && n ≤ bound63 then return (.number (.negative n), rest)
  let fraction := fraction.getD []
  let x := nearestFloat (digitsValue (whole ++ fraction)) (exponent.getD 0 - fraction.length)
  if x.isInf then none
  else return (.number (.real (if negative then -x else x)), rest)

/-! ### Values -/

mutual

/-- One value and what follows it. -/
def readValue (depth : Nat) : (fuel : Nat) → Text → Option (Json × Text)
  | 0, _ => none
  | fuel + 1, t =>
    match skipFiller t with
    | 'n' :: 'u' :: 'l' :: 'l' :: rest => some (.null, rest)
    | 't' :: 'r' :: 'u' :: 'e' :: rest => some (.bool true, rest)
    | 'f' :: 'a' :: 'l' :: 's' :: 'e' :: rest => some (.bool false, rest)
    | '"' :: rest =>
      match readString (rest.length + 1) [] rest with
      | some (s, rest) => some (.string s, rest)
      | none => none
    | '[' :: rest =>
      if depth ≤ 1 then none
      else
        match skipFiller rest with
        | ']' :: rest => some (.array [], rest)
        | rest => readItems (depth - 1) fuel [] rest
    | '{' :: rest =>
      if depth ≤ 1 then none
      else
        match skipFiller rest with
        | '}' :: rest => some (.object [], rest)
        | rest => readMembers (depth - 1) fuel [] rest
    | '-' :: rest => readNumber true rest
    | rest => readNumber false rest

/-- The items of an array up to its end, with those read so far in reverse. -/
def readItems (depth : Nat) : (fuel : Nat) → (done : List Json) → Text → Option (Json × Text)
  | 0, _, _ => none
  | fuel + 1, done, t =>
    match readValue depth fuel t with
    | none => none
    | some (v, rest) =>
      match skipFiller rest with
      | ',' :: rest => readItems depth fuel (v :: done) rest
      | ']' :: rest => some (.array (v :: done).reverse, rest)
      | _ => none

/-- The members of an object up to its end, with those read so far in reverse. -/
def readMembers (depth : Nat) :
    (fuel : Nat) → (done : List (String × Json)) → Text → Option (Json × Text)
  | 0, _, _ => none
  | fuel + 1, done, t =>
    match skipFiller t with
    | '"' :: rest =>
      match readString (rest.length + 1) [] rest with
      | none => none
      | some (name, rest) =>
        match skipFiller rest with
        | ':' :: rest =>
          match readValue depth fuel rest with
          | none => none
          | some (v, rest) =>
            match skipFiller rest with
            | ',' :: rest => readMembers depth fuel ((name, v) :: done) rest
            | '}' :: rest => some (.object ((name, v) :: done).reverse, rest)
            | _ => none
        | _ => none
    | _ => none

end

/-- The value that a text holds. -/
def ofText? (t : Text) : Option Json :=
  match readValue 128 (2 * t.length + 2) t with
  | some (v, rest) => if (skipFiller rest).isEmpty then some v else none
  | none => none

end CodeIndex.Json
