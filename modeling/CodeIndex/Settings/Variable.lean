import CodeIndex.Number.Bound
import CodeIndex.Text.Blank
import CodeIndex.Text.Case
import CodeIndex.Toml.Scalar

/-!
# Variables

A variable of the environment whose name starts with `CS_` sets one value: `CS_SEARCH__DEFAULT_LIMIT=10`
sets `search.default_limit`. Its text is read as a truth value, a number, a list, a table or a string; a
text that cannot be read so is a string as a whole.
-/

namespace CodeIndex

/-- A variable of the environment. -/
structure Variable where
  name : Text
  value : Text
  deriving DecidableEq, Repr

namespace Variable

/-! ### Names -/

/-- The start of the names that count, in small letters. -/
def start : Text := "cs_".toList

/-- A text with a point for every two underscores. -/
def pointed : Text → Text
  | '_' :: '_' :: rest => '.' :: pointed rest
  | c :: rest => c :: pointed rest
  | [] => []

/-- The names that lead to what a variable sets, if it sets anything. -/
def key? (name : Text) : Option (List Text) :=
  let name := name.trim
  if (name.take start.length).map Char.toLower = start then
    let names := (pointed (Text.lower (name.drop start.length))).trim.splitOn (· == '.')
    if names.any (·.isEmpty) then none else some names
  else none

/-! ### Numbers -/

/-- A sign, true for minus, and what follows. -/
def signed : Text → Bool × Text
  | '-' :: rest => (true, rest)
  | '+' :: rest => (false, rest)
  | t => (false, t)

/-- A whole number in 64 bits, with or without a sign. -/
def whole? (t : Text) : Option Int :=
  let (negative, digits) := signed t
  if digits.isEmpty || !digits.all Char.isDigit then none
  else
    let n : Int := Json.digitsValue digits
    if negative then (if n ≤ bound63 then some (-n) else none)
    else if n < bound64 then some n
    else none

/-- A number with a point, that has digits on one of its sides, and perhaps an exponent. -/
def real? (t : Text) : Option Float :=
  let (negative, body) := signed t
  let (before, rest) := Json.takeDigits body
  match rest with
  | '.' :: rest =>
    let (after, rest) := Json.takeDigits rest
    if before.isEmpty && after.isEmpty then none
    else
      match Json.exponentPart? rest with
      | some (exponent, []) =>
        let x := Json.nearestFloat (Json.digitsValue (before ++ after))
          (exponent.getD 0 - after.length)
        some (if negative then -x else x)
      | _ => none
  | _ => none

/-! ### Values -/

/-- Whether white space of this kind may stand around values. -/
def isFiller (c : Char) : Bool :=
  c == ' ' || c == '\t' || c == '\n' || c == '\x0c' || c == '\r'

/-- The text without white space before it. -/
def skipFiller (t : Text) : Text := t.dropWhile isFiller

/-- Whether a character ends a bare value. -/
def endsBare (c : Char) : Bool :=
  c == ',' || c == '\x7b' || c == '\x7d' || c == '[' || c == ']'

/-- A value without brackets and quotes: a number, or else a string. -/
def bare (t : Text) : ConfigValue :=
  match real? t, whole? t with
  | some x, _ => .real x
  | none, some n => .whole n
  | none, none => .text t

/-- The rest of a list, with the items read so far in reverse. A comma may stand before the bracket. -/
def readItems (value : Text → Option (ConfigValue × Text)) :
    (fuel : Nat) → (done : List ConfigValue) → Text → Option (ConfigValue × Text)
  | 0, _, _ => none
  | fuel + 1, done, t =>
    match t with
    | ']' :: rest => some (.list done.reverse, rest)
    | t => do
      let (v, rest) ← value t
      match rest with
      | ',' :: rest => readItems value fuel (v :: done) rest
      | ']' :: rest => return (.list (v :: done).reverse, rest)
      | _ => none

/-- The name of an entry: in double quotes, or bare. -/
def entryName? (t : Text) : Option (Text × Text) :=
  match t with
  | '"' :: rest => Toml.readBasic (rest.length + 1) [] rest
  | t =>
    let (name, rest) := t.span Toml.isBareKey
    if name.isEmpty then none else some (name, rest)

/-- The rest of a table, with the entries read so far. The last value under a name counts. -/
def readEntries (value : Text → Option (ConfigValue × Text)) :
    (fuel : Nat) → (done : List (Text × ConfigValue)) → Text → Option (ConfigValue × Text)
  | 0, _, _ => none
  | fuel + 1, done, t =>
    match t with
    | '\x7d' :: rest => some (.table done, rest)
    | t => do
      let (name, rest) ← entryName? (skipFiller t)
      match skipFiller rest with
      | '=' :: rest =>
        let (v, rest) ← value rest
        let done := ConfigValue.putEntry name v done
        match rest with
        | ',' :: rest => readEntries value fuel done rest
        | '\x7d' :: rest => return (.table done, rest)
        | _ => none
      | _ => none

/-- A value with the white space around it, and what follows (`fuel` bounds how deep it nests). -/
def value? : (fuel : Nat) → Text → Option (ConfigValue × Text)
  | 0, _ => none
  | fuel + 1, t => do
    let t := skipFiller t
    let (v, rest) ←
      match Toml.word? "true" t, Toml.word? "false" t with
      | some rest, _ => some (.boolean true, rest)
      | none, some rest => some (.boolean false, rest)
      | none, none =>
        match t with
        | '\x7b' :: rest => readEntries (value? fuel) (rest.length + 1) [] rest
        | '[' :: rest => readItems (value? fuel) (rest.length + 1) [] rest
        | '"' :: rest =>
          (Toml.readBasic (rest.length + 1) [] rest).map fun (s, rest) => (.text s, rest)
        | '\'' :: c :: '\'' :: rest => some (.text [c], rest)
        | '\'' :: _ => none
        | t => some (bare (Text.trim (t.takeWhile (!endsBare ·))), t.dropWhile (!endsBare ·))
    return (v, skipFiller rest)

/-- What the text of a variable says. -/
def valueOf (t : Text) : ConfigValue :=
  let t := t.trim
  match value? (t.length + 1) t with
  | some (v, []) => v
  | _ => .text t

/-! ### Layers -/

/-- What variables say together; a later one counts more. -/
def layer (environment : List Variable) : ConfigValue :=
  environment.foldl (fun done v =>
    match key? v.name with
    | some names => done.merge (ConfigValue.nested names (valueOf v.value))
    | none => done) ConfigValue.empty

end Variable

end CodeIndex
