import CodeIndex.Decimal.Shortest
import CodeIndex.Json.Basic

/-!
# Writing JSON text

Documents in one line without blanks, or indented by two spaces. In strings, quotes, backslashes and
control characters are escaped, and nothing else; reals are shown by their shortest decimals. There is no
text for a real that is not finite: null is written in its place, and is all that is left of it.
-/

namespace CodeIndex.Json

/-! ### Scalars -/

/-- A hexadecimal digit in lower case. -/
def hexChar (n : Nat) : Char :=
  if n < 10 then Char.ofNat (48 + n) else Char.ofNat (87 + n)

/-- A character as it stands in a string. -/
def escapeChar (c : Char) : List Char :=
  if c == '"' then ['\\', '"']
  else if c == '\\' then ['\\', '\\']
  else if c == '\n' then ['\\', 'n']
  else if c == '\r' then ['\\', 'r']
  else if c == '\t' then ['\\', 't']
  else if c == '\x08' then ['\\', 'b']
  else if c == '\x0c' then ['\\', 'f']
  else if c.toNat < 32 then ['\\', 'u', '0', '0', hexChar (c.toNat / 16), hexChar (c.toNat % 16)]
  else [c]

def quote (s : String) : String :=
  "\"" ++ String.ofList (s.toList.flatMap escapeChar) ++ "\""

/-- The shortest decimal of a finite value, else null. -/
def finiteText (x : BinaryValue) : String :=
  match x with
  | .finite .. => x.text
  | _ => "null"

/-- A number; what is not finite is written as null. -/
def numberText : JsonNumber → String
  | .count n => toString n
  | .negative n => "-" ++ toString n
  | .real x => finiteText (BinaryValue.ofFloat x)
  | .single x => finiteText (BinaryValue.ofSingleBits x.bits)

/-! ### Documents -/

mutual

/-- A value in one line. -/
def compact : Json → String
  | .null => "null"
  | .bool true => "true"
  | .bool false => "false"
  | .number n => numberText n
  | .string s => quote s
  | .array items => "[" ++ ",".intercalate (compactItems items) ++ "]"
  | .object members => "\x7b" ++ ",".intercalate (compactMembers members) ++ "\x7d"

/-- The items of an array in one line each. -/
def compactItems : List Json → List String
  | [] => []
  | v :: rest => compact v :: compactItems rest

/-- The members of an object in one line each. -/
def compactMembers : List (String × Json) → List String
  | [] => []
  | (name, v) :: rest => (quote name ++ ":" ++ compact v) :: compactMembers rest

end

/-- A line break and the given indentation. -/
def newline (indent : Nat) : String :=
  "\n" ++ String.ofList (List.replicate indent ' ')

mutual

/-- A value in indented lines. -/
def pretty (indent : Nat) : Json → String
  | .array [] => "[]"
  | .array items =>
    let inner := newline (indent + 2)
    "[" ++ inner ++ ("," ++ inner).intercalate (prettyItems (indent + 2) items) ++ newline indent
      ++ "]"
  | .object [] => "\x7b\x7d"
  | .object members =>
    let inner := newline (indent + 2)
    "\x7b" ++ inner ++ ("," ++ inner).intercalate (prettyMembers (indent + 2) members)
      ++ newline indent ++ "\x7d"
  | v => compact v

/-- The items of an array, each in indented lines. -/
def prettyItems (indent : Nat) : List Json → List String
  | [] => []
  | v :: rest => pretty indent v :: prettyItems indent rest

/-- The members of an object, each in indented lines. -/
def prettyMembers (indent : Nat) : List (String × Json) → List String
  | [] => []
  | (name, v) :: rest => (quote name ++ ": " ++ pretty indent v) :: prettyMembers indent rest

end

/-! ### What is left in a text -/

mutual

/-- A value as its text spells it. -/
def spelled : Json → Json
  | .number n => if n.isFinite then .number n else .null
  | .array items => .array (spelledItems items)
  | .object members => .object (spelledMembers members)
  | v => v

/-- The items of an array as their text spells them. -/
def spelledItems : List Json → List Json
  | [] => []
  | v :: rest => spelled v :: spelledItems rest

/-- The members of an object as their text spells them. -/
def spelledMembers : List (String × Json) → List (String × Json)
  | [] => []
  | (name, v) :: rest => (name, spelled v) :: spelledMembers rest

end

end CodeIndex.Json
