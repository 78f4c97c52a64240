import CodeIndex.Json.Printer
import CodeIndex.Number.Bound
import CodeIndex.Toml.Scalar

/-!
# Writing TOML

Assignments and headers as text. A string is written in the plainest of five spellings that can hold it.
-/

namespace CodeIndex.Toml

/-! ### Strings -/

/-- The length of the longest run of a character. -/
def longestRun (c : Char) (t : Text) : Nat :=
  (t.splitOn (· != c)).foldl (fun n run => max n run.length) 0

/-- Whether a character has no spelling of its own. -/
def isControl (c : Char) : Bool :=
  (c.toNat < 32 && c != '\t' && c != '\n') || c.toNat == 127

/-- How a string is spelt. -/
inductive Spelling where
  /-- In double quotes, with escapes. -/
  | basic
  /-- In single quotes, as it is. -/
  | verbatim
  /-- In three double quotes, with escapes and line ends. -/
  | longBasic
  /-- In three single quotes, as it is, with line ends. -/
  | longVerbatim
  deriving DecidableEq, Repr

/-- The spelling of a string: the first that needs no escape, and otherwise one with escapes. -/
def Spelling.of (t : Text) : Spelling :=
  let plain := !t.any isControl
  let lines := t.contains '\n'
  let doubles := longestRun '"' t
  let singles := longestRun '\'' t
  let unescaped := plain && !t.contains '\\'
  if unescaped && doubles == 0 && !lines then .basic
  else if plain && singles == 0 && !lines then .verbatim
  else if unescaped && doubles ≤ 2 then .longBasic
  else if plain && singles ≤ 2 then .longVerbatim
  else if lines then .longBasic
  else .basic

/-- A character behind a backslash, if it is written so. -/
def escaped? (c : Char) : Option Text :=
  match c with
  | '\x08' => some ['b']
  | '\t' => some ['t']
  | '\n' => some ['n']
  | '\x0c' => some ['f']
  | '\r' => some ['r']
  | '\\' => some ['\\']
  | c =>
    if isControl c then
      some ['u', '0', '0', Json.hexChar (c.toNat / 16) |>.toUpper, Json.hexChar (c.toNat % 16) |>.toUpper]
    else none

/-- The inside of a string with escapes. At most `limit` double quotes stand in a row, and a long string
keeps its line ends; `run` quotes have just been written. -/
def escapeAll (long : Bool) (limit : Nat) : (run : Nat) → Text → Text
  | _, [] => []
  | run, c :: rest =>
    if c = '"' then
      if run < limit then c :: escapeAll long limit (run + 1) rest
      else '\\' :: c :: escapeAll long limit 0 rest
    else if c = '\n' ∧ long then c :: escapeAll long limit 0 rest
    else
      match escaped? c with
      | some code => '\\' :: code ++ escapeAll long limit 0 rest
      | none => c :: escapeAll long limit 0 rest

/-- A line end behind the opening quotes, which readers drop, if the string has line ends itself. -/
def opening (t : Text) : Text :=
  if t.contains '\n' then ['\n'] else []

def string (t : Text) : Text :=
  match Spelling.of t with
  | .basic => '"' :: escapeAll false 0 0 t ++ ['"']
  | .verbatim => '\'' :: t ++ ['\'']
  | .longBasic => "\"\"\"".toList ++ opening t ++ escapeAll true 2 0 t ++ "\"\"\"".toList
  | .longVerbatim => "'''".toList ++ opening t ++ t ++ "'''".toList

/-! ### Documents -/

/-- A list of strings: several stand on lines of their own. -/
def strings : List Text → Text
  | [] => "[]".toList
  | [t] => '[' :: string t ++ [']']
  | several =>
    "[\n".toList ++ several.flatMap (fun t => "    ".toList ++ string t ++ ",\n".toList) ++ [']']

/-- A truth value. -/
def boolean (b : Bool) : Text :=
  (if b then "true" else "false").toList

/-- A whole number that is not negative; numbers take 63 bits. -/
def count? (n : Nat) : Option Text :=
  if n < bound63 then some (Nat.toDigits 10 n) else none

/-- A line that gives a name its value. -/
def line (name : String) (value : Text) : Text :=
  name.toList ++ " = ".toList ++ value ++ ['\n']

/-- The header of a table, with an empty line before it. -/
def header (name : String) : Text :=
  "\n[".toList ++ name.toList ++ "]\n".toList

end CodeIndex.Toml
