import CodeIndex.Toml.Scalar
import CodeIndex.Toml.Table

/-!
# TOML statements

A document is a row of statements: headers that open a table, and assignments of a value to a key. Values
are scalars, lists and inline tables. Which statements go together is not decided here.
-/

namespace CodeIndex.Toml

/-- A statement of a document. -/
inductive Statement where
  /-- Opens a table: `[a.b]`. -/
  | table (key : Key)
  /-- Opens the next table of a list: `[[a.b]]`. -/
  | item (key : Key)
  /-- Gives a key its value: `a.b = 1`. -/
  | assign (key : Key) (value : ConfigValue)
  deriving Repr

/-- How deep lists and inline tables nest, and how many names a key has, at most. -/
def depthLimit : Nat := 79

/-! ### Keys -/

/-- One name of a key: bare or quoted. -/
def name? (t : Text) : Option (Text × Text) :=
  match shortString? t with
  | some found => some found
  | none =>
    let (bare, rest) := t.span isBareKey
    if bare.isEmpty then none else some (bare, rest)

/-- The names of a key, parted by points, with the names read so far in reverse (`fuel` bounds their
number). -/
def readKey : (fuel : Nat) → (done : Key) → Text → Option (Key × Text)
  | 0, _, _ => none
  | fuel + 1, done, t =>
    match name? (skipBlanks t) with
    | none => none
    | some (name, rest) =>
      match skipBlanks rest with
      | '.' :: rest => readKey fuel (name :: done) rest
      | rest => some ((name :: done).reverse, rest)

/-- A key, with the blanks around it. -/
def key? (t : Text) : Option (Key × Text) :=
  readKey depthLimit [] t

/-! ### Values -/

/-- What follows a comment, up to the end of its line. -/
def skipComment : Text → Text
  | '#' :: rest => rest.dropWhile isPrintable
  | t => t

/-- What follows blanks, line ends and comments; a comment ends with its line (`fuel` bounds the number of
lines). -/
def skipTrivia : (fuel : Nat) → Text → Option Text
  | 0, t => some t
  | fuel + 1, t =>
    match skipBlanks t with
    | '#' :: rest => (lineEnd? (skipComment ('#' :: rest))).bind (skipTrivia fuel)
    | t =>
      match lineEnd? t with
      | some rest => skipTrivia fuel rest
      | none => some t

/-- The rest of a list behind its bracket or a comma, with the items read so far in reverse. -/
def readItems (value : Text → Option (ConfigValue × Text)) :
    (fuel : Nat) → (done : List ConfigValue) → Text → Option (ConfigValue × Text)
  | 0, _, _ => none
  | fuel + 1, done, t => do
    let t ← skipTrivia t.length t
    match t with
    | ']' :: rest => return (.list done.reverse, rest)
    | t =>
      let (v, rest) ← value t
      let rest ← skipTrivia rest.length rest
      match rest with
      | ',' :: rest => readItems value fuel (v :: done) rest
      | ']' :: rest => return (.list (v :: done).reverse, rest)
      | _ => none

def keyValue? (value : Text → Option (ConfigValue × Text)) (t : Text) :
    Option (Key × ConfigValue × Text) := do
  let (key, rest) ← key? t
  match rest with
  | '=' :: rest =>
    let (v, rest) ← value (skipBlanks rest)
    return (key, v, skipBlanks rest)
  | _ => none

/-- The rest of an inline table, with the entries read so far. -/
def readEntries (value : Text → Option (ConfigValue × Text)) :
    (fuel : Nat) → (done : List (Text × Node)) → Text → Option (ConfigValue × Text)
  | 0, _, _ => none
  | fuel + 1, done, t => do
    let (key, v, rest) ← keyValue? value t
    let done ← assign key v done
    match rest with
    | ',' :: rest => readEntries value fuel done rest
    | '\x7d' :: rest => return (.table (entriesToValues done), rest)
    | _ => none

/-- A value; `depth` bounds how deep lists and inline tables nest in it. -/
def value? : (depth : Nat) → Text → Option (ConfigValue × Text)
  | depth, '[' :: rest =>
    match depth with
    | 0 => none
    | depth + 1 => readItems (value? depth) (rest.length + 1) [] rest
  | depth, '\x7b' :: rest =>
    match depth with
    | 0 => none
    | depth + 1 =>
      match skipBlanks rest with
      | '\x7d' :: rest => some (.table [], rest)
      | rest => readEntries (value? depth) (rest.length + 1) [] rest
  | _, t => scalar? t

/-! ### Statements -/

/-- What follows the rest of a line that says nothing more. -/
def endOfLine? (t : Text) : Option Text :=
  match skipComment (skipBlanks t) with
  | [] => some []
  | t => lineEnd? t

/-- The header between brackets of which the first is read. -/
def header? (t : Text) : Option (Statement × Text) :=
  match t with
  | '[' :: rest => do
    let (key, rest) ← key? rest
    let rest ← word? "]]" rest
    return (.item key, rest)
  | rest => do
    let (key, rest) ← key? rest
    let rest ← word? "]" rest
    return (.table key, rest)

/-- One statement, with its line end. -/
def statement? (t : Text) : Option (Statement × Text) := do
  let (s, rest) ←
    match t with
    | '[' :: rest => header? rest
    | t => (keyValue? (value? depthLimit) t).map fun (key, v, rest) => (.assign key v, rest)
  let rest ← endOfLine? rest
  return (s, rest)

/-- The statements of a text, with those read so far in reverse (`fuel` bounds the number of lines). -/
def readStatements : (fuel : Nat) → (done : List Statement) → Text → Option (List Statement)
  | 0, _, _ => none
  | fuel + 1, done, t =>
    match skipBlanks t with
    | [] => some done.reverse
    | c :: rest =>
      if c = '#' ∨ c = '\n' ∨ c = '\r' then
        (endOfLine? (c :: rest)).bind (readStatements fuel done)
      else
        (statement? (c :: rest)).bind fun (s, rest) => readStatements fuel (s :: done) rest

/-- The statements of a document, which may start with a byte order mark. -/
def statements? (t : Text) : Option (List Statement) :=
  let body := match t with
    | '\uFEFF' :: rest => rest
    | t => t
  readStatements (body.length + 1) [] body

end CodeIndex.Toml
