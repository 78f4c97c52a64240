import CodeIndex.Text.Basic

/-!
# Configured values

What a settings file or a variable says: plain values, lists, and tables of named values. Layers are
merged table by table; where one of two values is no table, the later one counts.
-/

namespace CodeIndex

/-- A configured value. -/
inductive ConfigValue where
  | text (t : Text)
  | whole (n : Int)
  | real (x : Float)
  | boolean (b : Bool)
  | list (items : List ConfigValue)
  | table (entries : List (Text × ConfigValue))
  deriving Repr, Inhabited

namespace ConfigValue

/-- The table without entries. -/
def empty : ConfigValue := .table []

/-- The value under a name, of a table. -/
def entry? (name : Text) : ConfigValue → Option ConfigValue
  | .table entries => entries.lookup name
  | _ => none

/-- Entries with a value under a name, in the place of what was there. -/
def putEntry (name : Text) (v : ConfigValue) :
    List (Text × ConfigValue) → List (Text × ConfigValue)
  | [] => [(name, v)]
  | e :: rest => if e.1 = name then (name, v) :: rest else e :: putEntry name v rest

mutual

/-- A value with a later one merged into it. -/
def merge (old : ConfigValue) : ConfigValue → ConfigValue
  | .table new =>
    match old with
    | .table entries => .table (mergeEntries entries new)
    | _ => .table new
  | other => other

/-- Entries with later ones merged into them. -/
def mergeEntries (old : List (Text × ConfigValue)) :
    List (Text × ConfigValue) → List (Text × ConfigValue)
  | [] => old
  | (name, v) :: rest =>
    let merged :=
      match old.lookup name with
      | some before => merge before v
      | none => v
    mergeEntries (putEntry name merged old) rest

end

/-- A value below a list of names, each the only entry of its table. -/
def nested (names : List Text) (v : ConfigValue) : ConfigValue :=
  match names with
  | [] => v
  | name :: rest => .table [(name, nested rest v)]

end ConfigValue

end CodeIndex
