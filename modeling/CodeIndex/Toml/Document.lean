import CodeIndex.Toml.Statement

/-!
# TOML documents

What the statements of a document make together: one table. A header opens a table at most once, a key
gets a value at most once, and a list of tables grows only through its own headers.
-/

namespace CodeIndex.Toml

/-! ### Headers -/

/-- Entries with the table of a header opened: a new one, or one that so far was only implied by headers
further in. -/
def openTable (key : Key) (entries : List (Text × Node)) : Option (List (Text × Node)) := do
  let name ← key.getLast?
  descend false (fun _ inner =>
    match inner.lookup name with
    | none => some (inner ++ [(name, .table false false [])])
    | some (.table true false held) => some (putNode name (.table false false held) inner)
    | some _ => none) key.dropLast false entries

/-- Entries with one more table in the list of a header. -/
def openItem (key : Key) (entries : List (Text × Node)) : Option (List (Text × Node)) := do
  let name ← key.getLast?
  descend false (fun _ inner =>
    match inner.lookup name with
    | none => some (inner ++ [(name, .items [[]])])
    | some (.items tables) => some (putNode name (.items (tables ++ [[]])) inner)
    | some _ => none) key.dropLast false entries

/-! ### Documents -/

/-- The entries of a document whose statements go on; assignments go to the table that was opened last. -/
def build : (opened : Key) → List (Text × Node) → List Statement → Option (List (Text × Node))
  | _, entries, [] => some entries
  | _, entries, .table key :: rest => do build key (← openTable key entries) rest
  | _, entries, .item key :: rest => do build key (← openItem key entries) rest
  | opened, entries, .assign key v :: rest => do
    build opened (← descend false (fun _ inner => assign key v inner) opened false entries) rest

/-- The table of a document; `none` if it breaks a rule. -/
def document? (t : Text) : Option ConfigValue := do
  let entries ← build [] [] (← statements? t)
  return .table (entriesToValues entries)

end CodeIndex.Toml
