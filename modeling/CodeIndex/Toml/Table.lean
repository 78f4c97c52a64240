import CodeIndex.Settings.Value

/-!
# TOML tables under construction

Keys with several names and headers make tables on the way, and some of those may be taken up again later.
A node remembers how its table came about until the document is read.
-/

namespace CodeIndex.Toml

/-- The names that lead to an entry, from the outside in; there is at least one. -/
abbrev Key := List Text

/-! ### Nodes -/

/-- What stands under a name of a table. -/
inductive Node where
  | value (v : ConfigValue)
  /-- A table; `implied` while no header has opened it, `dotted` if a key with points made it. -/
  | table (implied dotted : Bool) (entries : List (Text × Node))
  /-- The entries of the tables of a list. -/
  | items (tables : List (List (Text × Node)))
  deriving Repr, Inhabited

/-- Entries with a node under a name, in the place of what was there. -/
def putNode (name : Text) (n : Node) : List (Text × Node) → List (Text × Node)
  | [] => [(name, n)]
  | e :: rest => if e.1 = name then (name, n) :: rest else e :: putNode name n rest

/-! ### Changes -/

/-- The entries below a list of names, changed. Tables on the way are made where they are missing; of a
list of tables the last one is taken; a key with points (`dotted`) passes no table that a header opened.
The change also learns whether a key with points made the table that it changes. -/
def descend (dotted : Bool) (change : Bool → List (Text × Node) → Option (List (Text × Node))) :
    (names : List Text) → (here : Bool) → List (Text × Node) → Option (List (Text × Node))
  | [], here, entries => change here entries
  | name :: rest, _, entries =>
    match (entries.lookup name).getD (.table true dotted []) with
    | .value _ => none
    | .table implied made inner =>
      if dotted && !implied then none
      else do
        let inner ← descend dotted change rest made inner
        return putNode name (.table implied made inner) entries
    | .items tables => do
      let last ← tables.getLast?
      let last ← descend dotted change rest false last
      return putNode name (.items (tables.dropLast ++ [last])) entries

/-- Entries with a value under a key that has none yet. -/
def assign (key : Key) (v : ConfigValue) (entries : List (Text × Node)) :
    Option (List (Text × Node)) := do
  let name ← key.getLast?
  let path := key.dropLast
  descend true (fun made inner =>
    if made == path.isEmpty || (inner.lookup name).isSome then none
    else some (inner ++ [(name, .value v)])) path false entries

/-! ### Values -/

mutual

/-- The value that a node stands for. -/
def Node.toValue : Node → ConfigValue
  | .value v => v
  | .table _ _ entries => .table (entriesToValues entries)
  | .items tables => .list (tablesToValues tables)

/-- The values that nodes under names stand for. -/
def entriesToValues : List (Text × Node) → List (Text × ConfigValue)
  | [] => []
  | (name, n) :: rest => (name, n.toValue) :: entriesToValues rest

/-- The values that the tables of a list stand for. -/
def tablesToValues : List (List (Text × Node)) → List ConfigValue
  | [] => []
  | entries :: rest => .table (entriesToValues entries) :: tablesToValues rest

end

end CodeIndex.Toml
