import CodeIndex.Store.Affinity
import CodeIndex.Store.Row

/-!
# Writing to the store

An entry is written only when its hash differs from the stored one. It takes the place of the row of
its path, or the last place when there is none; its structural row and its edges are written anew at the
end of their tables. An entry with a row that the database refuses leaves the store as it was. Sighted
names are counted, and stay when files go.
-/

namespace CodeIndex.Store

/-! ### Rows of a path -/

def fileRow? (s : Store) (path : String) : Option FileRow :=
  s.files.find? (·.path.isText path)

/-- The structural row of a path. -/
def structureRow? (s : Store) (path : String) : Option StructureRow :=
  s.structures.find? (·.path.isText path)

/-- The stored hash of a path, if it has a row. -/
def contentHash (s : Store) (path : String) : Except StoreError (Option String) :=
  match s.fileRow? path with
  | some r => (r.contentHash.readText 0 "content_hash").map some
  | none => .ok none

/-- The store without the structural row and the edges of a path. -/
def dropAnalysis (s : Store) (path : String) : Store :=
  { s with
    structures := s.structures.filter (!·.path.isText path)
    edges := s.edges.filter (!·.source.isText path) }

/-! ### Entries -/

/-- The rows with the row of a path in its place, or at the end when the path has none. -/
def putFile (path : String) (row : FileRow) : List FileRow → List FileRow
  | [] => [row]
  | r :: rest => if r.path.isText path then row :: rest else r :: putFile path row rest

/-- The store with the rows of an entry. -/
def write (now : String) (e : FileEntry) (s : Store) : Store :=
  let s := { s with files := putFile e.path (.ofEntry now e) s.files }
  let s := s.dropAnalysis e.path
  match e.analysis with
  | none => s
  | some a =>
    { s with
      structures := s.structures ++ [.of now e.path e.contentHash a]
      edges := s.edges ++ a.relations.map (.of now) }

/-- The refusal of an edge without a strength. -/
def missingStrength : StoreError :=
  .database "NOT NULL constraint failed: code_relationships.strength"

/-- Puts the rows of an entry. The database takes what is no number for no value, and an edge needs a
strength: an entry with an edge that has none is refused as a whole. -/
def put (now : String) (e : FileEntry) (s : Store) : Except StoreError Store :=
  if e.hasStrengths then .ok (s.write now e) else .error missingStrength

/-- Writes an entry, unless its hash is stored already. -/
def upsert (now : String) (e : FileEntry) (s : Store) : Except StoreError (UpsertOutcome × Store) := do
  match ← s.contentHash e.path with
  | none => return (.inserted, ← s.put now e)
  | some previous =>
    if previous = e.contentHash then return (.unchanged, s)
    else return (.replaced previous, ← s.put now e)

/-- Removes what is stored for a path; tells whether it had a row. -/
def remove (path : String) (s : Store) : Bool × Store :=
  ((s.fileRow? path).isSome,
    { s with files := s.files.filter (!·.path.isText path) }.dropAnalysis path)

/-! ### Sighted names -/

def isPattern (patternType content : String) (r : PatternRow) : Bool :=
  r.patternType.isText patternType && r.content.isText content

/-- A row with one more sighting in a file. -/
def sighted (path : String) (r : PatternRow) : Except StoreError PatternRow := do
  let files ← decodePaths (← r.files.readWritten 1 "file_paths_json")
  let files := if files.contains path then files else files ++ [path]
  return { r with files := .document (.strings files), frequency := r.frequency.successor }

/-- The rows with one more sighting of a name; a name seen for the first time comes last. -/
def countSighting (now patternType content path : String) :
    List PatternRow → Except StoreError (List PatternRow)
  | [] => .ok [.first now patternType content path]
  | r :: rest =>
    if isPattern patternType content r then do return (← sighted path r) :: rest
    else do return r :: (← countSighting now patternType content path rest)

/-- Counts a sighting of a name of a type in a file. -/
def recordPattern (now patternType content path : String) (s : Store) : Except StoreError Store := do
  return { s with patterns := ← countSighting now patternType content path s.patterns }

end CodeIndex.Store
