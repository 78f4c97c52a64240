import CodeIndex.Number.Bound
import CodeIndex.Store.Basic

/-!
# Reading from the store

Queries read the cells of all rows that they need before they decode any of them. Files come in the
order of their rows; edges by strength, the strongest first; sighted names by frequency, the most
frequent first, then by name.
-/

namespace CodeIndex.Store

/-! ### Files -/

def get (s : Store) (path : String) : Except StoreError (Option StoredFile) := do
  match s.fileRow? path with
  | none => return none
  | some row =>
    let file ← (← row.read).decode
    match s.structureRow? path with
    | none => return some ⟨file, none⟩
    | some row => return some ⟨file, some (← (← row.read).decode)⟩

def allFiles (s : Store) : Except StoreError (List FileRecord) := do
  (← s.files.mapM (·.read)).mapM (·.decode)

/-- The design patterns of all analyzed files. -/
def allPatterns (s : Store) : Except StoreError (List (String × List DesignPattern)) := do
  (← s.structures.mapM (·.readPatterns)).mapM fun (path, w) => do
    return (path, ← decodePatterns w)

/-! ### Edges -/

/-- Whether an edge may stand before another in the order of strength. -/
def strongerFirst (a b : EdgeRow) : Bool :=
  a.strength.compare b.strength != .lt

/-- The edges that satisfy a condition, the strongest first. -/
def edgesWhere (s : Store) (holds : EdgeRow → Bool) : Except StoreError (List Relation) := do
  (← ((s.edges.filter holds).mergeSort strongerFirst).mapM (·.read)).mapM (·.decode)

/-- All edges. -/
def relationGraph (s : Store) : Except StoreError (List Relation) :=
  s.edgesWhere fun _ => true

/-- An edge as seen from a path at one of its ends. -/
def seenFrom (path : String) (r : Relation) : RelatedFile :=
  if r.source = path then ⟨r.target, r.kind, r.strength, .outgoing, r.metadata⟩
  else ⟨r.source, r.kind, r.strength, .incoming, r.metadata⟩

def touches (path : String) (kinds : List RelationKind) (r : EdgeRow) : Bool :=
  (r.source.isText path || r.target.isText path) && kinds.any fun k => r.kind.isText k.name

/-- The largest number of values that a query takes. -/
def maxValues : Nat := 32766

/-- The query for the edges that touch a path, up to the list of their kinds. The path is value 1. -/
def relatedQueryHead : String :=
  "SELECT source, target, relationship_type, strength, metadata_json FROM code_relationships\n"
    ++ "             WHERE (source = ?1 OR target = ?1) AND relationship_type IN ("

/-- The places of as many kinds in the query, whose values follow that of the path. -/
def kindPlaces (count : Nat) : String :=
  ", ".intercalate ((List.range count).map fun i => "?" ++ toString (i + 2))

/-- The error of a query for more kinds than it takes: the first place without a value. -/
def tooManyKinds (count : Nat) : StoreError :=
  let places := relatedQueryHead ++ kindPlaces (maxValues - 1) ++ ", "
  .database ("variable number must be between ?1 and ?" ++ toString maxValues ++ " in "
    ++ relatedQueryHead ++ kindPlaces count ++ ")\n             ORDER BY strength DESC, id at offset "
    ++ toString places.length)

/-- The edges of the given kinds that touch a path. -/
def relatedTo (s : Store) (path : String) (kinds : List RelationKind) :
    Except StoreError (List RelatedFile) :=
  if kinds.isEmpty then .ok []
  else if maxValues ≤ kinds.length then .error (tooManyKinds kinds.length)
  else (s.edgesWhere (touches path kinds)).map (·.map (seenFrom path))

/-! ### Sighted names -/

/-- Whether a row of a name may stand before another: the more frequent first, then by name. -/
def frequentFirst (a b : PatternRow) : Bool :=
  match a.frequency.compare b.frequency with
  | .gt => true
  | .lt => false
  | .eq => a.content.compare b.content != .gt

/-- Whether a row is of the given type, if any, and its name contains a text. -/
def isFound (patternType : Option String) (needle : String) (r : PatternRow) : Bool :=
  patternType.all (r.patternType.isText ·) && (needle.isEmpty || r.content.contains needle)

/-- A limit of 2^63 or more is none. -/
def limited {α : Type} (limit : Nat) (list : List α) : List α :=
  if limit < bound63 then list.take limit else list

/-- The most frequent names that contain a text. -/
def findPatterns (s : Store) (patternType : Option String) (needle : String) (limit : Nat) :
    Except StoreError (List PatternRecord) := do
  let found := (s.patterns.filter (isFound patternType needle)).mergeSort frequentFirst
  (← (limited limit found).mapM (·.read)).mapM (·.decode)

/-! ### Summaries -/

def totalSizeColumn : String := "COALESCE(SUM(file_size), 0)"

/-- The sum of whole numbers, or the error for another kind of cell or for a sum of more than 64 bits.
A real number that comes after such a sum makes the sum real. -/
def totalSize : (sum : Int) → List Cell → Except StoreError Int
  | sum, [] => .ok sum
  | sum, .integer n :: rest =>
    let next := sum + n
    if -bound63 ≤ next ∧ next < bound63 then totalSize next rest
    else if rest.all Cell.isInteger then .error (.database "integer overflow")
    else .error (Cell.mismatch 1 totalSizeColumn (.real 0))
  | _, _ :: _ => .error (Cell.mismatch 1 totalSizeColumn (.real 0))

/-- How often each text occurs, in the order of the texts. -/
def tally (names : List String) : List (String × Nat) :=
  (names.eraseDups.mergeSort fun a b => a ≤ b).map fun name => (name, names.count name)

/-- The summary of a store; a negative total size stands for 0. -/
def stats (s : Store) : Except StoreError StoreStats := do
  let size ← totalSize 0 (s.files.map (·.fileSize))
  let languages ← s.files.mapM (·.language.readText 0 "language")
  let patternTypes ← s.patterns.mapM (·.patternType.readText 0 "pattern_type")
  return {
    totalFiles := s.files.length
    totalSize := size.toNat
    languages := tally languages
    patternTypes := tally patternTypes
    relations := s.edges.length }

end CodeIndex.Store
