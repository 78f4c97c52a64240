import CodeIndex.Store.Affinity
import CodeIndex.Store.Table

/-!
# Overwriting cells

Another program that shares the tables may overwrite the cells of a column in the rows with a given
key. The column keeps the new cell by its affinity; nothing changes when two rows would then have the
same unique key.
-/

namespace CodeIndex

/-! ### Columns -/

/-- A column of the rows of files. -/
inductive FileColumn where
  | path
  | contentHash
  | embedding
  | metadata
  | modelType
  | fileSize
  | language
  | createdAt
  deriving DecidableEq, Repr

/-- A column of the structural rows. -/
inductive StructureColumn where
  | path
  | contentHash
  | description
  | patterns
  | metrics
  | relations
  | createdAt
  deriving DecidableEq, Repr

/-- A column of the rows of sighted names. -/
inductive PatternColumn where
  | patternType
  | content
  | files
  | frequency
  | createdAt
  deriving DecidableEq, Repr

/-- A column of the rows of edges. -/
inductive EdgeColumn where
  | source
  | target
  | kind
  | strength
  | metadata
  | createdAt
  deriving DecidableEq, Repr

/-- A column of one of the tables. -/
inductive Column where
  | file (c : FileColumn)
  | structural (c : StructureColumn)
  | pattern (c : PatternColumn)
  | edge (c : EdgeColumn)
  deriving DecidableEq, Repr

/-- The columns by the names of their tables and their own. -/
def Column.named : List ((String × String) × Column) :=
  let files := [("path", FileColumn.path), ("content_hash", .contentHash), ("embedding", .embedding),
    ("metadata_json", .metadata), ("model_type", .modelType), ("file_size", .fileSize),
    ("language", .language), ("created_at", .createdAt)]
  let structures := [("path", StructureColumn.path), ("content_hash", .contentHash),
    ("ast_json", .description), ("architectural_patterns_json", .patterns),
    ("code_metrics_json", .metrics), ("relationships_json", .relations),
    ("created_at", .createdAt)]
  let patterns := [("pattern_type", PatternColumn.patternType), ("pattern_content", .content),
    ("file_paths_json", .files), ("frequency", .frequency), ("created_at", .createdAt)]
  let edges := [("source", EdgeColumn.source), ("target", .target), ("relationship_type", .kind),
    ("strength", .strength), ("metadata_json", .metadata), ("created_at", .createdAt)]
  (files.map fun (name, c) => (("embeddings", name), .file c))
    ++ (structures.map fun (name, c) => (("ast_data", name), .structural c))
    ++ (patterns.map fun (name, c) => (("code_patterns", name), .pattern c))
    ++ edges.map fun (name, c) => (("code_relationships", name), .edge c)

def Column.ofNames? (table column : String) : Option Column :=
  Column.named.lookup (table, column)

/-- What a column prefers. -/
def Column.affinity : Column → Affinity
  | .file .embedding => .blob
  | .file .fileSize => .integer
  | .pattern .frequency => .integer
  | .edge .strength => .real
  | _ => .text

/-! ### Rows -/

/-- The row with another cell in a column. -/
def FileRow.set (r : FileRow) (column : FileColumn) (cell : Cell) : FileRow :=
  match column with
  | .path => { r with path := cell }
  | .contentHash => { r with contentHash := cell }
  | .embedding => { r with embedding := cell }
  | .metadata => { r with metadata := cell }
  | .modelType => { r with modelType := cell }
  | .fileSize => { r with fileSize := cell }
  | .language => { r with language := cell }
  | .createdAt => { r with createdAt := cell }

/-- The row with another cell in a column. -/
def StructureRow.set (r : StructureRow) (column : StructureColumn) (cell : Cell) : StructureRow :=
  match column with
  | .path => { r with path := cell }
  | .contentHash => { r with contentHash := cell }
  | .description => { r with description := cell }
  | .patterns => { r with patterns := cell }
  | .metrics => { r with metrics := cell }
  | .relations => { r with relations := cell }
  | .createdAt => { r with createdAt := cell }

/-- The row with another cell in a column. -/
def PatternRow.set (r : PatternRow) (column : PatternColumn) (cell : Cell) : PatternRow :=
  match column with
  | .patternType => { r with patternType := cell }
  | .content => { r with content := cell }
  | .files => { r with files := cell }
  | .frequency => { r with frequency := cell }
  | .createdAt => { r with createdAt := cell }

/-- The row with another cell in a column. -/
def EdgeRow.set (r : EdgeRow) (column : EdgeColumn) (cell : Cell) : EdgeRow :=
  match column with
  | .source => { r with source := cell }
  | .target => { r with target := cell }
  | .kind => { r with kind := cell }
  | .strength => { r with strength := cell }
  | .metadata => { r with metadata := cell }
  | .createdAt => { r with createdAt := cell }

/-! ### Overwriting -/

/-- The rows with another cell where they have the key, and the number of those. -/
def overwriteRows {α : Type} (hasKey : α → Bool) (set : α → α) (rows : List α) : List α × Nat :=
  (rows.map fun r => if hasKey r then set r else r, rows.countP hasKey)

/-- Whether no two items of a list are alike. -/
def allDistinct {α : Type} (same : α → α → Bool) : List α → Bool
  | [] => true
  | a :: rest => !rest.any (same a) && allDistinct same rest

/-- The refusal of rows with the same unique key. -/
def notUnique (key : String) : StoreError :=
  .database ("UNIQUE constraint failed: " ++ key)

/-- Whether two rows of names have the same type and name. -/
def PatternRow.sameName (a b : PatternRow) : Bool :=
  a.patternType.same b.patternType && a.content.same b.content

/-- Overwrites a column in the rows with a key: the path of files and analyses, the name of sighted
names, the source of edges. Tells how many rows were overwritten. -/
def Store.overwrite (column : Column) (key : String) (cell : Cell) (s : Store) :
    Except StoreError (Nat × Store) :=
  let kept := column.affinity.keep cell
  match column with
  | .file c =>
    let (rows, n) := overwriteRows (·.path.isText key) (·.set c kept) s.files
    if allDistinct (fun a b => a.path.same b.path) rows then .ok (n, { s with files := rows })
    else .error (notUnique "embeddings.path")
  | .structural c =>
    let (rows, n) := overwriteRows (·.path.isText key) (·.set c kept) s.structures
    if allDistinct (fun a b => a.path.same b.path) rows then .ok (n, { s with structures := rows })
    else .error (notUnique "ast_data.path")
  | .pattern c =>
    let (rows, n) := overwriteRows (·.content.isText key) (·.set c kept) s.patterns
    if allDistinct PatternRow.sameName rows then .ok (n, { s with patterns := rows })
    else .error (notUnique "code_patterns.pattern_type, code_patterns.pattern_content")
  | .edge c =>
    let (rows, n) := overwriteRows (·.source.isText key) (·.set c kept) s.edges
    .ok (n, { s with edges := rows })

end CodeIndex
