import CodeIndex.Store.Table

/-!
# Stores in writing

A store as a document: each table a list of rows, each row a list of cells. A text is a string, a whole
number a number, bytes are a list of counts, and a real number is an object with its bits, so that every
cell reads back as it was.
-/

namespace CodeIndex

/-! ### Cells -/

namespace Cell

def toDocument : Cell → Json
  | .integer n => .int n
  | .real x => .object [("bits", .count x.toBits.toNat)]
  | .text w => .string w.text
  | .blob bytes => .array (bytes.map fun b => .count b.toNat)

/-- A byte that a document spells. -/
def byte? : Json → Option UInt8
  | .number (.count n) => if n < 256 then some (UInt8.ofNat n) else none
  | _ => none

def ofDocument? : Json → Option Cell
  | .number (.count n) => some (.integer n)
  | .number (.negative n) => some (.integer (-n))
  | .object [("bits", .number (.count n))] => some (.real (Float.ofBits (UInt64.ofNat n)))
  | .string s => some (.plain s)
  | .array items => (items.mapM byte?).map .blob
  | _ => none

end Cell

/-! ### Rows -/

def FileRow.cells (r : FileRow) : List Cell :=
  [r.path, r.contentHash, r.embedding, r.metadata, r.modelType, r.fileSize, r.language, r.createdAt]

def FileRow.ofCells? : List Cell → Option FileRow
  | [path, hash, embedding, metadata, modelType, size, language, created] =>
    some ⟨path, hash, embedding, metadata, modelType, size, language, created⟩
  | _ => none

/-- The cells of a structural row. -/
def StructureRow.cells (r : StructureRow) : List Cell :=
  [r.path, r.contentHash, r.description, r.patterns, r.metrics, r.relations, r.createdAt]

/-- The structural row with given cells. -/
def StructureRow.ofCells? : List Cell → Option StructureRow
  | [path, hash, description, patterns, metrics, relations, created] =>
    some ⟨path, hash, description, patterns, metrics, relations, created⟩
  | _ => none

/-- The cells of a row of sighted names. -/
def PatternRow.cells (r : PatternRow) : List Cell :=
  [r.patternType, r.content, r.files, r.frequency, r.createdAt]

/-- The row of sighted names with given cells. -/
def PatternRow.ofCells? : List Cell → Option PatternRow
  | [type, content, files, frequency, created] => some ⟨type, content, files, frequency, created⟩
  | _ => none

def EdgeRow.cells (r : EdgeRow) : List Cell :=
  [r.source, r.target, r.kind, r.strength, r.metadata, r.createdAt]

def EdgeRow.ofCells? : List Cell → Option EdgeRow
  | [source, target, kind, strength, metadata, created] =>
    some ⟨source, target, kind, strength, metadata, created⟩
  | _ => none

/-! ### Stores -/

def tableDocument (rows : List (List Cell)) : Json :=
  .array (rows.map fun cells => .array (cells.map Cell.toDocument))

/-- The rows of a document, each made of its cells. -/
def rowsOf? {α : Type} (make : List Cell → Option α) : Json → Option (List α)
  | .array rows => rows.mapM fun
    | .array cells => (cells.mapM Cell.ofDocument?).bind make
    | _ => none
  | _ => none

namespace Store

def toDocument (s : Store) : Json :=
  .object [("files", tableDocument (s.files.map (·.cells))),
    ("structures", tableDocument (s.structures.map (·.cells))),
    ("patterns", tableDocument (s.patterns.map (·.cells))),
    ("edges", tableDocument (s.edges.map (·.cells)))]

def ofDocument? : Json → Option Store
  | .object [("files", files), ("structures", structures), ("patterns", patterns), ("edges", edges)] => do
    return {
      files := ← rowsOf? FileRow.ofCells? files
      structures := ← rowsOf? StructureRow.ofCells? structures
      patterns := ← rowsOf? PatternRow.ofCells? patterns
      edges := ← rowsOf? EdgeRow.ofCells? edges }
  | _ => none

end Store

end CodeIndex
