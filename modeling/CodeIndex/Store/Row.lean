import CodeIndex.Number.Bound
import CodeIndex.Store.Record
import CodeIndex.Store.Table

/-!
# Rows and records

A row is written from what is known of a file, and read in two steps: first the cells, which fail on a
cell of the wrong kind, then the contents of the texts and bytes in them.
-/

namespace CodeIndex

/-- The time that a stored stamp spells; an unreadable stamp stands for the epoch. -/
def stampTime (stamp : String) : Instant :=
  (Instant.ofText? stamp.toList).getD .epoch

/-! ### Files -/

/-- A size as 64 bits with a sign hold it. -/
def signedSize (n : Nat) : Int :=
  let n := n % bound64
  if n < bound63 then n else (n : Int) - bound64

def FileRow.ofEntry (now : String) (e : FileEntry) : FileRow :=
  { path := .plain e.path
    contentHash := .plain e.contentHash
    embedding := .blob e.embedding.toBytes
    metadata := .document e.metadata.toDocument
    modelType := .plain e.embedding.modelType.tag
    fileSize := .integer (signedSize e.fileSize)
    language := .plain e.language
    createdAt := .plain now }

structure FileCells where
  path : String
  contentHash : String
  embedding : List UInt8
  metadata : Written
  modelType : String
  fileSize : Int
  language : String
  createdAt : String

def FileRow.read (r : FileRow) : Except StoreError FileCells := do
  return {
    path := ← r.path.readText 0 "path"
    contentHash := ← r.contentHash.readText 1 "content_hash"
    embedding := ← r.embedding.readBytes 2 "embedding"
    metadata := ← r.metadata.readWritten 3 "metadata_json"
    modelType := ← r.modelType.readText 4 "model_type"
    fileSize := ← r.fileSize.readInteger 5 "file_size"
    language := ← r.language.readText 6 "language"
    createdAt := ← r.createdAt.readText 7 "created_at" }

def FileCells.embedding? (c : FileCells) : Except VectorError Embedding :=
  match ModelType.ofTag? c.modelType with
  | some m => Embedding.ofBytes c.embedding m
  | none => .error (.unknownModelType c.modelType)

/-- The record in the cells of a row; a negative size stands for 0. -/
def FileCells.decode (c : FileCells) : Except StoreError FileRecord :=
  match c.embedding? with
  | .error e => .error (.corruptEmbedding c.path e.message)
  | .ok embedding => do
    let metadata ← c.metadata.decode "file metadata" FileMetadata.ofDocument?
    return {
      path := c.path
      contentHash := c.contentHash
      embedding
      metadata
      fileSize := c.fileSize.toNat
      language := c.language
      createdAt := stampTime c.createdAt }

/-! ### Analyses -/

/-- The structural row of an analysis. -/
def StructureRow.of (now path contentHash : String) (a : FileAnalysis) : StructureRow :=
  { path := .plain path
    contentHash := .plain contentHash
    description := .document a.description.toDocument
    patterns := .document (.array (a.patterns.map DesignPattern.toDocument))
    metrics := .document a.metrics.toDocument
    relations := .document (.array (a.relations.map Relation.toDocument))
    createdAt := .plain now }

/-- The cells of a structural row. -/
structure StructureCells where
  path : String
  contentHash : String
  description : Written
  patterns : Written
  metrics : Written
  relations : Written
  createdAt : String

/-- Reads the cells of a structural row. -/
def StructureRow.read (r : StructureRow) : Except StoreError StructureCells := do
  return {
    path := ← r.path.readText 0 "path"
    contentHash := ← r.contentHash.readText 1 "content_hash"
    description := ← r.description.readWritten 2 "ast_json"
    patterns := ← r.patterns.readWritten 3 "architectural_patterns_json"
    metrics := ← r.metrics.readWritten 4 "code_metrics_json"
    relations := ← r.relations.readWritten 5 "relationships_json"
    createdAt := ← r.createdAt.readText 6 "created_at" }

def decodePatterns (w : Written) : Except StoreError (List DesignPattern) :=
  w.decode "architectural patterns" (Json.list? DesignPattern.ofDocument?)

/-- The record in the cells of a structural row. -/
def StructureCells.decode (c : StructureCells) : Except StoreError StructureRecord := do
  let description ← c.description.decode "structural description" Description.ofDocument?
  let patterns ← decodePatterns c.patterns
  let metrics ← c.metrics.decode "code metrics" CodeMetrics.ofDocument?
  let relations ← c.relations.decode "relationships" (Json.list? Relation.ofDocument?)
  return {
    path := c.path
    contentHash := c.contentHash
    analysis := ⟨description, patterns, metrics, relations⟩
    createdAt := stampTime c.createdAt }

/-- The path and the patterns in a structural row, as the overview of all files reads them. -/
def StructureRow.readPatterns (r : StructureRow) : Except StoreError (String × Written) := do
  return (← r.path.readText 0 "path", ← r.patterns.readWritten 1 "architectural_patterns_json")

/-! ### Sighted names -/

/-- The row of a name that is sighted for the first time. -/
def PatternRow.first (now patternType content path : String) : PatternRow :=
  { patternType := .plain patternType
    content := .plain content
    files := .document (.strings [path])
    frequency := .integer 1
    createdAt := .plain now }

/-- The cells of a row of sighted names. -/
structure PatternCells where
  patternType : String
  content : String
  files : Written
  frequency : Int
  createdAt : String

/-- Reads the cells of a row of sighted names. -/
def PatternRow.read (r : PatternRow) : Except StoreError PatternCells := do
  return {
    patternType := ← r.patternType.readText 0 "pattern_type"
    content := ← r.content.readText 1 "pattern_content"
    files := ← r.files.readWritten 2 "file_paths_json"
    frequency := ← r.frequency.readInteger 3 "frequency"
    createdAt := ← r.createdAt.readText 4 "created_at" }

def decodePaths (w : Written) : Except StoreError (List String) :=
  w.decode "pattern file paths" Json.strings?

/-- The record in the cells of a row of sighted names; a negative frequency stands for 0. -/
def PatternCells.decode (c : PatternCells) : Except StoreError PatternRecord := do
  let files ← decodePaths c.files
  return ⟨c.patternType, c.content, files, c.frequency.toNat, stampTime c.createdAt⟩

/-! ### Edges -/

/-- The row of an edge. Its strength is a number, in a column of real numbers that keeps no sign of zero. -/
def EdgeRow.of (now : String) (r : Relation) : EdgeRow :=
  { source := .plain r.source
    target := .plain r.target
    kind := .plain r.kind.name
    strength := .real r.strength.unsigned.toFloat
    metadata := .document r.metadata
    createdAt := .plain now }

structure EdgeCells where
  source : String
  target : String
  kind : String
  strength : Float
  metadata : Written

def EdgeRow.read (r : EdgeRow) : Except StoreError EdgeCells := do
  return {
    source := ← r.source.readText 0 "source"
    target := ← r.target.readText 1 "target"
    kind := ← r.kind.readText 2 "relationship_type"
    strength := ← r.strength.readReal 3 "strength"
    metadata := ← r.metadata.readWritten 4 "metadata_json" }

def EdgeCells.decode (c : EdgeCells) : Except StoreError Relation :=
  match RelationKind.ofName? c.kind with
  | none =>
    .error (.unreadable "relationship type" (some (RelationKind.unknown ++ ": " ++ c.kind)))
  | some kind => do
    let metadata ← c.metadata.decode "relationship metadata" some
    return ⟨c.source, c.target, kind, .ofFloat c.strength, metadata⟩

end CodeIndex
