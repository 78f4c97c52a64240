import CodeIndex.Insight.Metadata
import CodeIndex.Time.Instant
import CodeIndex.Vector.Ranking

/-!
# Records

What is put into the store for a file, what is read back, and what queries answer.
-/

namespace CodeIndex

/-! ### Files -/

/-- What is computed for a file; there is no analysis when the extraction failed. -/
structure FileEntry where
  path : String
  contentHash : String
  language : String
  fileSize : Nat
  embedding : Embedding
  metadata : FileMetadata
  analysis : Option FileAnalysis
  deriving Repr, Inhabited

/-- The relations of an entry, in order; none if there is no analysis. -/
def FileEntry.relations (e : FileEntry) : List Relation :=
  e.analysis.toList.flatMap (·.relations)

/-- Whether the strengths of all relations are numbers. -/
def FileEntry.hasStrengths (e : FileEntry) : Bool :=
  e.relations.all (!·.strength.isNaN)

/-- The vector and the metadata of a stored file. -/
structure FileRecord where
  path : String
  contentHash : String
  embedding : Embedding
  metadata : FileMetadata
  fileSize : Nat
  language : String
  createdAt : Instant
  deriving Repr, Inhabited

/-- The analysis of a stored file. -/
structure StructureRecord where
  path : String
  contentHash : String
  analysis : FileAnalysis
  createdAt : Instant
  deriving Repr, Inhabited

structure StoredFile where
  file : FileRecord
  structural : Option StructureRecord
  deriving Repr, Inhabited

/-- What the ranking sees of a stored file. -/
def FileRecord.candidate (r : FileRecord) : Candidate :=
  ⟨r.embedding.vector, r.embedding.modelType, r.language, r.metadata.patterns,
    r.metadata.functions⟩

/-! ### Answers -/

/-- What became of an entry. -/
inductive UpsertOutcome where
  | inserted
  | replaced (previousHash : String)
  | unchanged
  deriving DecidableEq, Repr, Inhabited

/-- Whether the entry was written. -/
def UpsertOutcome.wrote : UpsertOutcome → Bool
  | .unchanged => false
  | _ => true

/-- A sighted name, with how often and where it was sighted. -/
structure PatternRecord where
  patternType : String
  content : String
  files : List String
  frequency : Nat
  createdAt : Instant
  deriving Repr, Inhabited

/-- A summary of a store. -/
structure StoreStats where
  totalFiles : Nat := 0
  totalSize : Nat := 0
  languages : List (String × Nat) := []
  patternTypes : List (String × Nat) := []
  relations : Nat := 0
  deriving DecidableEq, Repr, Inhabited

/-! ### Documents -/

open Json

def Embedding.toDocument (e : Embedding) : Json :=
  .object
    [("vector", .array (e.vector.map Json.single)), ("model_type", .string e.modelType.tag)]

/-- The members of the document of a file record. -/
def FileRecord.members (r : FileRecord) : List (String × Json) :=
  [("path", .string r.path), ("content_hash", .string r.contentHash),
    ("embedding", r.embedding.toDocument), ("metadata", r.metadata.toDocument),
    ("file_size", .count r.fileSize), ("language", .string r.language),
    ("created_at", .string r.createdAt.text)]

/-- The document of a structural record. -/
def StructureRecord.toDocument (r : StructureRecord) : Json :=
  .object
    [("path", .string r.path), ("content_hash", .string r.contentHash),
      ("ast", r.analysis.description.toDocument),
      ("architectural_patterns", .array (r.analysis.patterns.map DesignPattern.toDocument)),
      ("code_metrics", r.analysis.metrics.toDocument),
      ("relationships", .array (r.analysis.relations.map Relation.toDocument)),
      ("created_at", .string r.createdAt.text)]

def StoredFile.toDocument (f : StoredFile) : Json :=
  .object (f.file.members ++ [("ast", optional StructureRecord.toDocument f.structural)])

/-- The document of a sighted name. -/
def PatternRecord.toDocument (r : PatternRecord) : Json :=
  .object
    [("pattern_type", .string r.patternType), ("pattern_content", .string r.content),
      ("file_paths", .strings r.files), ("frequency", .count r.frequency),
      ("created_at", .string r.createdAt.text)]

def countsDocument (counts : List (String × Nat)) : Json :=
  .object (counts.map fun (name, n) => (name, .count n))

/-- The document of a summary. -/
def StoreStats.toDocument (s : StoreStats) : Json :=
  .object
    [("total_files", .count s.totalFiles), ("total_size", .count s.totalSize),
      ("languages", countsDocument s.languages), ("pattern_types", countsDocument s.patternTypes),
      ("relationships", .count s.relations)]

end CodeIndex
