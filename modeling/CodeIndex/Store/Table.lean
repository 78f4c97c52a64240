import CodeIndex.Store.Cell

/-!
# Tables

The store is four tables of rows in the order in which the rows came. A row of files has the vector
and the metadata of one file, a structural row its analysis, a pattern row one name that was sighted,
and an edge row one relation.

The database numbers the rows of each table. A new row gets the number behind the largest that the table
ever gave, so the order of rows is that of their numbers, and rows need not hold them. The numbers end at
2^63 - 1, and a table takes no row behind the last. A store stands for tables that have numbers left for all
rows that the calls on it add; only another program can bring a table to the end of its numbers.
-/

namespace CodeIndex

structure FileRow where
  path : Cell
  contentHash : Cell
  embedding : Cell
  metadata : Cell
  modelType : Cell
  fileSize : Cell
  language : Cell
  createdAt : Cell
  deriving Repr, Inhabited

/-- A structural row. -/
structure StructureRow where
  path : Cell
  contentHash : Cell
  description : Cell
  patterns : Cell
  metrics : Cell
  relations : Cell
  createdAt : Cell
  deriving Repr, Inhabited

/-- A row of sighted names. -/
structure PatternRow where
  patternType : Cell
  content : Cell
  files : Cell
  frequency : Cell
  createdAt : Cell
  deriving Repr, Inhabited

structure EdgeRow where
  source : Cell
  target : Cell
  kind : Cell
  strength : Cell
  metadata : Cell
  createdAt : Cell
  deriving Repr, Inhabited

structure Store where
  files : List FileRow := []
  structures : List StructureRow := []
  patterns : List PatternRow := []
  edges : List EdgeRow := []
  deriving Repr, Inhabited

namespace Store

/-- The store without rows. -/
def empty : Store := {}

/-- The names of the tables, in order. -/
def tableNames : List String :=
  ["ast_data", "code_patterns", "code_relationships", "embeddings"]

def layoutVersion : Nat := 1

end Store

end CodeIndex
