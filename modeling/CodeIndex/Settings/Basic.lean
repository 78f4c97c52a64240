import CodeIndex.Path.Prefix
import CodeIndex.Tree.Walk

/-!
# Settings

What can be configured, with its defaults, and what follows from it: the place of the store and what a
walk takes in.
-/

namespace CodeIndex

/-! ### Sections -/

/-- How directories are scanned. -/
structure IndexingSettings where
  /-- An upper bound for the threads inside one batch. -/
  parallelThreads : Nat
  batchSize : Nat := 5
  batchPauseMs : Nat := 50
  maxFiles : Nat := 200
  extensions : List String := ["js", "ts", "tsx", "jsx", "py", "java", "cpp", "c", "go", "rs"]
  excludedDirs : List String := ["node_modules", "dist", "build"]
  deriving DecidableEq, Repr

/-- How texts are embedded. -/
structure EmbeddingSettings where
  modelEnabled : Bool := true
  model : String := "AllMiniLML6V2"
  /-- Texts are cut to this many characters. -/
  maxInputChars : Nat := 4000
  deriving DecidableEq, Repr

/-- What queries do when they are not told. -/
structure SearchSettings where
  defaultLimit : Nat := 5
  relatedTypes : List String := ["import", "inheritance", "implementation"]
  deriving DecidableEq, Repr

/-- How files are watched. -/
structure WatchSettings where
  enabled : Bool := true
  debounceMs : Nat := 500
  deriving DecidableEq, Repr

/-- The name of the directory with the settings and the store of a project. -/
def settingsDirectory : String := ".codesense"

/-- All settings. -/
structure Settings where
  version : Nat := 1
  databasePath : String := settingsDirectory ++ "/cache.db"
  workspaceRoot : Option String := none
  debug : Bool := false
  indexing : IndexingSettings
  embedding : EmbeddingSettings := {}
  search : SearchSettings := {}
  fileWatch : WatchSettings := {}
  deriving DecidableEq, Repr

namespace Settings

/-- The settings of a machine with a number of processors, when nothing is configured. -/
def ofProcessors (count : Nat) : Settings := { indexing := { parallelThreads := count } }

/-- The path of the store: relative to the root of the workspace, if there is one. -/
def storePath (s : Settings) : Path :=
  let database := Path.ofString s.databasePath
  match s.workspaceRoot with
  | some root => (Path.ofString root).join database
  | none => database

/-- What a walk takes in. -/
def walkOptions (s : Settings) : WalkOptions :=
  ⟨s.indexing.extensions, s.indexing.excludedDirs, s.indexing.maxFiles⟩

end Settings

/-- The directory of downloaded models below a home directory. -/
def modelsDirectory (home : Path) : Path :=
  (home.join (.ofString settingsDirectory)).join (.ofString "models")

end CodeIndex
