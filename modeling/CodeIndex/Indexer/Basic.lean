import CodeIndex.Digest.Sha256
import CodeIndex.Indexer.Error
import CodeIndex.RuleSet.Registry
import CodeIndex.Settings.Basic
import CodeIndex.Store.Query
import CodeIndex.Vector.Embedder

/-!
# Analyzing files

An indexer keeps what it computes for a file under a key, the path of the file relative to the root of
the workspace. While the stored hash is that of the text nothing is computed or written. A file whose
structure cannot be extracted is kept without it.

Writing an entry and counting the names in it are separate steps on the store; when a step fails, those
before it stand. So every action gives the store behind it, whether it fails or not.
-/

namespace CodeIndex

/-- What an indexer works with. -/
structure Indexer where
  settings : Settings
  embedder : Embedder

/-- An action on the store that may fail; the store behind it is given in any case. -/
abbrev StoreAction (α : Type) := Store → Except IndexError α × Store

/-- The result of a query, which leaves the store as it is. -/
def answered {α : Type} (r : Except StoreError α) : Except IndexError α :=
  r.mapError .store

/-! ### Entries -/

namespace Indexer

/-- The key of a path: its spelling from the root of the workspace on, if it lies there. -/
def keyOf (x : Indexer) (p : Path) : String :=
  let relative := x.settings.workspaceRoot.bind fun root => p.relativeTo? (Path.ofString root)
  (relative.getD p).toString

/-- The embedding of a text, cut to the configured length. -/
def embedText (x : Indexer) (t : Text) : Embedding :=
  x.embedder.embed (truncateText x.settings.embedding.maxInputChars t)

def entryOf (x : Indexer) (key : String) (language : Language) (t : Text) : FileEntry :=
  let extracted := Registry.standard.extract language t
  let analysis := extracted.toOption.map (FileAnalysis.of key t)
  let metadata :=
    match extracted with
    | .ok d => FileMetadata.ofAnalysis t language (.of key t d)
    | .error e => FileMetadata.ofFailure t language e.message
  { path := key
    contentHash := CodeIndex.contentHash t
    language := language.tag
    fileSize := t.width
    embedding := x.embedText t
    metadata
    analysis }

end Indexer

/-- The names to count for an entry, with their types: tags, then functions and methods, then classes. -/
def FileEntry.sightings (e : FileEntry) : List (String × String) :=
  let ofStructure :=
    match e.analysis with
    | none => []
    | some a =>
      ((a.description.functionNames ++ a.description.methods.map (·.name)).map ("function", ·))
        ++ a.description.classes.map fun c => ("class", c.name)
  (e.metadata.patterns.map ("design-pattern", ·)) ++ ofStructure

/-- Counts names in a file, one after another, up to the first that fails. -/
def recordAll (now path : String) : List (String × String) → StoreAction Unit
  | [], s => (.ok (), s)
  | (patternType, content) :: rest, s =>
    match s.recordPattern now patternType content path with
    | .ok s => recordAll now path rest s
    | .error e => (.error (.store e), s)

/-- Writes an entry, and counts its names if it was written. -/
def persist (now : String) (e : FileEntry) : StoreAction Unit := fun s =>
  match s.upsert now e with
  | .error error => (.error (.store error), s)
  | .ok (.unchanged, s) => (.ok (), s)
  | .ok (_, s) => recordAll now e.path e.sightings s

/-! ### Single files -/

/-- What is known of a file after its analysis, and whether it was stored before. -/
structure AnalyzedFile where
  record : StoredFile
  cached : Bool
  deriving Repr

/-- The refusal of a file that is in no known language. -/
def unsupportedFile (p : Path) : IndexError :=
  .unsupported p.toString (String.ofList (p.extension?.getD []))

namespace Indexer

/-- What is stored under a key, if it is stored for a hash. -/
def cached? (key hash : String) (s : Store) : Except StoreError (Option StoredFile) := do
  match ← s.contentHash key with
  | some stored => if stored = hash then s.get key else return none
  | none => return none

/-- Computes and writes the entry of a text, and reads it back. -/
def refresh (x : Indexer) (now key : String) (language : Language) (t : Text) :
    StoreAction AnalyzedFile := fun s =>
  match persist now (x.entryOf key language t) s with
  | (.error e, s) => (.error e, s)
  | (.ok (), s) =>
    match s.get key with
    | .error e => (.error (.store e), s)
    | .ok none => (.error (.general ("Cached row for '" ++ key ++ "' vanished after write")), s)
    | .ok (some record) => (.ok ⟨record, false⟩, s)

/-- Analyzes a text as the content of a file. -/
def analyze (x : Indexer) (now : String) (p : Path) (t : Text) : StoreAction AnalyzedFile := fun s =>
  match Language.ofPath? p with
  | none => (.error (unsupportedFile p), s)
  | some language =>
    let key := x.keyOf p
    match cached? key (CodeIndex.contentHash t) s with
    | .error e => (.error (.store e), s)
    | .ok (some record) => (.ok ⟨record, true⟩, s)
    | .ok none => x.refresh now key language t s

def indexFile (x : Indexer) (now : String) (root : Tree) (p : Path) : StoreAction AnalyzedFile :=
  fun s =>
    match root.textAt p with
    | .error e => (.error (.fileRead p.toString e.message), s)
    | .ok t => x.analyze now p t s

/-- Removes what is stored for a file; tells whether it was stored. -/
def forget (x : Indexer) (p : Path) : StoreAction Bool := fun s =>
  let (removed, s) := s.remove (x.keyOf p)
  (.ok removed, s)

end Indexer

end CodeIndex
