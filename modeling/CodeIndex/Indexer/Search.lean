import CodeIndex.Indexer.Basic

/-!
# Searching

Queries over the stored files: the files most similar to a text, the files related to a file, and the
design patterns found most often.
-/

namespace CodeIndex.Indexer

/-- The stored files most similar to a text, at most `limit` or the configured number. -/
def findSimilar (x : Indexer) (s : Store) (t : Text) (limit : Option Nat) (options : SearchOptions) :
    Except IndexError (List (Scored FileRecord)) := do
  let records ← answered s.allFiles
  return rank FileRecord.candidate (x.embedText t) records
    (limit.getD x.settings.search.defaultLimit) options

/-- The configured kinds of relations. -/
def defaultKinds (x : Indexer) : Except IndexError (List RelationKind) :=
  x.settings.search.relatedTypes.mapM fun name =>
    match RelationKind.ofName? name with
    | some kind => .ok kind
    | none =>
      .error (.configuration
        ("search.related_types: " ++ RelationKind.unknown ++ ": '" ++ name ++ "'"))

/-- The files related to a file by the given or the configured kinds. -/
def related (x : Indexer) (s : Store) (p : Path) (kinds : Option (List RelationKind)) :
    Except IndexError (List RelatedFile) := do
  let kinds ← match kinds with
    | some kinds => pure kinds
    | none => x.defaultKinds
  answered (s.relatedTo (x.keyOf p) kinds)

/-- The design patterns of all files, the most frequent first. -/
def overview (s : Store) : Except IndexError (List PatternOccurrence) := do
  let found ← answered s.allPatterns
  return summarizePatterns (found.map fun (path, patterns) => (path, patterns.map (·.name)))

end CodeIndex.Indexer
