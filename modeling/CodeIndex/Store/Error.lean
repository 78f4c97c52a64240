/-!
# Store errors

What goes wrong with the store, and what is said of it.
-/

namespace CodeIndex

/-- Why a store operation failed. -/
inductive StoreError where
  /-- The database refused, for the given reason. -/
  | database (reason : String)
  /-- A cell does not hold the document named; the detail says why, where the library knows. -/
  | unreadable (what : String) (detail : Option String)
  | corruptEmbedding (path reason : String)
  | directory (path reason : String)
  deriving DecidableEq, Repr, Inhabited

def StoreError.message : StoreError → String
  | .database reason => "Database error: " ++ reason
  | .unreadable what none => "Failed to (de)serialize " ++ what
  | .unreadable what (some detail) => "Failed to (de)serialize " ++ what ++ ": " ++ detail
  | .corruptEmbedding path reason =>
    "Stored embedding for '" ++ path ++ "' is corrupt: " ++ reason
  | .directory path reason =>
    "Failed to prepare database directory '" ++ path ++ "': " ++ reason

end CodeIndex
