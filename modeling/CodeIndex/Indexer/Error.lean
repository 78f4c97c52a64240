import CodeIndex.Store.Error

/-!
# Indexing errors

What goes wrong when files are analyzed and indexed: its text, its status code for machines, and
what may be done about it.
-/

namespace CodeIndex

/-- Why analysis or indexing failed. -/
inductive IndexError where
  | fileRead (path reason : String)
  | unsupported (path extension : String)
  | extraction (path language reason : String)
  | store (error : StoreError)
  | configuration (reason : String)
  | cancelled (completed total : Nat)
  | general (message : String)
  deriving DecidableEq, Repr, Inhabited

namespace IndexError

def message : IndexError → String
  | .fileRead path reason => "Failed to read file '" ++ path ++ "': " ++ reason
  | .unsupported path extension =>
    "Unsupported file type '" ++ extension ++ "' for file '" ++ path
      ++ "'. Supported types: .js .jsx .mjs .ts .tsx .py .cpp .cc .cxx .hpp .h .c .java .go .rs"
  | .extraction path language reason =>
    "Failed to analyze " ++ language ++ " file '" ++ path ++ "': " ++ reason
  | .store error => error.message
  | .configuration reason => "Invalid configuration: " ++ reason
  | .cancelled completed total =>
    "Indexing cancelled after " ++ toString completed ++ " of " ++ toString total ++ " files"
  | .general message => message

/-- The status code of an error. -/
def status : IndexError → String
  | .fileRead .. => "FILE_READ_ERROR"
  | .unsupported .. => "UNSUPPORTED_LANGUAGE"
  | .extraction .. => "EXTRACTION_ERROR"
  | .store _ => "STORAGE_ERROR"
  | .configuration _ => "CONFIG_ERROR"
  | .cancelled .. => "CANCELLED"
  | .general _ => "GENERAL_ERROR"

/-- What may be done about an error. -/
def suggestions : IndexError → List String
  | .fileRead .. =>
    ["Check that the file exists and you have read permissions",
      "Ensure the file is not locked by another process"]
  | .unsupported .. =>
    ["Rename the file with a recognized source extension",
      "Use 'codesense index' to scan a directory; unknown files are skipped there"]
  | .store _ =>
    ["Check disk space and permissions for the .codesense directory",
      "Delete .codesense/cache.db to rebuild the cache from scratch"]
  | .configuration _ => ["Run 'codesense init --force' to regenerate the settings file"]
  | _ => []

/-- An error behind a word on what was being done. -/
def inContext (doing reason : String) : IndexError :=
  .general (doing ++ ": " ++ reason)

/-- An error behind the path that was being processed. -/
def atPath (path reason : String) : IndexError :=
  .general ("Error processing '" ++ path ++ "': " ++ reason)

end IndexError

end CodeIndex
