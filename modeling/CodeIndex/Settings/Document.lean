import CodeIndex.Json.Basic
import CodeIndex.Settings.Basic
import CodeIndex.Settings.Value
import CodeIndex.Toml.Printer

/-!
# Settings in writing

Settings as the value that other layers are merged into, as a JSON document, and as the text of a settings
file. A missing root of the workspace is left out everywhere.
-/

namespace CodeIndex

namespace ConfigValue

def ofString (s : String) : ConfigValue := .text s.toList

def ofStrings (list : List String) : ConfigValue := .list (list.map ofString)

def ofCount (n : Nat) : ConfigValue := .whole n

/-- A table of named values. -/
def ofEntries (entries : List (String × ConfigValue)) : ConfigValue :=
  .table (entries.map fun (name, v) => (name.toList, v))

mutual

def toDocument : ConfigValue → Json
  | .text t => .string (String.ofList t)
  | .whole n => .int n
  | .real x => .real x
  | .boolean b => .bool b
  | .list items => .array (itemDocuments items)
  | .table entries => .object (entryDocuments entries)

def itemDocuments : List ConfigValue → List Json
  | [] => []
  | v :: rest => v.toDocument :: itemDocuments rest

/-- The documents of the entries of a table. -/
def entryDocuments : List (Text × ConfigValue) → List (String × Json)
  | [] => []
  | (name, v) :: rest => (String.ofList name, v.toDocument) :: entryDocuments rest

end

end ConfigValue

namespace Settings

/-! ### Values and documents -/

/-- Settings as the value that other layers are merged into. -/
def toValue (s : Settings) : ConfigValue :=
  let root := s.workspaceRoot.map fun root => ("workspace_root", ConfigValue.ofString root)
  .ofEntries ([
    ("version", .ofCount s.version),
    ("database_path", .ofString s.databasePath),
    ("debug", .boolean s.debug),
    ("indexing", .ofEntries [
      ("parallel_threads", .ofCount s.indexing.parallelThreads),
      ("batch_size", .ofCount s.indexing.batchSize),
      ("batch_pause_ms", .ofCount s.indexing.batchPauseMs),
      ("max_files", .ofCount s.indexing.maxFiles),
      ("extensions", .ofStrings s.indexing.extensions),
      ("excluded_dirs", .ofStrings s.indexing.excludedDirs)]),
    ("embedding", .ofEntries [
      ("model_enabled", .boolean s.embedding.modelEnabled),
      ("model", .ofString s.embedding.model),
      ("max_input_chars", .ofCount s.embedding.maxInputChars)]),
    ("search", .ofEntries [
      ("default_limit", .ofCount s.search.defaultLimit),
      ("related_types", .ofStrings s.search.relatedTypes)]),
    ("file_watch", .ofEntries [
      ("enabled", .boolean s.fileWatch.enabled),
      ("debounce_ms", .ofCount s.fileWatch.debounceMs)])] ++ root.toList)

def toDocument (s : Settings) : Json := s.toValue.toDocument

/-! ### Files -/

def stringLine (name s : String) : Text := Toml.line name (Toml.string s.toList)

def stringsLine (name : String) (list : List String) : Text :=
  Toml.line name (Toml.strings (list.map (·.toList)))

/-- A line with a truth value. -/
def flagLine (name : String) (b : Bool) : Text := Toml.line name (Toml.boolean b)

def countLine? (name : String) (n : Nat) : Option Text := (Toml.count? n).map (Toml.line name)

/-- The text of a settings file; a count of 2^63 or more cannot be written. -/
def toFile? (s : Settings) : Option Text := do
  let indexing := s.indexing
  let lines ← [
    countLine? "version" s.version,
    stringLine "database_path" s.databasePath,
    some ((s.workspaceRoot.map (stringLine "workspace_root")).getD []),
    flagLine "debug" s.debug,
    Toml.header "indexing",
    countLine? "parallel_threads" indexing.parallelThreads,
    countLine? "batch_size" indexing.batchSize,
    countLine? "batch_pause_ms" indexing.batchPauseMs,
    countLine? "max_files" indexing.maxFiles,
    stringsLine "extensions" indexing.extensions,
    stringsLine "excluded_dirs" indexing.excludedDirs,
    Toml.header "embedding",
    flagLine "model_enabled" s.embedding.modelEnabled,
    stringLine "model" s.embedding.model,
    countLine? "max_input_chars" s.embedding.maxInputChars,
    Toml.header "search",
    countLine? "default_limit" s.search.defaultLimit,
    stringsLine "related_types" s.search.relatedTypes,
    Toml.header "file_watch",
    flagLine "enabled" s.fileWatch.enabled,
    countLine? "debounce_ms" s.fileWatch.debounceMs].mapM id
  return lines.flatten

end Settings

end CodeIndex
