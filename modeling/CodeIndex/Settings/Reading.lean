import CodeIndex.Number.Bound
import CodeIndex.Path.Order
import CodeIndex.Settings.Basic
import CodeIndex.Settings.Value

/-!
# Reading settings

Settings are read from a configured value over defaults. A table gives fields by name, and the first field
in the order of names that does not fit is told with the names that lead to it. A list gives the fields of
a section in their own order.
-/

namespace CodeIndex

/-! ### Errors -/

/-- Why settings cannot be read. -/
inductive SettingsError where
  /-- The file holds no document. -/
  | unreadable
  /-- The value is of another type. -/
  | wrongType (key : List String)
  /-- The number is outside of its range. -/
  | outOfRange (key : List String)
  deriving DecidableEq, Repr, Inhabited

namespace SettingsError

/-- The names that lead to what does not fit. -/
def key : SettingsError → List String
  | .unreadable => []
  | .wrongType key => key
  | .outOfRange key => key

/-- The same error, told from one table further out. -/
def below (name : String) : SettingsError → SettingsError
  | .unreadable => .unreadable
  | .wrongType key => .wrongType (name :: key)
  | .outOfRange key => .outOfRange (name :: key)

def message : SettingsError → String
  | .unreadable => "the file is not a valid settings document"
  | .wrongType key => "invalid type for key \"" ++ ".".intercalate key ++ "\""
  | .outOfRange key => "invalid value for key \"" ++ ".".intercalate key ++ "\""

end SettingsError

/-! ### Fields -/

abbrev ValueReader (α : Type) := ConfigValue → Except SettingsError α

namespace ConfigValue

/-- A count below a bound. -/
def count (bound : Nat) : ValueReader Nat
  | .whole n => if 0 ≤ n ∧ n < bound then .ok n.toNat else .error (.outOfRange [])
  | _ => .error (.wrongType [])

/-- A count in 64 bits. -/
def size : ValueReader Nat := count bound64

/-- A truth value. -/
def flag : ValueReader Bool
  | .boolean b => .ok b
  | _ => .error (.wrongType [])

def string : ValueReader String
  | .text t => .ok (String.ofList t)
  | _ => .error (.wrongType [])

/-- The items of a list, of which the first has a number. -/
def stringsFrom (index : Nat) : List ConfigValue → Except SettingsError (List String)
  | [] => .ok []
  | v :: rest => do
    let s ← v.string.mapError (.below (toString index))
    return s :: (← stringsFrom (index + 1) rest)

def strings : ValueReader (List String)
  | .list items => stringsFrom 0 items
  | _ => .error (.wrongType [])

end ConfigValue

/-- A field of a section: its name, and how a value for it changes the section. -/
structure Field (σ : Type) where
  name : String
  set : ConfigValue → σ → Except SettingsError σ

def Field.of {σ α : Type} (name : String) (read : ValueReader α) (put : α → σ → σ) : Field σ where
  name := name
  set v s := (read v).map (put · s)

/-- Whether the name of a field may stand before that of another. -/
def Field.notAfter {σ : Type} (a b : Field σ) : Bool :=
  Text.compare a.name.toList b.name.toList != .gt

/-- A section with its fields from the entries of a table; other entries do not count. -/
def setEntries {σ : Type} (entries : List (Text × ConfigValue)) :
    List (Field σ) → σ → Except SettingsError σ
  | [], s => .ok s
  | f :: rest, s =>
    match entries.lookup f.name.toList with
    | none => setEntries entries rest s
    | some v => do setEntries entries rest (← (f.set v s).mapError (.below f.name))

/-- A section with its first fields from the items of a list. -/
def setItems {σ : Type} (index : Nat) : List ConfigValue → List (Field σ) → σ → Except SettingsError σ
  | v :: items, f :: rest, s => do
    setItems (index + 1) items rest (← (f.set v s).mapError (.below (toString index)))
  | _, _, s => .ok s

/-- A section with what a value says about its fields. -/
def readSection {σ : Type} (fields : List (Field σ)) (s : σ) : ConfigValue → Except SettingsError σ
  | .table entries => setEntries entries (fields.mergeSort Field.notAfter) s
  | .list items => setItems 0 items fields s
  | _ => .error (.wrongType [])

/-! ### Sections -/

/-- The fields of scanning. -/
def IndexingSettings.fields : List (Field IndexingSettings) :=
  [.of "parallel_threads" ConfigValue.size fun n s => { s with parallelThreads := n },
    .of "batch_size" ConfigValue.size fun n s => { s with batchSize := n },
    .of "batch_pause_ms" ConfigValue.size fun n s => { s with batchPauseMs := n },
    .of "max_files" ConfigValue.size fun n s => { s with maxFiles := n },
    .of "extensions" ConfigValue.strings fun l s => { s with extensions := l },
    .of "excluded_dirs" ConfigValue.strings fun l s => { s with excludedDirs := l }]

def EmbeddingSettings.fields : List (Field EmbeddingSettings) :=
  [.of "model_enabled" ConfigValue.flag fun b s => { s with modelEnabled := b },
    .of "model" ConfigValue.string fun t s => { s with model := t },
    .of "max_input_chars" ConfigValue.size fun n s => { s with maxInputChars := n }]

/-- The fields of queries. -/
def SearchSettings.fields : List (Field SearchSettings) :=
  [.of "default_limit" ConfigValue.size fun n s => { s with defaultLimit := n },
    .of "related_types" ConfigValue.strings fun l s => { s with relatedTypes := l }]

def WatchSettings.fields : List (Field WatchSettings) :=
  [.of "enabled" ConfigValue.flag fun b s => { s with enabled := b },
    .of "debounce_ms" ConfigValue.size fun n s => { s with debounceMs := n }]

namespace Settings

/-- The fields of all settings. -/
def fields (defaults : Settings) : List (Field Settings) :=
  [.of "version" (ConfigValue.count bound32) fun n s => { s with version := n },
    .of "database_path" ConfigValue.string fun t s => { s with databasePath := t },
    .of "workspace_root" ConfigValue.string fun t s => { s with workspaceRoot := some t },
    .of "debug" ConfigValue.flag fun b s => { s with debug := b },
    .of "indexing" (readSection IndexingSettings.fields defaults.indexing)
      fun x s => { s with indexing := x },
    .of "embedding" (readSection EmbeddingSettings.fields defaults.embedding)
      fun x s => { s with embedding := x },
    .of "search" (readSection SearchSettings.fields defaults.search)
      fun x s => { s with search := x },
    .of "file_watch" (readSection WatchSettings.fields defaults.fileWatch)
      fun x s => { s with fileWatch := x }]

/-- The settings that a value stands for; what it does not say is as in `defaults`. -/
def ofValue (defaults : Settings) (v : ConfigValue) : Except SettingsError Settings :=
  readSection (fields defaults) defaults v

end Settings

end CodeIndex
