import CodeIndex.Path.Prefix
import CodeIndex.Settings.Document
import CodeIndex.Settings.Reading
import CodeIndex.Settings.Variable
import CodeIndex.Toml.Document
import CodeIndex.Tree.Lookup

/-!
# Finding and keeping settings

Settings come in layers: the defaults, a settings file, and variables, where a later layer counts more.
The root of the workspace is the nearest directory, from the current one upwards, with a settings
directory in it.
-/

namespace CodeIndex

/-- What is found around a program: files, the current directory, variables, and processors. -/
structure Surroundings where
  tree : Tree
  directory : Path
  environment : List Variable := []
  processors : Nat := 1

/-! ### Looking upwards -/

/-- A directory and those above it, the nearest first (`fuel` bounds their number). -/
def Path.upwardsFor : (fuel : Nat) → Path → List Path
  | 0, _ => []
  | fuel + 1, p =>
    p :: match p.parent? with
      | some above => upwardsFor fuel above
      | none => []

/-- A directory and those above it, the nearest first. -/
def Path.upwards (p : Path) : List Path :=
  p.upwardsFor (p.components.length + 1)

def Tree.hasFile (root : Tree) (p : Path) : Bool :=
  (root.contentAt p).isOk

namespace Surroundings

/-- A path from the current directory on. -/
def place (x : Surroundings) (p : Path) : Path := x.directory.join p

/-- The root of the workspace, if there is one. -/
def workspaceRoot? (x : Surroundings) : Option Path :=
  x.directory.upwards.find? fun d => x.tree.hasDirectory (d.join (.ofString settingsDirectory))

/-- The file that a path names, looked for in the current directory and then in those above it. -/
def findFile? (x : Surroundings) (p : Path) : Option Path :=
  (x.directory.upwards.map (·.join p)).find? x.tree.hasFile

/-! ### Layers -/

/-- What a settings file says; a missing file says nothing. -/
def fileLayer (x : Surroundings) (p : Path) : Except SettingsError ConfigValue :=
  match x.findFile? p with
  | none => .ok .empty
  | some p =>
    match x.tree.textAt p with
    | .error _ => .error .unreadable
    | .ok t =>
      match Toml.document? t with
      | none => .error .unreadable
      | some v => .ok v

def defaults (x : Surroundings) : Settings := .ofProcessors x.processors

/-- The settings with a given settings file. -/
def settingsFrom (x : Surroundings) (p : Path) : Except SettingsError Settings := do
  let file ← x.fileLayer p
  Settings.ofValue x.defaults ((x.defaults.toValue.merge file).merge (Variable.layer x.environment))

end Surroundings

def settingsFile (directory : Path) : Path :=
  (directory.join (.ofString settingsDirectory)).join (.ofString "settings.toml")

/-- The settings with the file of the workspace, which they also know as their root. -/
def Surroundings.settings (x : Surroundings) : Except SettingsError Settings := do
  let root := x.workspaceRoot?
  let s ← x.settingsFrom (settingsFile (root.getD (.ofString "")))
  return { s with workspaceRoot := s.workspaceRoot <|> root.map (·.toString) }

/-- The names of the variables that set something: those of fields, and of fields of sections. -/
def Settings.variableNames : List String :=
  let whole := (Settings.fields (.ofProcessors 1)).map (·.name)
  let inner :=
    (IndexingSettings.fields.map fun f => "indexing__" ++ f.name)
      ++ (EmbeddingSettings.fields.map fun f => "embedding__" ++ f.name)
      ++ (SearchSettings.fields.map fun f => "search__" ++ f.name)
      ++ WatchSettings.fields.map fun f => "file_watch__" ++ f.name
  (whole ++ inner).map fun name => "CS_" ++ name.toUpper

/-! ### Writing -/

/-- Why settings cannot be written. -/
inductive SaveError where
  | alreadyThere
  | noDirectory
  | tooLarge
  | file (reason : FileError)
  deriving DecidableEq, Repr, Inhabited

def SaveError.message : SaveError → String
  | .alreadyThere => "Configuration file already exists. Use --force to overwrite"
  | .noDirectory => "Invalid path"
  | .tooLarge => "out-of-range value for u64 type"
  | .file reason => reason.message

/-- The tree with settings in a file, and with the directories that lead to it. -/
def Settings.save (s : Settings) (root : Tree) (p : Path) : Except SaveError Tree := do
  let parent ← p.parent?.elim (.error .noDirectory) .ok
  let (root, _) ← (root.makeDirectories parent.components).mapError .file
  let t ← s.toFile?.elim (.error .tooLarge) .ok
  (root.writeAt p (.text t)).mapError .file

/-- The tree with the default settings in the settings file of a directory; a file that is there is only
overwritten by force. -/
def Surroundings.writeDefaults (x : Surroundings) (directory : Path) (force : Bool) :
    Except SaveError Tree :=
  let p := settingsFile directory
  if !force && x.tree.hasPath p then .error .alreadyThere else x.defaults.save x.tree p

end CodeIndex
