import CodeIndex.Command.Basic
import CodeIndex.Command.Help
import CodeIndex.Command.Output
import CodeIndex.Indexer.Scan
import CodeIndex.Indexer.Search
import CodeIndex.Path.Absolute
import CodeIndex.Settings.Load
import CodeIndex.Store.Open

/-!
# Running commands

A command line in its surroundings gives an exit code, what is printed, messages beside it, and the files
as they are afterwards. Most commands open the store of the configured path and keep it there.
-/

namespace CodeIndex

/-! ### Outcomes -/

/-- What a run leaves behind. -/
structure Outcome where
  exit : Nat := 0
  output : Output := .lines []
  messages : List String := []
  tree : Tree
  /-- Where files may have changed. -/
  written : List Path := []

namespace Outcome

def printed (tree : Tree) (list : List String) : Outcome := { output := .lines list, tree }

def failed (tree : Tree) (reason : String) : Outcome :=
  { exit := 1, messages := ["Error: " ++ reason], tree }

/-- A run that went on behind messages. -/
def behind (messages : List String) (o : Outcome) : Outcome :=
  { o with messages := messages ++ o.messages }

end Outcome

/-! ### Texts -/

/-- A character as it stands between the quotes of a path. -/
def quotedChar (c : Char) : Text :=
  match c with
  | '"' => ['\\', '"']
  | '\\' => ['\\', '\\']
  | '\n' => ['\\', 'n']
  | '\r' => ['\\', 'r']
  | '\t' => ['\\', 't']
  | c => [c]

def Path.quoted (p : Path) : String :=
  "\"" ++ String.ofList (p.text.flatMap quotedChar) ++ "\""

/-- The refusal to watch a path. -/
def cannotWatch (p : Path) (e : FileError) : String :=
  let reason := if e = .notFound then "No path was found." else e.message
  "Cannot watch path " ++ p.quoted ++ ": " ++ reason
    ++ "\nSuggestion: Verify the path exists and you have read permissions"

/-- The document of a similar file. -/
def Scored.toDocument (hit : Scored FileRecord) : Json :=
  .object [("path", .string hit.item.path), ("language", .string hit.item.language),
    ("similarity", .single hit.similarity), ("cosine", .single hit.cosine),
    ("functions", .strings hit.item.metadata.functions),
    ("patterns", .strings hit.item.metadata.patterns)]

/-! ### Commands on the store -/

/-- What a command on the store has to say. -/
structure Reply where
  output : Output
  messages : List String := []

/-- A command on the store: its reply, or why it failed, and the store behind it. -/
abbrev StoreCommand := Store → Except String Reply × Store

namespace StoreCommand

/-- A command that only asks the store. -/
def query {α : Type} (write : α → Json) (ask : Store → Except String α) : StoreCommand := fun s =>
  ((ask s).map fun a => ⟨.document (write a), []⟩, s)

/-- A command that also acts on the store. -/
def action {α : Type} (act : StoreAction α) (say : α → Reply) : StoreCommand := fun s =>
  let (r, s) := act s
  ((r.map say).mapError (·.message), s)

end StoreCommand

namespace Command

def kindsOf (names : List Text) : Except String (List RelationKind) :=
  names.mapM fun name =>
    match RelationKind.ofName? (String.ofList name) with
    | some kind => .ok kind
    | none => .error (RelationKind.unknown ++ ": '" ++ String.ofList name ++ "'")

/-- The text of a query, and the language of its file if that is known. -/
def queryText (x : Surroundings) : SimilarQuery → Except String (Text × Option String)
  | .text t => .ok (t, none)
  | .file p =>
    match x.tree.textAt (x.place p) with
    | .error _ => .error ("Failed to read " ++ p.toString)
    | .ok t => .ok (t, (Language.ofPath? p).map (·.tag))

/-- What is said of an analyzed file. -/
def analyzedReply (a : AnalyzedFile) : Reply where
  output := .document a.record.toDocument
  messages := if a.cached then ["Cache hit: content unchanged"] else []

/-- What is said of a forgotten file. -/
def forgottenReply (file : Path) (removed : Bool) : Reply where
  output := .lines
    [if removed then "Removed " ++ file.toString ++ " from the cache"
      else file.toString ++ " was not cached"]

/-- A command that watches: it fails where nothing can be watched, and otherwise says nothing. -/
def watchCommand (x : Surroundings) (indexer : Indexer) (p : Path) : StoreCommand := fun s =>
  let whole := p.absolute x.directory
  if !indexer.settings.fileWatch.enabled then
    (.error "File watching is disabled (file_watch.enabled = false)", s)
  else
    match x.tree.locate whole with
    | .error e => (.error (cannotWatch whole e), s)
    | .ok _ => (.ok ⟨.lines [], []⟩, s)

/-- What a command does with the store. -/
def onStore (x : Surroundings) (now : String) (indexer : Indexer) : Command → StoreCommand
  | .index p _ _ _ => fun s =>
    let (r, _, s) := indexer.scan now x.tree (fun _ => false) (p.absolute x.directory) s
    ((r.map fun stats => ⟨.report stats, []⟩).mapError (·.message), s)
  | .analyze p =>
    .action (indexer.indexFile now x.tree (p.absolute x.directory)) analyzedReply
  | .similar query limit language tags names =>
    .query (fun hits => .array (hits.map Scored.toDocument)) fun s => do
      let (t, fileLanguage) ← queryText x query
      let options : SearchOptions :=
        ⟨language.map String.ofList <|> fileLanguage, tags.map String.ofList,
          names.map String.ofList⟩
      (indexer.findSimilar s t limit options).mapError (·.message)
  | .patterns (some needle) patternType limit =>
    .query (fun rows => .array (rows.map PatternRecord.toDocument)) fun s =>
      (s.findPatterns (patternType.map String.ofList) (String.ofList needle) limit).mapError
        (·.message)
  | .patterns none _ _ =>
    .query (fun list => .array (list.map PatternOccurrence.toDocument)) fun s =>
      (Indexer.overview s).mapError (·.message)
  | .related p names =>
    .query (fun list => .array (list.map RelatedFile.toDocument)) fun s => do
      let kinds ← kindsOf names
      let kinds := if kinds.isEmpty then none else some kinds
      (indexer.related s (p.absolute x.directory) kinds).mapError (·.message)
  | .stats => .query StoreStats.toDocument fun s => s.stats.mapError (·.message)
  | .forget p => .action (indexer.forget (p.absolute x.directory)) (forgottenReply p)
  | .watch p => watchCommand x indexer p
  | .init _ => fun s => (.ok ⟨.lines [], []⟩, s)
  | .config => fun s => (.ok ⟨.lines [], []⟩, s)

/-- Opens the store, runs a command on it, and keeps the store. -/
def runOnStore (x : Surroundings) (now : String) (settings : Settings) (c : Command) : Outcome :=
  let p := x.place settings.storePath
  match openStore x.tree p with
  | .error _ => .failed x.tree "Failed to open the cache"
  | .ok (tree, s) =>
    let indexer : Indexer :=
      ⟨settings, .ofSettings settings.embedding.model settings.embedding.modelEnabled⟩
    let (r, s) := c.onStore { x with tree } now indexer s
    let tree := saveStore tree p s
    match r with
    | .error reason => { Outcome.failed tree reason with written := [p] }
    | .ok a => { output := a.output, messages := a.messages, tree, written := [p] }

/-! ### Other commands -/

/-- Writes the default settings below the current directory. -/
def runInit (x : Surroundings) (force : Bool) : Outcome :=
  match x.writeDefaults x.directory force with
  | .error e => .failed x.tree e.message
  | .ok tree =>
    let lines := ["Created configuration file at: " ++ (settingsFile (.ofString ".")).toString,
      "Edit this file to customize your settings."]
    { Outcome.printed tree lines with written := [settingsFile x.directory] }

/-- Shows settings as the text of a settings file. -/
def runConfig (x : Surroundings) (settings : Settings) : Outcome :=
  let head := ["Current Configuration:", String.ofList (List.replicate 50 '=')]
  match settings.toFile? with
  | some t => .printed x.tree (head ++ [String.ofList t])
  | none => { Outcome.failed x.tree SaveError.tooLarge.message with output := .lines head }

/-- Lists the files that a scan would take in. -/
def runDryRun (x : Surroundings) (settings : Settings) (p : Path) : Outcome :=
  let files := x.tree.walkAs settings.walkOptions (p.absolute x.directory) p
  { output := .lines (files.map (·.toString))
    messages := [toString files.length ++ " files would be indexed"]
    tree := x.tree }

/-- The settings with what a command says otherwise. -/
def adjust (s : Settings) : Command → Settings
  | .index _ threads maxFiles _ =>
    { s with indexing := { s.indexing with
      parallelThreads := threads.getD s.indexing.parallelThreads
      maxFiles := maxFiles.getD s.indexing.maxFiles } }
  | _ => s

def run (x : Surroundings) (now : String) (settings : Settings) (c : Command) : Outcome :=
  match c with
  | .init force => runInit x force
  | .config => runConfig x settings
  | c =>
    let settings := c.adjust settings
    let root := settings.workspaceRoot.getD x.directory.toString
    let settings := { settings with workspaceRoot := some root }
    match c with
    | .index p _ _ true => runDryRun x settings p
    | c => c.runOnStore x now settings

end Command

/-! ### Command lines -/

/-- Runs a command with the settings that its command line names. Without a settings file of its own, a
command falls back to the defaults when the settings cannot be read. -/
def Invocation.run (i : Invocation) (x : Surroundings) (now : String) : Outcome :=
  match i.config with
  | some p =>
    match x.settingsFrom p with
    | .error e =>
      .failed x.tree ("Configuration error loading from " ++ p.toString ++ ": " ++ e.message)
    | .ok settings => i.command.run x now settings
  | none =>
    match x.settings with
    | .error e =>
      (i.command.run x now x.defaults).behind ["Configuration error: " ++ e.message]
    | .ok settings => i.command.run x now settings

/-- Runs a command line. -/
def runWords (x : Surroundings) (now : String) (words : List Text) : Outcome :=
  match Request.ofWords words with
  | .run i => i.run x now
  | .help c => .printed x.tree (helpLines c)
  | .version => .printed x.tree [versionLine]
  | .nothing => { exit := 2, messages := helpLines none, tree := x.tree }
  | .wrong e => { exit := 2, messages := ["error: " ++ e.message], tree := x.tree }

end CodeIndex
