import CodeIndex.Command.Arguments
import CodeIndex.Path.Basic

/-!
# Commands

The commands of the program with their options, and how a command line names one of them. The options for
a settings file and for more messages belong to every command and may stand before its name.
-/

namespace CodeIndex

/-! ### Commands -/

/-- What similar files are looked for with. -/
inductive SimilarQuery where
  | text (t : Text)
  | file (p : Path)
  deriving DecidableEq, Repr

inductive Command where
  | init (force : Bool)
  | index (path : Path) (threads maxFiles : Option Nat) (dryRun : Bool)
  | analyze (file : Path)
  | similar (query : SimilarQuery) (limit : Option Nat) (language : Option Text)
      (patterns functions : List Text)
  | patterns (search patternType : Option Text) (limit : Nat)
  | related (file : Path) (kinds : List Text)
  | stats
  | forget (file : Path)
  | watch (path : Path)
  | config
  deriving DecidableEq, Repr

/-- A command line: a command, and perhaps a settings file of its own. -/
structure Invocation where
  config : Option Path
  debug : Bool
  command : Command
  deriving DecidableEq, Repr

/-! ### Rules -/

/-- What a command takes: its name, what it is for, and the rules of its words. -/
structure CommandRule where
  name : String
  about : String
  rules : ArgumentRules
  /-- The command that words stand for. -/
  make : Given → Except UsageError Command

/-- The option that asks for help. -/
def helpOption : OptionRule :=
  { name := "help", letter := some 'h', about := "Print help" }

/-- The options of every command. -/
def commonOptions : List OptionRule :=
  [{ name := "config", letter := some 'c', value := some .path,
      about := "Path to custom settings.toml file" },
    { name := "debug", about := "Log at debug level" }]

/-- The options that come before the name of a command. -/
def programRules : ArgumentRules :=
  { options := commonOptions ++
      [helpOption, { name := "version", letter := some 'V', about := "Print version" }]
    branches := true }

/-- A path that was given, or what stands for it. -/
def Given.path (g : Given) (standard : String) : Path :=
  ⟨g.position.getD standard.toList⟩

/-- The rule of a command that needs the path of a file. -/
def fileCommand (name about : String) (options : List OptionRule) (make : Given → Path → Command) :
    CommandRule where
  name := name
  about := about
  rules := { options := options, position := some { name := "file", type := .path, required := true } }
  make g := .ok (make g (g.path ""))

/-- The directory that a command works on, the current one by default. -/
def directoryPosition (about : String) : PositionRule :=
  { name := "path", type := .path, standard := some ".", about := about }

/-- The query of a search for similar files: a text or a file. -/
def similarQuery (g : Given) : Except UsageError SimilarQuery :=
  match g.position, g.value? "file" with
  | some _, some _ => .error (.conflict "[TEXT]" "--file <FILE>")
  | some t, none => .ok (.text t)
  | none, some p => .ok (.file ⟨p⟩)
  | none, none => .error (.missing "<TEXT>")

def CommandRule.all : List CommandRule := [
  { name := "init"
    about := "Set up .codesense directory with default configuration"
    rules := {
      options := [
        { name := "force", letter := some 'f',
          about := "Force overwrite existing configuration" }] }
    make := fun g => .ok (.init (g.flag "force")) },
  { name := "index"
    about := "Analyze and cache every source file under a directory"
    rules := {
      options := [
        { name := "threads", letter := some 't', value := some .size,
          about := "Number of worker threads (overrides config)" },
        { name := "max-files", value := some .size,
          about := "Maximum number of files to scan (overrides config)" },
        { name := "progress", letter := some 'p', about := "Show a progress bar" },
        { name := "dry-run", about := "List the files that would be indexed and stop" }]
      position := some (directoryPosition "Directory to scan") }
    make := fun g => .ok (.index (g.path ".") (g.size? "threads") (g.size? "max-files")
      (g.flag "dry-run")) },
  fileCommand "analyze" "Analyze one file and print its cached record as JSON" [] fun _ p => .analyze p,
  { name := "similar"
    about := "Find cached files similar to a snippet or a file"
    rules := {
      options := [
        { name := "file", letter := some 'f', value := some .path,
          about := "Use this file's content as the query" },
        { name := "limit", letter := some 'l', value := some .size },
        { name := "language", value := some .text,
          about := "Boost files in this language (defaults to the query file's language)" },
        { name := "pattern", value := some .text, repeats := true,
          about := "Boost files carrying this code-pattern tag (repeatable)" },
        { name := "function", value := some .text, repeats := true,
          about := "Boost files defining this function (repeatable)" }]
      position := some { name := "text", type := .text, about := "Query text" } }
    make := fun g => do
      let query ← similarQuery g
      return .similar query (g.size? "limit") (g.value? "language") (g.all "pattern")
        (g.all "function") },
  { name := "patterns"
    about := "Show recurring architectural patterns, or search the code-pattern index"
    rules := {
      options := [
        { name := "search", letter := some 's', value := some .text,
          about := "Substring to look for in the code-pattern index" },
        { name := "type", letter := some 't', value := some .text,
          about := "Restrict the search to one pattern type (design-pattern, function, class)" },
        { name := "limit", letter := some 'l', value := some .size }] }
    make := fun g =>
      .ok (.patterns (g.value? "search") (g.value? "type") ((g.size? "limit").getD 20)) },
  fileCommand "related" "List inheritance, implementation and import edges touching a file"
    [{ name := "types", value := some .text, repeats := true,
        about := "Relationship types to include (defaults to search.related_types)" }]
    fun g p => .related p ((g.all "types").flatMap (Text.splitOn (· == ','))),
  { name := "stats", about := "Summarize the cache contents", rules := {}
    make := fun _ => .ok .stats },
  fileCommand "forget" "Evict a file from the cache" [] fun _ p => .forget p,
  { name := "watch"
    about := "Evict cached files as they change on disk"
    rules := { position := some (directoryPosition "") }
    make := fun g => .ok (.watch (g.path ".")) },
  { name := "config", about := "Display active settings", rules := {}
    make := fun _ => .ok .config }]

/-- The rules of the words behind the name of a command. -/
def CommandRule.wordRules (c : CommandRule) : ArgumentRules :=
  { c.rules with options := c.rules.options ++ commonOptions ++ [helpOption] }

def CommandRule.named? (name : Text) : Option CommandRule :=
  CommandRule.all.find? (·.name.toList == name)

/-! ### Command lines -/

/-- What a command line asks for. -/
inductive Request where
  | run (i : Invocation)
  /-- Help, on one command or on all of them. -/
  | help (c : Option CommandRule)
  /-- Help, because nothing was asked for. -/
  | nothing
  | version
  | wrong (e : UsageError)

/-- The request that a stopped reading stands for. -/
def Stop.toRequest (c : Option CommandRule) : Stop → Request
  | .help => .help c
  | .version => .version
  | .wrong e => .wrong e

/-- The help asked for by words behind the name `help`. -/
def helpRequest : List Text → Request
  | [] => .help none
  | [name] =>
    match CommandRule.named? name with
    | some c => .help (some c)
    | none => if name = "help".toList then .help none else .wrong (.unexpected name)
  | _ :: word :: _ => .wrong (.unexpected word)

/-- The request of a command, whose words follow those before its name. -/
def CommandRule.request (c : CommandRule) (before : Given) (words : List Text) : Request :=
  match c.wordRules.read words with
  | .error stop => stop.toRequest (some c)
  | .ok (g, _) =>
    match c.make g with
    | .error e => .wrong e
    | .ok command =>
      let config := g.value? "config" <|> before.value? "config"
      .run ⟨config.map Path.mk, g.flag "debug" || before.flag "debug", command⟩

/-- The request of a command line. -/
def Request.ofWords (words : List Text) : Request :=
  if words.isEmpty then .nothing
  else
    match programRules.read words with
    | .error stop => stop.toRequest none
    | .ok (_, []) => .wrong (.missing "<COMMAND>")
    | .ok (before, name :: rest) =>
      if name = "help".toList then helpRequest rest
      else
        match CommandRule.named? name with
        | some c => c.request before rest
        | none => .wrong (.unexpected name)

end CodeIndex
