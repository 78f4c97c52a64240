import CodeIndex.Command.Basic

/-!
# Help

What the program tells of itself: its commands with their words and options, each with what it is for on a
line of its own.
-/

namespace CodeIndex

def programName : String := "codesense"

def versionLine : String := programName ++ " 0.1.0"

def programAbout : String :=
  "Extract structure from source files, embed them, and query similar code, relationships and "
    ++ "recurring patterns."

/-! ### Entries -/

/-- A name in capitals, with underscores for dashes. -/
def placeholder (name : String) : String :=
  String.ofList (name.toList.map fun c => if c = '-' then '_' else c.toUpper)

/-- How an option is written. -/
def OptionRule.usage (o : OptionRule) : String :=
  let letter := match o.letter with
    | some c => "-" ++ String.ofList [c] ++ ", "
    | none => "    "
  let value := if o.value.isSome then " <" ++ placeholder o.name ++ ">" else ""
  letter ++ "--" ++ o.name ++ value

/-- How a word that stands alone is written. -/
def PositionRule.usage (p : PositionRule) : String :=
  if p.required then "<" ++ placeholder p.name ++ ">" else "[" ++ placeholder p.name ++ "]"

/-- What a word is for, and what it is when it is not given. -/
def PositionRule.explanation (p : PositionRule) : String :=
  match p.standard with
  | some s => p.about ++ (if p.about.isEmpty then "" else " ") ++ "[default: " ++ s ++ "]"
  | none => p.about

/-- The lines of an entry with what it is for, if that is said. -/
def entryLines (name about : String) : List String :=
  ("  " ++ name) :: if about.isEmpty then [] else ["          " ++ about]

/-- A titled list of entries, with an empty line before it; nothing when there are none. -/
def entriesUnder (title : String) (entries : List (String × String)) : List String :=
  if entries.isEmpty then []
  else "" :: title :: entries.flatMap fun (name, about) => entryLines name about

def optionEntries (options : List OptionRule) : List (String × String) :=
  options.map fun o => (o.usage, o.about)

/-! ### Pages -/

def programHelp : List String :=
  [programAbout, "", "Usage: " ++ programName ++ " [OPTIONS] <COMMAND>"]
    ++ entriesUnder "Commands:" (CommandRule.all.map (fun c => (c.name, c.about))
      ++ [("help", "Print this message or the help of the given subcommand(s)")])
    ++ entriesUnder "Options:" (optionEntries programRules.options)

def CommandRule.help (c : CommandRule) : List String :=
  let words := match c.rules.position with
    | some p => " " ++ p.usage
    | none => ""
  [c.about, "", "Usage: " ++ programName ++ " " ++ c.name ++ " [OPTIONS]" ++ words]
    ++ entriesUnder "Arguments:" (c.rules.position.toList.map fun p => (p.usage, p.explanation))
    ++ entriesUnder "Options:" (optionEntries c.wordRules.options)

/-- The lines of help, on one command or on the program. -/
def helpLines : Option CommandRule → List String
  | some c => c.help
  | none => programHelp

end CodeIndex
