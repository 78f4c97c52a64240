import CodeIndex.Json.Record
import CodeIndex.Number.Single
import CodeIndex.Structure.Basic
import CodeIndex.Text.Case

/-!
# Design patterns

Independent checks over a description, each with a fixed confidence. The patterns found keep the
order of the checks. A summary over many files counts how often each pattern was found and where.
-/

namespace CodeIndex

/-! ### Checks -/

/-- A pattern found in a file. -/
structure DesignPattern where
  name : String
  confidence : Single
  evidence : String
  deriving DecidableEq, Repr, Inhabited

structure PatternCheck where
  pattern : DesignPattern
  holds : Description → Bool

/-- Whether a text holds one of several parts, whatever its case. -/
def mentions (parts : List String) (s : String) : Bool :=
  let lower := Text.lower s.toList
  parts.any fun part => Text.hasPart part.toList lower

/-- Whether a class has a static `getInstance` and a private static property. -/
def isSingletonClass (c : ClassDecl) : Bool :=
  (c.methods.any fun m => m.name == "getInstance" && m.isStatic)
    && c.properties.any fun p => p.isStatic && p.visibility == .privateAccess

/-- Whether some method name mentions one of several parts. -/
def anyMethodMentions (parts : List String) (d : Description) : Bool :=
  d.methods.any fun m => mentions parts m.name

/-- Whether there is an interface, and more than one class that implements interfaces. -/
def isStrategy (d : Description) : Bool :=
  !d.interfaces.isEmpty && 1 < d.classes.countP (!·.interfaces.isEmpty)

/-- Whether class names mention a controller, a model and a view. -/
def isModelViewController (d : Description) : Bool :=
  ["controller", "model", "view"].all fun part => d.classes.any fun c => mentions [part] c.name

/-- The checks, in order. -/
def patternChecks : List PatternCheck :=
  [⟨⟨"Singleton", .ofFloat 0.8, "Private constructor with static instance"⟩,
      fun d => d.classes.any isSingletonClass⟩,
    ⟨⟨"Factory", .ofFloat 0.7, "Create methods returning interface types"⟩,
      anyMethodMentions ["create", "factory"]⟩,
    ⟨⟨"Observer", .ofFloat 0.75, "Event subscription/notification methods"⟩,
      anyMethodMentions ["subscribe", "notify", "observer"]⟩,
    ⟨⟨"Strategy", .ofFloat 0.6, "Interface with multiple implementations"⟩, isStrategy⟩,
    ⟨⟨"MVC", .ofFloat 0.65, "Controller, Model, View separation"⟩, isModelViewController⟩]

/-- The largest number of patterns of one file. -/
def maxPatterns : Nat := 6

def detectPatterns (d : Description) : List DesignPattern :=
  ((patternChecks.filter (·.holds d)).take maxPatterns).map (·.pattern)

/-! ### Documents -/

def DesignPattern.toDocument (p : DesignPattern) : Json :=
  .object
    [("name", .string p.name), ("confidence", .single p.confidence),
      ("evidence", .string p.evidence)]

def DesignPattern.ofDocument? : Json → Option DesignPattern :=
  RecordReader.read? do
    return {
      name := ← RecordReader.required "name" Json.string?
      confidence := ← RecordReader.required "confidence" Json.single?
      evidence := ← RecordReader.required "evidence" Json.string? }

/-! ### Summaries -/

/-- How often a pattern was found, and in which files. -/
structure PatternOccurrence where
  name : String
  count : Nat
  files : List String
  deriving DecidableEq, Repr, Inhabited

def PatternOccurrence.toDocument (o : PatternOccurrence) : Json :=
  .object
    [("name", .string o.name), ("count", .count o.count),
      ("files", .strings o.files)]

/-- One more sighting of a pattern. A file is listed once, where it is first seen. -/
def PatternOccurrence.seenIn (o : PatternOccurrence) (path : String) : PatternOccurrence :=
  { o with
    count := o.count + 1
    files := if o.files.contains path then o.files else o.files ++ [path] }

/-- Counts a sighting of a pattern in a file. The occurrences counted so far are in the order of their
names, one for each name. -/
def countPattern (path name : String) : List PatternOccurrence → List PatternOccurrence
  | [] => [PatternOccurrence.seenIn ⟨name, 0, []⟩ path]
  | o :: rest =>
    if name < o.name then PatternOccurrence.seenIn ⟨name, 0, []⟩ path :: o :: rest
    else if name = o.name then o.seenIn path :: rest
    else o :: countPattern path name rest

/-- Counts the patterns of a file, one after another. -/
def countFile (counted : List PatternOccurrence) (file : String × List String) :
    List PatternOccurrence :=
  file.2.foldl (fun counted name => countPattern file.1 name counted) counted

/-- The occurrences of each name, the most frequent first; names of one frequency stay in order. -/
def summarizePatterns (files : List (String × List String)) : List PatternOccurrence :=
  (files.foldl countFile []).mergeSort fun a b => b.count ≤ a.count

end CodeIndex
