import CodeIndex.RuleSet.Basic

/-!
# Generic rules

The reduced rules for every language without rules of its own: declared functions in source order
and then words that look like calls, each name once and twenty at most; declared structures,
imports, comment counts and one branch count for the whole text.
-/

namespace CodeIndex.Generic

open Regex

/-! ### Expressions -/

/-- An identifier: ASCII letters or the low line first, word characters behind. -/
def identifier : Regex :=
  .one (fun c => c.isAlpha || c == '_') ++ any isWord

/-- The declarations of functions; the name is labelled 1. -/
def declarations : List Regex :=
  [edge ++ lit "function" ++ blanks1 ++ .group 1 word,
    edge ++ lit "def" ++ blanks1 ++ .group 1 word,
    edge ++ lit "fn" ++ blanks1 ++ .group 1 word,
    edge ++ lit "func" ++ blanks1 ++ opt (enclosed '(' ')' ++ blanks) ++ .group 1 word]

/-- What looks like a call: 1 name. -/
def callLike : Regex := edge ++ .group 1 identifier ++ blanks ++ char '('

/-- A declared structure: 1 keyword, 2 name. -/
def structureDeclaration : Regex :=
  edge ++ .group 1 (words ["class", "struct", "interface", "type", "trait", "enum"]) ++ blanks1
    ++ .group 2 identifier

def tabs1 : Regex := some1 isTabOrSpace

/-- A quotation mark. -/
def quotation : Regex := oneIn ['\'', '"']

/-- An import in one of four forms; the module is labelled by its form. -/
def importForm : Regex :=
  oneOf
    [edge ++ lit "import" ++ tabs1 ++ .group 1 (some1 (noneOf ['\n', ';'])),
      edge ++ lit "require" ++ blanks ++ char '(' ++ blanks ++ quotation
        ++ .group 2 (some1 (noneOf ['\'', '"'])) ++ quotation ++ blanks ++ char ')',
      lit "#include" ++ blanks ++ oneIn ['<', '"'] ++ .group 3 (some1 (noneOf ['>', '"']))
        ++ oneIn ['>', '"'],
      edge ++ lit "use" ++ tabs1 ++ .group 4 (some1 (noneOf [';', '\n'])) ++ char ';']

def lineComment : Regex := lit "//" ++ any (· != '\n') ++ .anchor .lineEnd

/-- A comment between an opening mark and the next closing mark. -/
def commentFrom (mark : String) : Regex :=
  lit mark ++ .run .few (fun _ => true) ++ lit "*/"

/-- The branch keywords of the generic count. -/
def branches : List String := ["if", "else", "for", "while", "switch", "try", "catch"]

/-- Words that look like calls and never name a function. -/
def notFunctions : List String :=
  ["fn", "func", "function", "def", "return", "match", "loop", "sizeof", "typeof", "new", "Some",
    "Ok", "Err"]

/-- The largest number of functions listed. -/
def maxFunctions : Nat := 20

/-! ### Functions -/

/-- A name with the offset where it was found. -/
def nameAt (m : Match) : Nat × Text :=
  (m.groupStart 1, m.group 1)

/-- The declared names of a text with their offsets, in source order. -/
def declaredNames (t : Text) : List (Nat × Text) :=
  (declarations.flatMap fun r => (r.findAll t).map nameAt).mergeSort fun a b => a.1 ≤ b.1

/-- The names that look like calls, with their offsets, in source order. -/
def calledNames (t : Text) : List (Nat × Text) :=
  (callLike.findAll t).map nameAt

def mayNameFunction (word : Text) : Bool :=
  !isControlKeyword word && !isOneOf notFunctions word

/-- The entries whose name was not seen before, given the names already seen. -/
def firstSights : (seen : List Text) → List (Nat × Text) → List (Nat × Text)
  | _, [] => []
  | seen, (offset, name) :: rest =>
    if seen.contains name then firstSights seen rest
    else (offset, name) :: firstSights (name :: seen) rest

def functions (t : Text) (lines : LineIndex) : List FunctionDecl :=
  let candidates := (declaredNames t ++ calledNames t).filter fun (_, name) => mayNameFunction name
  ((firstSights [] candidates).take maxFunctions).map fun (offset, name) =>
    { name := String.ofList name, line := lines.lineNumber offset }

/-! ### The rule set -/

/-- The structure at a match. -/
def declarationOf (lines : LineIndex) (m : Match) : Declaration :=
  ⟨m.string 1, m.string 2, lines.lineNumber (m.groupStart 1)⟩

def importOf (lines : LineIndex) (m : Match) : Import :=
  let name := ([1, 2, 3, 4].findSome? m.group?).getD []
  ⟨String.ofList name.trim, [], .generic, lines.lineNumber m.start.offset⟩

def commentStats (t : Text) : CommentStats :=
  ⟨lineComment.count t, (commentFrom "/*").count t, (commentFrom "/**").count t⟩

def describe (language : Language) (t : Text) : Description :=
  let lines := LineIndex.ofText t
  { language
    functions := functions t lines
    structures := (structureDeclaration.findAll t).map (declarationOf lines)
    imports := (importForm.findAll t).map (importOf lines)
    comments := some (commentStats t)
    complexity := some (.ofNat (1 + countKeywords branches t)) }

/-- The rules for every other language. -/
def ruleSet : RuleSet where
  name := "generic"
  languages := [.go, .rust, .generic]
  servesAll := true
  rules language t := .ok (describe language t)

end CodeIndex.Generic
