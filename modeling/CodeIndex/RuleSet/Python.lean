import CodeIndex.RuleSet.Basic

/-!
# Python rules

Blocks are delimited by indentation. The block of a header ends before the first code line that is
indented no deeper, and the members of a class are the definitions and assignments at the
indentation of the first code line in its block. Comment lines and blank lines are no code lines.
-/

namespace CodeIndex.Python

open Regex

/-! ### Expressions -/

def tabs : Regex := any isTabOrSpace

def tabs1 : Regex := some1 isTabOrSpace

/-- The start of a line and its indentation, labelled 1. -/
def indentation : Regex := .anchor .lineStart ++ .group 1 tabs

/-- A class header: 1 indentation, 2 name, 3 bases. -/
def classHeader : Regex :=
  indentation ++ lit "class" ++ blanks1 ++ .group 2 word
    ++ opt (blanks ++ char '(' ++ .group 3 (any (· != ')')) ++ char ')') ++ blanks ++ char ':'

/-- A function header: 1 indentation, 2 async, 3 name, 4 parameters, 5 return type. -/
def functionHeader : Regex :=
  indentation ++ opt (.group 2 (lit "async" ++ blanks1)) ++ lit "def" ++ blanks1 ++ .group 3 word
    ++ blanks ++ char '(' ++ .group 4 (any (· != ')')) ++ char ')'
    ++ opt (blanks ++ lit "->" ++ blanks ++ .group 5 (few1 (· != ':'))) ++ blanks ++ char ':'

/-- An indented assignment: 1 indentation, 2 name, 3 type, 4 value. -/
def assignment : Regex :=
  .anchor .lineStart ++ .group 1 tabs1 ++ .group 2 word ++ tabs
    ++ opt (char ':' ++ tabs ++ .group 3 (few1 (noneOf ['=', '\n']))) ++ tabs ++ char '=' ++ tabs
    ++ .group 4 (.one (noneOf ['=', '\n']) ++ any (· != '\n')) ++ .anchor .lineEnd

/-- An import: 1 module, 2 or 3 names. -/
def importLine : Regex :=
  .anchor .lineStart ++ tabs
    ++ opt (lit "from" ++ tabs1 ++ .group 1 (some1 (wordOr ['.'])) ++ tabs1) ++ lit "import"
    ++ tabs1
    ++ oneOf
      [char '(' ++ .group 2 (any (· != ')')) ++ char ')',
        .group 3 (some1 (wordOr [',', ' ', '\t', '*', '.']))]

/-- The branch keywords that only Python spells so. -/
def extraBranches : List String := ["elif", "except", "and", "or"]

/-! ### Blocks -/

/-- The width of the tabs and spaces that a line starts with. -/
def indentOf (line : Text) : Nat :=
  (line.takeWhile isTabOrSpace).length

/-- Whether a line holds more than blanks and a comment. -/
def isCodeLine (line : Text) : Bool :=
  !line.trim.isEmpty && !line.trim.startsWith ['#']

/-- The lines of a text with their offsets, for a text that starts at `offset`. -/
def linesFrom (offset : Nat) : List Text → List (Nat × Text)
  | [] => []
  | line :: rest => (offset, line) :: linesFrom (offset + Text.width line) rest

/-- The lines behind the line of a place, with their offsets. -/
def linesAfter? (t : Text) (place : Nat) : Option (List (Nat × Text)) := do
  let rest ← t.dropBytes? place
  let start :=
    match rest.dropWhile (· != '\n') with
    | [] => t.width
    | _ :: _ => place + Text.width (rest.takeWhile (· != '\n')) + 1
  let behind ← t.dropBytes? start
  return linesFrom start behind.fullLines

/-- The end of the block behind a header that ends at a place. -/
def blockEnd? (t : Text) (place indent : Nat) : Option Nat :=
  (linesAfter? t place).map fun lines =>
    match lines.find? fun (_, line) => isCodeLine line && indentOf line ≤ indent with
    | some (offset, _) => offset
    | none => t.width

/-- The indentation of the first code line behind a header, if it is deeper than the header. -/
def memberIndent (lines : List (Nat × Text)) (indent : Nat) : Option Nat :=
  match lines.find? fun (_, line) => isCodeLine line with
  | some (_, line) => if indent < indentOf line then some (indentOf line) else none
  | none => none

/-- The block of a class: where its header starts, where it ends, and how deep its members are. -/
structure ClassBlock where
  start : Nat
  stop : Nat
  memberIndent : Option Nat
  deriving DecidableEq, Repr

/-- Whether a statement at an offset and an indentation is a member of the class. -/
def ClassBlock.owns (b : ClassBlock) (offset indent : Nat) : Bool :=
  b.start ≤ offset && offset < b.stop && b.memberIndent == some indent

/-- The index of the innermost class with a member at an offset and an indentation: the last of
those listed in source order, counted from `first`. -/
def ownerFrom (offset indent : Nat) : (first : Nat) → List ClassBlock → Option Nat
  | _, [] => none
  | first, b :: rest =>
    match ownerFrom offset indent (first + 1) rest with
    | some index => some index
    | none => if b.owns offset indent then some first else none

/-- The decorators on the lines above, the nearest line first; blank lines and comments do not end
them. -/
def decoratorsAbove : List Text → List String
  | [] => []
  | line :: above =>
    match line.trim with
    | [] => decoratorsAbove above
    | '@' :: decorator => String.ofList decorator :: decoratorsAbove above
    | '#' :: _ => decoratorsAbove above
    | _ => []

/-- The decorators directly above a place, from top to bottom. -/
def decoratorsBefore? (t : Text) (offset : Nat) : Option (List String) :=
  (t.takeBytes? offset).map fun above => (decoratorsAbove above.lines.reverse).reverse

/-! ### Members -/

/-- Two leading low lines make a name private unless two trail it; one makes it protected. -/
def visibilityOf (name : Text) : Visibility :=
  let dunder := name.startsWith ['_', '_']
  if dunder && !name.endsWith ['_', '_'] then .privateAccess
  else if name.startsWith ['_'] && !dunder then .protectedAccess
  else .publicAccess

/-- The offset of the first character of a match that is not blank. -/
def keywordOffset (m : Match) : Nat :=
  m.start.offset + Text.width (m.text.takeWhile isBlank)

/-- The indentation of a match. -/
def indentOfMatch (m : Match) : Nat :=
  (m.group 1).width

/-- The block of the class behind a header. -/
def blockOf? (t : Text) (header : Match) : Option ClassBlock := do
  let indent := indentOfMatch header
  let stop ← blockEnd? t header.stop.offset indent
  let lines ← linesAfter? t header.stop.offset
  return ⟨header.start.offset, stop, memberIndent lines indent⟩

/-- The complexity of the body behind a function header. -/
def bodyComplexity? (t : Text) (header : Match) : Option UInt32 := do
  let stop ← blockEnd? t header.stop.offset (indentOfMatch header)
  let body ← t.slice? header.stop.offset stop
  return .ofNat (complexity body + countKeywords extraBranches body)

/-- The function behind a header. -/
def functionOf? (t : Text) (lines : LineIndex) (m : Match) : Option FunctionDecl := do
  return {
    name := m.string 3
    line := lines.lineNumber (keywordOffset m)
    parameters := ← annotatedParameters? (m.group 4)
    returnType := m.trimmed? 5
    isAsync := m.has 2
    isExported := !(m.group 3).startsWith ['_']
    complexity := ← bodyComplexity? t m
    decorators := ← decoratorsBefore? t m.start.offset }

/-- A function as a method of a class. -/
def methodOf (f : FunctionDecl) : Method :=
  { name := f.name
    line := f.line
    visibility := visibilityOf f.name.toList
    isStatic := f.decorators.contains "staticmethod" || f.decorators.contains "classmethod"
    isAsync := f.isAsync
    parameters := f.parameters
    returnType := f.returnType
    complexity := f.complexity
    decorators := f.decorators }

/-- The class attribute assigned at a match. -/
def propertyOf (lines : LineIndex) (m : Match) : Property :=
  { name := m.string 2
    line := lines.lineNumber (m.groupStart 2)
    visibility := visibilityOf (m.group 2)
    isStatic := true
    typeName := m.trimmed? 3
    defaultValue := m.trimmed? 4 }

/-- The bases of a class header; keyword arguments are none. -/
def basesOf (header : Match) : List String :=
  ((header.group 3).commaList.filter (!·.contains '=')).map String.ofList

/-- The class behind a header, still without members. -/
def classOf? (t : Text) (lines : LineIndex) (header : Match) : Option ClassDecl := do
  let bases := basesOf header
  return {
    name := header.string 2
    line := lines.lineNumber (keywordOffset header)
    superclass := bases.head?
    additionalBases := bases.tail
    decorators := ← decoratorsBefore? t header.start.offset }

/-! ### Owners -/

section

variable {α : Type}

/-- Whether every item belongs to one of so many classes or to none. -/
def ownersExist (classes : Nat) (found : List (Option Nat × α)) : Bool :=
  found.all fun (owner, _) => owner.all (· < classes)

/-- The items with an owner, or those without. -/
def ownedBy (owner : Option Nat) (found : List (Option Nat × α)) : List α :=
  (found.filter (·.1 == owner)).map (·.2)

end

/-! ### Imports -/

/-- The local name of an item such as `a` or `a as b`. -/
def localName (item : Text) : String :=
  match Text.splitFirst? " as ".toList item with
  | some (_, renamed) => String.ofList renamed.trim
  | none => String.ofList item

/-- The module of an item such as `a` or `a as b`. -/
def moduleName (item : Text) : String :=
  match Text.splitFirst? " as ".toList item with
  | some (name, _) => String.ofList name.trim
  | none => String.ofList item

/-- The imports of one statement: one for a `from` clause, else one for each module. -/
def importsOf (lines : LineIndex) (m : Match) : List Import :=
  let line := lines.lineNumber (keywordOffset m)
  match m.string? 1 with
  | some module_ =>
    let list := ((m.group? 2).getD (m.group 3)).map fun c => if c == '\n' then ' ' else c
    [⟨module_, (Text.commaList list).map localName, .python, line⟩]
  | none => (m.group 3).commaList.map fun item => ⟨moduleName item, [], .python, line⟩

/-! ### The rule set -/

def describe? (language : Language) (t : Text) : Option Description := do
  let lines := LineIndex.ofText t
  let headers := classHeader.findAll t
  let blocks ← headers.mapM (blockOf? t)
  let classes ← headers.mapM (classOf? t lines)
  let ownerOf (m : Match) := ownerFrom m.start.offset (indentOfMatch m) 0 blocks
  let functions ← (functionHeader.findAll t).mapM fun m =>
    (functionOf? t lines m).map (ownerOf m, ·)
  let properties := (assignment.findAll t).map fun m => (ownerOf m, propertyOf lines m)
  guard (ownersExist classes.length functions && ownersExist classes.length properties)
  return {
    language
    classes := classes.mapIdx fun i c =>
      { c with
        methods := (ownedBy (some i) functions).map methodOf
        properties := ownedBy (some i) properties }
    functions := ownedBy none functions
    imports := (importLine.findAll t).flatMap (importsOf lines) }

def ruleSet : RuleSet where
  name := "python"
  languages := [.python]
  rules language t := foundOrCut "python" language (describe? language t)

end CodeIndex.Python
