import CodeIndex.RuleSet.Basic

/-!
# C and C++ rules

Classes are found by their headers, also inside other classes. Access labels in the masked body say
who may use the members behind them. Free functions are those that start outside every class block;
the scan goes on behind the body of each function.
-/

namespace CodeIndex.Cpp

open Regex

/-! ### Expressions -/

/-- Whether a character is a star or an ampersand. -/
def isIndirection (c : Char) : Bool :=
  c == '*' || c == '&'

/-- Any number of the given modifiers, each followed by blanks. -/
def modifiers (list : List String) : Regex :=
  .rounds (words list ++ blanks1)

/-- The qualifiers before a name, each a word and two colons. -/
def qualifiers : Regex := .rounds (wholeWord ++ lit "::")

/-- A type name with qualifiers and arguments. -/
def typeName : Regex :=
  qualifiers ++ wholeWord
    ++ opt (blanks ++ char '<' ++ any (noneOf [';', '{', '}', '(', ')']) ++ char '>')

/-- A class header: 1 template clause, 2 keyword, 3 name, 4 final, 5 bases. -/
def classHeader : Regex :=
  opt (.group 1 (lit "template" ++ blanks ++ enclosed '<' '>' ++ blanks)) ++ edge
    ++ .group 2 (words ["class", "struct"]) ++ blanks1 ++ .group 3 word
    ++ opt (.group 4 (blanks1 ++ lit "final"))
    ++ opt (blanks ++ char ':' ++ blanks ++ .group 5 (few1 (noneOf ['{', ';']))) ++ blanks
    ++ char '{'

/-- An access label: 1 access. -/
def accessLabel : Regex :=
  edge ++ .group 1 (words ["public", "private", "protected"]) ++ blanks ++ char ':'

/-- A method: 1 modifiers, 2 return type, 3 name, 4 parameters, 5 qualifiers. -/
def methodDeclaration : Regex :=
  .group 1 (modifiers ["inline", "static", "virtual", "constexpr", "explicit"])
    ++ opt (.group 2 (typeName ++ opt (blanks ++ some1 isIndirection)) ++ blanks1)
    ++ .group 3 (opt (char '~') ++ wholeWord) ++ blanks ++ char '(' ++ .group 4 (any (· != ')'))
    ++ char ')' ++ blanks
    ++ .group 5 (.rounds (words ["const", "noexcept", "override", "final"] ++ blanks))
    ++ opt (lit "->" ++ blanks ++ few1 fun c => wordOr [':', '<', '>', '*', '&'] c || isBlank c)
    ++ blanks ++ opt (char '=' ++ blanks ++ words ["0", "default", "delete"] ++ blanks)
    ++ oneIn ['{', ';']

/-- A data member: 1 modifiers, 2 type, 3 stars before the name, 4 name. -/
def dataMember : Regex :=
  edge ++ .group 1 (modifiers ["static", "mutable", "const", "constexpr", "inline", "volatile"])
    ++ .group 2 (typeName ++ opt (blanks ++ some1 isIndirection)) ++ blanks1
    ++ .group 3 (any isIndirection) ++ .group 4 wholeWord ++ opt (blanks ++ enclosed '[' ']')
    ++ opt (oneOf
      [blanks ++ char '=' ++ blanks ++ some1 (noneOf [';', '{', '}']), blanks ++ enclosed '{' '}'])
    ++ blanks ++ char ';'

/-- A function: 1 modifiers, 2 return type, 3 stars before the name, 4 name, 5 parameters,
6 qualifier, 7 the brace or semicolon at its end. -/
def functionDeclaration : Regex :=
  .group 1 (modifiers ["inline", "static", "virtual", "constexpr", "extern"])
    ++ .group 2 (typeName ++ .rounds (blanks ++ .one isIndirection)) ++ blanks1
    ++ .group 3 (any isIndirection) ++ .group 4 (qualifiers ++ opt (char '~') ++ wholeWord) ++ blanks
    ++ char '(' ++ .group 5 (any (· != ')')) ++ char ')' ++ blanks
    ++ opt (.group 6 (words ["const", "noexcept", "override", "final"])) ++ blanks
    ++ opt (lit "->" ++ some1 fun c => wordOr ['*', '&', ':', '<', '>'] c || isBlank c) ++ blanks
    ++ .group 7 (oneIn ['{', ';'])

/-- An include directive: 1 opening mark, 2 path. -/
def includeDirective : Regex :=
  lit "#include" ++ blanks ++ .group 1 (oneIn ['<', '"']) ++ .group 2 (some1 (noneOf ['>', '"']))
    ++ oneIn ['>', '"']

/-- Words that a declaration rule may find in the place of a type and that name none. -/
def notTypes : List String :=
  ["return", "else", "new", "delete", "throw", "case", "goto", "co_return", "typedef", "using",
    "namespace", "friend", "class", "struct", "enum", "union", "public", "private", "protected",
    "operator", "template"]

/-! ### Classes -/

/-- The base types of a base clause; the words before each are dropped. -/
def baseTypes? (list : Text) : Option (List String) :=
  (splitTopLevel? list).map fun bases =>
    bases.filterMap fun base => base.words.getLast?.map String.ofList

/-- The access labels of a body with the offsets behind them, in order. -/
def accessLabels (body : Cursor) : List (Nat × Visibility) :=
  (accessLabel.findAllFrom body).filterMap fun m =>
    (Visibility.ofModifier? (m.group 1)).map fun v => (m.stop.offset, v)

/-- The access at an offset: that of the last label before it, or the given default. -/
def accessAt (labels : List (Nat × Visibility)) (default : Visibility) (offset : Nat) :
    Visibility :=
  match labels.reverse.find? fun (stop, _) => stop ≤ offset with
  | some (_, v) => v
  | none => default

/-- The return type of a method match, trimmed. -/
def returnType? (m : Match) : Option Text :=
  (m.group? 2).map Text.trim

/-- Whether a match of the method rule declares something. -/
def declaresMethod (m : Match) : Bool :=
  !isControlKeyword (m.group 3) && !(returnType? m).any (isOneOf notTypes)

/-- Whether a method match without a return type has the name of the class. -/
def isConstructor (className : String) (m : Match) : Bool :=
  m.string 3 == className && (returnType? m).isNone

def methodOf? (t : Text) (lines : LineIndex) (access : Nat → Visibility) (m : Match) :
    Option Method := do
  return {
    name := m.string 3
    line := lines.lineNumber (m.groupStart 3)
    visibility := access m.start.offset
    isStatic := Text.hasPart "static".toList (m.group 1)
    isAsync := false
    parameters := ← typedParameters? (m.group 4)
    returnType := (returnType? m).map String.ofList
    complexity := ← declaredComplexity? t m }

def constructorOf? (lines : LineIndex) (m : Match) : Option Constructor := do
  let parameters ← typedParameters? (m.group 4)
  return ⟨lines.lineNumber (m.groupStart 3), parameters⟩

/-- The data member at a match. -/
def propertyOf (lines : LineIndex) (access : Nat → Visibility) (m : Match) : Property :=
  { name := m.string 4
    line := lines.lineNumber (m.groupStart 4)
    visibility := access m.start.offset
    isStatic := Text.hasPart "static".toList (m.group 1)
    typeName := nonEmptyString? ((m.group 2).trim ++ m.group 3) }

/-- The members in a masked body. -/
def withMembers? (t : Text) (lines : LineIndex) (body : Cursor) (default : Visibility)
    (c : ClassDecl) : Option ClassDecl := do
  let access := accessAt (accessLabels body) default
  let claimed := (methodDeclaration.findAllFrom body).filter declaresMethod
  let members := (dataMember.findAllFrom body).filter fun m =>
    !m.overlapsAny claimed && !isOneOf notTypes (m.group 2).trim
  return { c with
    constructors := ← (claimed.filter (isConstructor c.name)).mapM (constructorOf? lines)
    methods := ← (claimed.filter (!isConstructor c.name ·)).mapM (methodOf? t lines access)
    properties := members.map (propertyOf lines access) }

/-- The attributes of a class with the given header and masked body. -/
def classAttributes (header : Match) (body : Text) : List String :=
  (if header.has 1 then ["template"] else [])
    ++ (if header.has 4 then ["final"] else [])
    ++ (if Text.hasPart "virtual".toList body then ["virtual"] else [])
    ++ (if Text.hasPart "static".toList body then ["static"] else [])

/-- The class behind a header. -/
def classOf? (t : Text) (lines : LineIndex) (header : Match) : Option ClassDecl := do
  let body ← maskedBody? t header
  let bases ← baseTypes? (header.group 5)
  let default := if header.group 2 = "struct".toList then .publicAccess else .privateAccess
  withMembers? t lines body default
    { name := header.string 3
      line := lines.lineNumber header.start.offset
      superclass := bases.head?
      additionalBases := bases.tail
      attributes := classAttributes header body.rest }

/-- Where the header of a class starts, and where its block ends. -/
def classRange (t : Text) (header : Match) : Nat × Nat :=
  (header.start.offset, (balancedBlock t (openingBrace header)).2)

/-! ### Functions -/

/-- The first of several ranges that holds an offset. -/
def rangeHolding? (ranges : List (Nat × Nat)) (offset : Nat) : Option (Nat × Nat) :=
  ranges.find? fun (start, stop) => start ≤ offset && offset < stop

/-- Whether a match of the function rule ends in an opening brace. -/
def hasBody (m : Match) : Bool :=
  m.group 7 == ['{']

/-- The end of what a function match declares: behind its block if it has one. -/
def functionEnd (t : Text) (m : Match) : Nat :=
  if hasBody m then (balancedBlock t (m.stop.offset - 1)).2 else m.stop.offset

/-- Where the scan for functions resumes: behind the class that holds the match, or behind the
function. -/
def resumeAfter (classes : List (Nat × Nat)) (t : Text) (m : Match) : Nat :=
  match rangeHolding? classes m.start.offset with
  | some (_, stop) => max stop (m.start.offset + 1)
  | none => functionEnd t m

/-- Whether a match outside the classes declares a function. -/
def declaresFunction (classes : List (Nat × Nat)) (m : Match) : Bool :=
  (rangeHolding? classes m.start.offset).isNone && !isOneOf notTypes (m.group 2).trim
    && !isControlKeyword (m.group 4)

/-- The complexity of the function at a match. -/
def functionComplexity? (t : Text) (m : Match) : Option UInt32 :=
  if hasBody m then blockComplexity? t (m.stop.offset - 1) else some 1

def functionOf? (t : Text) (lines : LineIndex) (m : Match) : Option FunctionDecl := do
  return {
    name := m.string 4
    line := lines.lineNumber m.start.offset
    parameters := ← typedParameters? (m.group 5)
    returnType := some (String.ofList ((m.group 2).trim ++ m.group 3))
    isExported := !Text.hasPart "static".toList (m.group 1)
    complexity := ← functionComplexity? t m }

/-- The functions of a text, whose classes are at the given ranges. -/
def functions? (classes : List (Nat × Nat)) (t : Text) (lines : LineIndex) :
    Option (List FunctionDecl) := do
  let found ← functionDeclaration.scan? (resumeAfter classes t) t
  (found.filter (declaresFunction classes)).mapM (functionOf? t lines)

/-! ### The rule set -/

def includeOf (lines : LineIndex) (m : Match) : Include :=
  ⟨m.string 2, m.group 1 = ['<'], lines.lineNumber m.start.offset⟩

/-- The description of a text; every include is listed as an import too. -/
def describe? (language : Language) (t : Text) : Option Description := do
  let lines := LineIndex.ofText t
  let headers ← classHeader.scan? (·.stop.offset) t
  let classes ← headers.mapM (classOf? t lines)
  let functions ← functions? (headers.map (classRange t)) t lines
  let includes := (includeDirective.findAll t).map (includeOf lines)
  return {
    language
    classes
    functions
    includes
    imports := includes.map fun i => ⟨i.path, [], .generic, i.line⟩ }

/-- The rules for C and C++. -/
def ruleSet : RuleSet where
  name := "cpp"
  languages := [.cpp, .c]
  rules language t := foundOrCut "cpp" language (describe? language t)

end CodeIndex.Cpp
