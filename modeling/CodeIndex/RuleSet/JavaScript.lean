import CodeIndex.RuleSet.Basic

/-!
# JavaScript and TypeScript rules

Classes are found by their headers, also inside other classes. Their members are found in the masked
body: constructors first, then methods that overlap no constructor, then properties that overlap
neither. Functions, imports and exports are found by several rules each and listed in source order.
-/

namespace CodeIndex.JavaScript

open Regex

/-! ### Expressions -/

/-- Type arguments or parameters between angle brackets, with blanks before them. -/
def typeArguments : Regex :=
  blanks ++ char '<' ++ any (noneOf ['>', '{']) ++ char '>'

/-- An optional access modifier, labelled 1. -/
def access : Regex :=
  opt (.group 1 (words ["public", "private", "protected"]) ++ blanks1)

/-- A return or declared type behind a colon, as short as possible. -/
def typeAfterColon (label : Nat) (stops : List Char) : Regex :=
  opt (blanks ++ char ':' ++ blanks ++ .group label (few1 (noneOf stops)))

/-- A quoted text, labelled. -/
def quoted (label : Nat) : Regex :=
  oneIn ['\'', '"'] ++ .group label (some1 (noneOf ['\'', '"'])) ++ oneIn ['\'', '"']

/-- A class header: 1 name, 2 superclass, 3 interfaces. -/
def classHeader : Regex :=
  opt (edge ++ lit "export" ++ blanks1) ++ opt (lit "default" ++ blanks1)
    ++ opt (lit "abstract" ++ blanks1) ++ edge ++ lit "class" ++ blanks1 ++ .group 1 word
    ++ opt typeArguments
    ++ opt (blanks1 ++ lit "extends" ++ blanks1 ++ .group 2 (some1 (wordOr ['.']))
      ++ opt typeArguments)
    ++ opt (blanks1 ++ lit "implements" ++ blanks1
      ++ .group 3 (few1 fun c => wordOr [','] c || isBlank c))
    ++ blanks ++ char '{'

/-- A method header: 1 access, 2 static, 3 async, 4 name, 5 parameters, 6 return type. -/
def methodHeader : Regex :=
  access ++ opt (.group 2 (lit "static") ++ blanks1) ++ opt (.group 3 (lit "async") ++ blanks1)
    ++ opt (words ["get", "set"] ++ blanks1) ++ .group 4 (opt (char '#') ++ word) ++ blanks
    ++ char '(' ++ .group 5 (any (· != ')')) ++ char ')' ++ typeAfterColon 6 ['{', ';']
    ++ blanks ++ char '{'

/-- A property: 1 access, 2 static, 3 name, 4 question mark, 5 type, 6 default. -/
def property : Regex :=
  access ++ opt (.group 2 (lit "static") ++ blanks1) ++ opt (lit "readonly" ++ blanks1)
    ++ .group 3 (opt (char '#') ++ word) ++ opt (.group 4 (char '?'))
    ++ opt (blanks ++ char ':' ++ blanks ++ .group 5 (some1 (noneOf ['=', ';', '{'])))
    ++ opt (blanks ++ char '=' ++ blanks ++ .group 6 (some1 (noneOf [';', '{'])))
    ++ oneIn [';', '{']

/-- A constructor header: 1 parameters. -/
def constructorHeader : Regex :=
  edge ++ lit "constructor" ++ blanks ++ char '(' ++ .group 1 (any (· != ')')) ++ char ')' ++ blanks
    ++ char '{'

/-- A function declaration: 1 export, 2 async, 3 name, 4 parameters, 5 return type. -/
def functionDeclaration : Regex :=
  opt (.group 1 (edge ++ lit "export" ++ blanks1 ++ opt (lit "default" ++ blanks1)))
    ++ opt (.group 2 (edge ++ lit "async" ++ blanks1)) ++ edge ++ lit "function" ++ edge ++ blanks
    ++ opt (char '*') ++ blanks ++ .group 3 word ++ blanks
    ++ opt (char '<' ++ any (noneOf ['>', '(']) ++ char '>') ++ blanks ++ char '('
    ++ .group 4 (any (· != ')')) ++ char ')' ++ typeAfterColon 5 ['{', ';'] ++ blanks ++ char '{'

/-- A function held by a variable: 1 export, 3 name, 2 async, then the parameters of a function
expression (6), of an arrow (7) or a single parameter (8), and 5 the return type. -/
def functionExpression : Regex :=
  opt (.group 1 (edge ++ lit "export" ++ blanks1)) ++ edge ++ words ["const", "let", "var"]
    ++ blanks1 ++ .group 3 word ++ opt (blanks ++ char ':' ++ blanks ++ few1 (· != '=')) ++ blanks
    ++ char '=' ++ blanks ++ opt (.group 2 (lit "async" ++ blanks1))
    ++ oneOf
      [edge ++ lit "function" ++ edge ++ blanks ++ opt (char '*') ++ blanks ++ any isWord ++ blanks
          ++ char '(' ++ .group 6 (any (· != ')')) ++ char ')',
        char '(' ++ .group 7 (any (· != ')')) ++ char ')',
        .group 8 word]
    ++ typeAfterColon 5 ['=', '{', ';'] ++ blanks ++ oneOf [lit "=>", char '{']

/-- An interface header: 1 name, 2 extended interfaces. -/
def interfaceHeader : Regex :=
  opt (edge ++ lit "export" ++ blanks1) ++ edge ++ lit "interface" ++ blanks1 ++ .group 1 word
    ++ opt typeArguments
    ++ opt (blanks1 ++ lit "extends" ++ blanks1
      ++ .group 2 (few1 fun c => wordOr [',', '.', '<', '>'] c || isBlank c))
    ++ blanks ++ char '{'

/-- A field of an interface: 1 name, 2 question mark, 3 type. -/
def interfaceProperty : Regex :=
  opt (lit "readonly" ++ blanks1) ++ .group 1 word ++ opt (.group 2 (char '?')) ++ blanks
    ++ char ':' ++ blanks ++ .group 3 (some1 (noneOf [';', ',', '\n']))

/-- An import with names: 1 or 4 lists, 2 namespace, 3 default, 5 module. -/
def namedImport : Regex :=
  edge ++ lit "import" ++ blanks1 ++ opt (lit "type" ++ blanks1)
    ++ oneOf
      [char '{' ++ .group 1 (some1 (· != '}')) ++ char '}',
        char '*' ++ blanks1 ++ lit "as" ++ blanks1 ++ .group 2 word,
        .group 3 word]
    ++ opt (blanks ++ char ',' ++ blanks ++ char '{' ++ .group 4 (some1 (· != '}')) ++ char '}')
    ++ blanks1 ++ lit "from" ++ blanks1 ++ quoted 5

/-- An import for its effects alone: 1 module. -/
def bareImport : Regex :=
  edge ++ lit "import" ++ blanks1 ++ quoted 1

/-- A required module: 1 list, 2 name, 3 module. -/
def requireCall : Regex :=
  edge ++ words ["const", "let", "var"] ++ blanks1
    ++ oneOf [char '{' ++ .group 1 (some1 (· != '}')) ++ char '}', .group 2 word]
    ++ blanks ++ char '=' ++ blanks ++ lit "require" ++ blanks ++ char '(' ++ blanks ++ quoted 3
    ++ blanks ++ char ')'

/-- An exported declaration: 1 name. -/
def exportedDeclaration : Regex :=
  edge ++ lit "export" ++ blanks1 ++ opt (lit "async" ++ blanks1)
    ++ oneOf
      [lit "const", lit "let", lit "var", lit "function" ++ opt (char '*'), lit "class",
        lit "interface", lit "type", lit "enum"]
    ++ blanks1 ++ .group 1 word

/-- A list of exported names: 1 list. -/
def exportList : Regex :=
  edge ++ lit "export" ++ blanks ++ char '{' ++ .group 1 (any (· != '}')) ++ char '}'

/-- A default export: 1 class, 2 function, 3 other word. -/
def defaultExport : Regex :=
  edge ++ lit "export" ++ blanks1 ++ lit "default" ++ blanks1 ++ opt (lit "abstract" ++ blanks1)
    ++ oneOf
      [lit "class" ++ blanks1 ++ .group 1 word,
        opt (lit "async" ++ blanks1) ++ lit "function" ++ blanks ++ opt (char '*') ++ blanks
          ++ .group 2 word,
        .group 3 word]

/-- An assignment to the exports of a module: 1 the whole, 2 one name. -/
def assignedExport : Regex :=
  oneOf
    [edge ++ lit "module.exports" ++ blanks ++ char '=' ++ blanks ++ .group 1 word,
      edge ++ lit "exports." ++ .group 2 word ++ blanks ++ char '=']

/-- The start of a try block. -/
def tryBlock : Regex := edge ++ lit "try" ++ blanks ++ char '{'

/-- The start of a catch clause. -/
def catchBlock : Regex := edge ++ lit "catch" ++ edge ++ blanks ++ oneIn ['(', '{']

def throwStatement : Regex := edge ++ lit "throw" ++ blanks1

/-- A word that ends in `Error`: the longest such piece of a run of word characters. -/
def errorName : Regex := any isWord ++ lit "Error"

/-- A thrown (1) or caught (2) error type. -/
def errorType : Regex :=
  oneOf
    [edge ++ lit "new" ++ blanks1 ++ .group 1 errorName ++ blanks ++ char '(',
      edge ++ lit "catch" ++ blanks ++ char '(' ++ blanks ++ .group 2 word ++ blanks ++ char ':']

/-- The start of an asynchronous function. -/
def asyncFunction : Regex :=
  edge ++ lit "async" ++ blanks1
    ++ oneOf
      [lit "function" ++ edge,
        word ++ blanks ++ oneOf [lit "=>", char '('],
        char '(' ++ any (· != ')') ++ char ')' ++ blanks ++ lit "=>"]

/-- An await expression. -/
def awaitCall : Regex := edge ++ lit "await" ++ blanks1

def newPromise : Regex := edge ++ lit "new" ++ blanks1 ++ lit "Promise" ++ edge

/-- A step of a promise chain. -/
def thenCall : Regex := lit ".then" ++ blanks ++ char '('

/-! ### Classes -/

/-- The name and visibility of a member; a leading number sign makes it private. -/
def memberName (raw : Text) (modifier : Option Text) : String × Visibility :=
  match raw with
  | '#' :: rest => (String.ofList rest, .privateAccess)
  | _ => (String.ofList raw, (modifier.bind Visibility.ofModifier?).getD .publicAccess)

/-- Whether a type text holds a parenthesis, so that it is none. -/
def hasParenthesis (s : String) : Bool :=
  s.toList.any fun c => c == '(' || c == ')'

def constructorOf? (lines : LineIndex) (m : Match) : Option Constructor := do
  let parameters ← annotatedParameters? (m.group 1)
  return ⟨lines.lineNumber m.start.offset, parameters⟩

def namesMethod (m : Match) : Bool :=
  m.group 4 != "constructor".toList && !isControlKeyword (m.group 4)

/-- The method at a match, in the text `t`. -/
def methodOf? (t : Text) (lines : LineIndex) (m : Match) : Option Method := do
  let (name, visibility) := memberName (m.group 4) (m.group? 1)
  let parameters ← annotatedParameters? (m.group 5)
  let complexity ← blockComplexity? t (openingBrace m)
  return {
    name
    line := lines.lineNumber (m.groupStart 4)
    visibility
    isStatic := m.has 2
    isAsync := m.has 3
    parameters
    returnType := m.trimmed? 6
    complexity }

/-- The property at a match, unless its type is none. -/
def propertyOf? (lines : LineIndex) (m : Match) : Option Property :=
  let typeName := m.trimmed? 5
  if isControlKeyword (m.group 3) || typeName.any hasParenthesis then none
  else
    let (name, visibility) := memberName (m.group 3) (m.group? 1)
    some
      { name
        line := lines.lineNumber (m.groupStart 3)
        visibility
        isStatic := m.has 2
        typeName
        defaultValue := m.trimmed? 6
        optional := m.has 4 }

/-- The members in a masked body. -/
def withMembers? (t : Text) (lines : LineIndex) (body : Cursor) (c : ClassDecl) :
    Option ClassDecl := do
  let constructors := constructorHeader.findAllFrom body
  let methods := (methodHeader.findAllFrom body).filter fun m =>
    !m.overlapsAny constructors && namesMethod m
  let claimed := constructors ++ methods
  let properties := (property.findAllFrom body).filter (!·.overlapsAny claimed)
  return { c with
    constructors := ← constructors.mapM (constructorOf? lines)
    methods := ← methods.mapM (methodOf? t lines)
    properties := properties.filterMap (propertyOf? lines) }

/-- The attributes that a class header shows. -/
def headerAttributes (header : Text) : List String :=
  (if Text.hasPart "abstract".toList header then ["abstract"] else [])
    ++ (if header.trimStart.startsWith "export".toList then ["exported"] else [])

/-- The class behind a header. -/
def classOf? (t : Text) (lines : LineIndex) (header : Match) : Option ClassDecl := do
  let body ← maskedBody? t header
  withMembers? t lines body
    { name := header.string 1
      line := lines.lineNumber header.start.offset
      superclass := header.string? 2
      interfaces := commaStrings (header.group 3)
      attributes := headerAttributes header.text }

/-- The classes of a text; the search goes on inside each class. -/
def classes? (t : Text) (lines : LineIndex) : Option (List ClassDecl) := do
  let headers ← classHeader.scan? (·.stop.offset) t
  headers.mapM (classOf? t lines)

/-! ### Functions -/

/-- The complexity of the function behind a header that ends, at place `stop`, in an opening brace or
an arrow; the body of an arrow without a block is the rest of its line. -/
def expressionComplexity? (t : Text) (stop : Nat) : Option UInt32 := do
  let header ← t.takeBytes? stop
  if header.endsWith ['{'] then blockComplexity? t (stop - 1)
  else
    let rest ← t.dropBytes? stop
    let trimmed := rest.trimStart
    if trimmed.startsWith ['{'] then blockComplexity? t (stop + (rest.width - trimmed.width))
    else
      let line ← rest.takeBytes? (Text.width (rest.takeWhile (· != '\n')))
      return .ofNat (complexity line)

/-- The function at a match of either function rule. -/
def functionOf? (lines : LineIndex) (m : Match) (parameters : Text) (complexity : Option UInt32) :
    Option FunctionDecl := do
  return {
    name := m.string 3
    line := lines.lineNumber m.start.offset
    parameters := ← annotatedParameters? parameters
    returnType := m.trimmed? 5
    isAsync := m.has 2
    isExported := m.has 1
    complexity := ← complexity }

/-- The declared function at a match, with its offset. -/
def declaredAt? (t : Text) (lines : LineIndex) (m : Match) : Option (Nat × FunctionDecl) :=
  (functionOf? lines m (m.group 4) (blockComplexity? t (openingBrace m))).map (m.start.offset, ·)

/-- The function held by a variable at a match, with its offset. -/
def heldAt? (t : Text) (lines : LineIndex) (m : Match) : Option (Nat × FunctionDecl) :=
  let parameters := ((m.group? 6).orElse fun _ => m.group? 7).getD (m.group 8)
  (functionOf? lines m parameters (expressionComplexity? t m.stop.offset)).map (m.start.offset, ·)

def functions? (t : Text) (lines : LineIndex) : Option (List FunctionDecl) := do
  let declared ← (functionDeclaration.findAll t).mapM (declaredAt? t lines)
  let held ← (functionExpression.findAll t).mapM (heldAt? t lines)
  return inSourceOrder (declared ++ held)

/-! ### Interfaces -/

/-- The field of an interface at a match, unless its type is none. -/
def interfacePropertyOf? (lines : LineIndex) (m : Match) : Option Property :=
  match m.trimmed? 3 with
  | none => none
  | some typeName =>
    if hasParenthesis typeName then none
    else
      some
        { name := m.string 1
          line := lines.lineNumber (m.groupStart 1)
          visibility := .publicAccess
          isStatic := false
          typeName := some typeName
          optional := m.has 2 }

/-- The interface behind a header. -/
def interfaceOf? (t : Text) (lines : LineIndex) (header : Match) : Option InterfaceDecl :=
  (maskedBody? t header).map fun body =>
    { name := header.string 1
      line := lines.lineNumber header.start.offset
      parents := commaStrings (header.group 2)
      properties := (interfaceProperty.findAllFrom body).filterMap (interfacePropertyOf? lines) }

def interfaces? (t : Text) (lines : LineIndex) : Option (List InterfaceDecl) :=
  (interfaceHeader.findAll t).mapM (interfaceOf? t lines)

/-! ### Imports and exports -/

/-- The local name of an item such as `a`, `type a`, `a as b` or `a: b`. -/
def localName? (item : Text) : Option String :=
  let item := (Text.dropStarts "type ".toList item.length item.trim).trim
  let name :=
    match Text.splitLast? " as ".toList item with
    | some (_, renamed) => renamed
    | none =>
      match Text.splitFirst? [':'] item with
      | some (_, renamed) => renamed
      | none => item
  nonEmptyString? name

/-- The local names of a comma list. -/
def localNames (list : Text) : List String :=
  (list.splitOn (· == ',')).filterMap localName?

/-- An import found at a match, with its offset. -/
def importAt (lines : LineIndex) (m : Match) (module_ : String) (items : List String)
    (kind : ImportKind) : Nat × Import :=
  (m.start.offset, ⟨module_, items, kind, lines.lineNumber m.start.offset⟩)

def imports (t : Text) (lines : LineIndex) : List Import :=
  let named := (namedImport.findAll t).map fun m =>
    let single := (m.string? 3).orElse fun _ => m.string? 2
    importAt lines m (m.string 5) (single.toList ++ localNames (m.group 1) ++ localNames (m.group 4))
      .es6
  let bare := (bareImport.findAll t).map fun m => importAt lines m (m.string 1) [] .es6
  let required := (requireCall.findAll t).map fun m =>
    let items := if m.has 1 then localNames (m.group 1) else (m.string? 2).toList
    importAt lines m (m.string 3) items .commonJs
  inSourceOrder (named ++ bare ++ required)

/-- An export found at a match, with its offset. -/
def exportAt (lines : LineIndex) (m : Match) (kind : ExportKind) (name : String) : Nat × Export :=
  (m.start.offset, ⟨name, kind, lines.lineNumber m.start.offset⟩)

/-- The name of a default export; keywords that open an anonymous one name nothing. -/
def defaultName (m : Match) : String :=
  let word := ((m.group? 1).orElse fun _ => m.group? 2).getD (m.group 3)
  if isOneOf ["function", "class", "async"] word then "default" else String.ofList word

def exports (t : Text) (lines : LineIndex) : List Export :=
  let declared := (exportedDeclaration.findAll t).map fun m =>
    exportAt lines m .named (m.string 1)
  let listed := (exportList.findAll t).flatMap fun m =>
    (localNames (m.group 1)).map (exportAt lines m .named)
  let defaults := (defaultExport.findAll t).map fun m =>
    exportAt lines m .default (defaultName m)
  let assigned := (assignedExport.findAll t).map fun m =>
    if m.has 1 then exportAt lines m .default (m.string 1)
    else exportAt lines m .named (m.string 2)
  inSourceOrder (declared ++ listed ++ defaults ++ assigned)

/-! ### Statistics -/

/-- The error types of a text, each once, in order of first sight. -/
def errorTypes (t : Text) : List String :=
  ((errorType.findAll t).map fun m => ((m.string? 1).getD (m.string 2))).eraseDups

def errorHandling (t : Text) : ErrorHandling :=
  let tryBlocks := tryBlock.count t
  let catchBlocks := catchBlock.count t
  { tryBlocks
    catchBlocks
    throwStatements := throwStatement.count t
    errorTypes := errorTypes t
    hasErrorHandling := 0 < tryBlocks && 0 < catchBlocks }

/-- The asynchronous code of a text. -/
def asyncUse (t : Text) : AsyncUse :=
  let asyncFunctions := asyncFunction.count t
  let awaitCalls := awaitCall.count t
  { asyncFunctions
    awaitCalls
    promises := newPromise.count t
    promiseChains := thenCall.count t
    hasAsyncAwait := 0 < asyncFunctions && 0 < awaitCalls }

/-! ### The rule set -/

/-- The description of a text; interfaces are listed for TypeScript alone. -/
def describe? (language : Language) (t : Text) : Option Description := do
  let lines := LineIndex.ofText t
  let classes ← classes? t lines
  let functions ← functions? t lines
  let interfaces ← (if language = .typeScript then interfaces? t lines else some [])
  return {
    language
    classes
    functions
    interfaces
    imports := imports t lines
    exports := exports t lines
    errorHandling := some (errorHandling t)
    asyncUse := some (asyncUse t) }

/-- The rules for JavaScript and TypeScript. -/
def ruleSet : RuleSet where
  name := "javascript"
  languages := [.javaScript, .typeScript]
  rules language t := foundOrCut "javascript" language (describe? language t)

end CodeIndex.JavaScript
