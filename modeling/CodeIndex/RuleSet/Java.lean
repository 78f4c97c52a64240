import CodeIndex.RuleSet.Basic

/-!
# Java rules

Classes, records and enums are found by their headers, also inside other classes. Constructors bear
the name of their class; methods overlap no constructor, and fields overlap neither.
-/

namespace CodeIndex.Java

open Regex

/-! ### Expressions -/

/-- Any number of annotations. -/
def annotationList : Regex :=
  .rounds (char '@' ++ word ++ opt (enclosed '(' ')') ++ blanks)

/-- Any number of the given modifiers, each followed by blanks. -/
def modifierList (list : List String) : Regex :=
  .rounds (words list ++ blanks1)

/-- Type arguments or parameters between angle brackets, with blanks before them. -/
def typeArguments : Regex :=
  blanks ++ char '<' ++ any (noneOf ['>', '{']) ++ char '>'

def dottedName : Regex := some1 (wordOr ['.'])

/-- A list of type names with arguments, as short as possible. -/
def typeList : Regex := few1 fun c => wordOr [',', '.', '<', '>'] c || isBlank c

/-- A type: a dotted name with arguments and brackets. -/
def typeName : Regex :=
  dottedName ++ opt (char '<' ++ any (noneOf [';', '{', '}', '(', ')']) ++ char '>')
    ++ .rounds (lit "[]")

/-- A throws clause, as short as possible. -/
def throwsClause : Regex :=
  opt (blanks ++ lit "throws" ++ blanks1 ++ few1 fun c => wordOr ['.', ','] c || isBlank c)

/-- A package declaration: 1 name. -/
def packageDeclaration : Regex :=
  edge ++ lit "package" ++ blanks1 ++ .group 1 dottedName ++ blanks ++ char ';'

/-- A class header: 1 annotations, 2 modifiers, 3 name, 4 superclass, 5 interfaces. -/
def classHeader : Regex :=
  .group 1 annotationList
    ++ .group 2 (modifierList
      ["public", "private", "protected", "abstract", "final", "static", "sealed"])
    ++ edge ++ words ["class", "record", "enum"] ++ blanks1 ++ .group 3 word ++ opt typeArguments
    ++ opt (blanks ++ enclosed '(' ')')
    ++ opt (blanks1 ++ lit "extends" ++ blanks1 ++ .group 4 dottedName ++ opt typeArguments)
    ++ opt (blanks1 ++ lit "implements" ++ blanks1 ++ .group 5 typeList) ++ blanks ++ char '{'

/-- An interface header: 1 name, 2 extended interfaces. -/
def interfaceHeader : Regex :=
  modifierList ["public", "private", "protected", "static", "sealed"] ++ edge ++ lit "interface"
    ++ blanks1 ++ .group 1 word ++ opt typeArguments
    ++ opt (blanks1 ++ lit "extends" ++ blanks1 ++ .group 2 typeList) ++ blanks ++ char '{'

/-- A method: 1 annotations, 2 modifiers, 3 return type, 4 name, 5 parameters. -/
def methodDeclaration : Regex :=
  .group 1 annotationList
    ++ .group 2 (modifierList
      ["public", "private", "protected", "static", "final", "abstract", "synchronized", "native",
        "default"])
    ++ opt (char '<' ++ some1 (· != '>') ++ char '>' ++ blanks1) ++ .group 3 typeName ++ blanks1
    ++ .group 4 word ++ blanks ++ char '(' ++ .group 5 (any (· != ')')) ++ char ')' ++ throwsClause
    ++ blanks ++ oneIn ['{', ';']

/-- A constructor header: 1 modifiers, 2 name, 3 parameters. -/
def constructorHeader : Regex :=
  .group 1 (modifierList ["public", "private", "protected"]) ++ .group 2 word ++ blanks ++ char '('
    ++ .group 3 (any (· != ')')) ++ char ')' ++ throwsClause ++ blanks ++ char '{'

/-- A field: 1 modifiers, 2 type, 3 name, 4 value. -/
def fieldDeclaration : Regex :=
  .group 1 (modifierList
      ["public", "private", "protected", "static", "final", "transient", "volatile"])
    ++ .group 2 typeName ++ blanks1 ++ .group 3 word
    ++ opt (blanks ++ char '=' ++ blanks ++ .group 4 (some1 (· != ';'))) ++ char ';'

/-- An import: 1 name. -/
def importDeclaration : Regex :=
  edge ++ lit "import" ++ blanks1 ++ opt (lit "static" ++ blanks1)
    ++ .group 1 (dottedName ++ opt (lit ".*")) ++ blanks ++ char ';'

/-- Words that a declaration rule may find in the place of a type and that name none. -/
def notTypes : List String :=
  ["return", "throw", "new", "package", "import", "else", "case", "assert", "yield"]

/-! ### Classes -/

/-- The annotations of a text, without their signs. -/
def annotations (t : Text) : List String :=
  (t.splitOn (· == '@')).filterMap nonEmptyString?

/-- The access that the first access modifier gives; without one, that of the package. -/
def modifierVisibility (modifiers : Text) : Visibility :=
  (modifiers.words.findSome? Visibility.ofModifier?).getD .packageAccess

def constructorOf? (lines : LineIndex) (m : Match) : Option Constructor := do
  let parameters ← typedParameters? (m.group 3)
  return ⟨lines.lineNumber (m.groupStart 2), parameters⟩

def methodOf? (t : Text) (lines : LineIndex) (m : Match) : Option Method := do
  return {
    name := m.string 4
    line := lines.lineNumber (m.groupStart 4)
    visibility := modifierVisibility (m.group 2)
    isStatic := Text.hasPart "static".toList (m.group 2)
    isAsync := false
    parameters := ← typedParameters? (m.group 5)
    returnType := m.string? 3
    complexity := ← declaredComplexity? t m
    decorators := annotations (m.group 1) }

/-- The field at a match. -/
def propertyOf (lines : LineIndex) (m : Match) : Property :=
  { name := m.string 3
    line := lines.lineNumber (m.groupStart 3)
    visibility := modifierVisibility (m.group 1)
    isStatic := Text.hasPart "static".toList (m.group 1)
    typeName := m.string? 2
    defaultValue := m.trimmed? 4 }

/-- The members in a masked body. -/
def withMembers? (t : Text) (lines : LineIndex) (body : Cursor) (c : ClassDecl) :
    Option ClassDecl := do
  let constructors := (constructorHeader.findAllFrom body).filter (·.string 2 == c.name)
  let methods := (methodDeclaration.findAllFrom body).filter fun m =>
    !m.overlapsAny constructors && !isOneOf notTypes (m.group 3) && !isControlKeyword (m.group 4)
  let claimed := constructors ++ methods
  let fields := (fieldDeclaration.findAllFrom body).filter fun m =>
    !m.overlapsAny claimed && !isOneOf notTypes (m.group 2)
  return { c with
    constructors := ← constructors.mapM (constructorOf? lines)
    methods := ← methods.mapM (methodOf? t lines)
    properties := fields.map (propertyOf lines) }

/-- The class behind a header; its line is that of the modifiers and not of the annotations. -/
def classOf? (t : Text) (lines : LineIndex) (header : Match) : Option ClassDecl := do
  let body ← maskedBody? t header
  withMembers? t lines body
    { name := header.string 3
      line := lines.lineNumber (header.groupStart 2)
      superclass := header.string? 4
      interfaces := commaStrings (header.group 5)
      attributes := (header.group 2).words.map String.ofList
      decorators := annotations (header.group 1) }

/-! ### The rule set -/

/-- The interface behind a header. -/
def interfaceOf (lines : LineIndex) (header : Match) : InterfaceDecl :=
  { name := header.string 1
    line := lines.lineNumber header.start.offset
    parents := commaStrings (header.group 2)
    properties := [] }

/-- The import at a match; its item is the last part of the name. -/
def importOf (lines : LineIndex) (m : Match) : Import :=
  let name := m.group 1
  let item := ((Text.splitLast? ['.'] name).map (·.2)).getD name
  ⟨String.ofList name, [String.ofList item], .java, lines.lineNumber m.start.offset⟩

def describe? (language : Language) (t : Text) : Option Description := do
  let lines := LineIndex.ofText t
  let headers ← classHeader.scan? (·.stop.offset) t
  let classes ← headers.mapM (classOf? t lines)
  return {
    language
    classes
    interfaces := (interfaceHeader.findAll t).map (interfaceOf lines)
    imports := (importDeclaration.findAll t).map (importOf lines)
    package := (packageDeclaration.findAll t).head?.bind (·.string? 1) }

def ruleSet : RuleSet where
  name := "java"
  languages := [.java]
  rules language t := foundOrCut "java" language (describe? language t)

end CodeIndex.Java
