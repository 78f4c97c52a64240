import CodeIndex.Json.Record
import CodeIndex.Structure.Basic

/-!
# Descriptions as documents

The JSON form of a description and its parts. Reading undoes writing; empty parts that the form
leaves out are read back as empty.
-/

namespace CodeIndex

open Json RecordReader

/-! ### Names of cases -/

def Language.cases : List (String × Language) :=
  (Language.all ++ [Language.generic]).map fun l => (l.documentName, l)

def Visibility.documentName : Visibility → String
  | .publicAccess => "public"
  | .privateAccess => "private"
  | .protectedAccess => "protected"
  | .packageAccess => "package"

def Visibility.cases : List (String × Visibility) :=
  [Visibility.publicAccess, .privateAccess, .protectedAccess, .packageAccess].map fun v =>
    (v.documentName, v)

/-- The name of an import form in documents. -/
def ImportKind.documentName : ImportKind → String
  | .es6 => "es6"
  | .commonJs => "commonjs"
  | .python => "python"
  | .java => "java"
  | .generic => "generic"

/-- An import form by its name in documents. -/
def ImportKind.cases : List (String × ImportKind) :=
  [ImportKind.es6, .commonJs, .python, .java, .generic].map fun k => (k.documentName, k)

/-- The name of an export form in documents. -/
def ExportKind.documentName : ExportKind → String
  | .named => "named"
  | .default => "default"

/-- An export form by its name in documents. -/
def ExportKind.cases : List (String × ExportKind) :=
  [ExportKind.named, .default].map fun k => (k.documentName, k)

/-! ### Writing -/

def Parameter.toDocument (p : Parameter) : Json :=
  record
    [always "name" (.string p.name),
      ifSome "type_name" .string p.typeName,
      ifSome "default_value" .string p.defaultValue]

def Method.toDocument (m : Method) : Json :=
  record
    [always "name" (.string m.name),
      always "line" (word m.line),
      always "visibility" (.string m.visibility.documentName),
      always "is_static" (.bool m.isStatic),
      always "is_async" (.bool m.isAsync),
      listOf "parameters" Parameter.toDocument m.parameters,
      always "return_type" (Json.optional .string m.returnType),
      always "complexity" (small m.complexity),
      ifAny "decorators" .string m.decorators]

def Property.toDocument (p : Property) : Json :=
  record
    [always "name" (.string p.name),
      always "line" (word p.line),
      always "visibility" (.string p.visibility.documentName),
      always "is_static" (.bool p.isStatic),
      ifSome "type_name" .string p.typeName,
      ifSome "default_value" .string p.defaultValue,
      always "optional" (.bool p.optional)]

def Constructor.toDocument (c : Constructor) : Json :=
  record
    [always "line" (word c.line),
      listOf "parameters" Parameter.toDocument c.parameters]

def ClassDecl.toDocument (c : ClassDecl) : Json :=
  record
    [always "name" (.string c.name),
      always "line" (word c.line),
      always "superclass" (Json.optional .string c.superclass),
      ifAny "additional_bases" .string c.additionalBases,
      listOf "interfaces" .string c.interfaces,
      listOf "methods" Method.toDocument c.methods,
      listOf "properties" Property.toDocument c.properties,
      listOf "constructors" Constructor.toDocument c.constructors,
      ifAny "attributes" .string c.attributes,
      ifAny "decorators" .string c.decorators]

def FunctionDecl.toDocument (f : FunctionDecl) : Json :=
  record
    [always "name" (.string f.name),
      always "line" (word f.line),
      listOf "parameters" Parameter.toDocument f.parameters,
      always "return_type" (Json.optional .string f.returnType),
      always "is_async" (.bool f.isAsync),
      always "is_exported" (.bool f.isExported),
      always "complexity" (small f.complexity),
      ifAny "decorators" .string f.decorators]

def Import.toDocument (i : Import) : Json :=
  record
    [always "module" (.string i.moduleName),
      listOf "items" .string i.items,
      always "kind" (.string i.kind.documentName),
      always "line" (word i.line)]

def Export.toDocument (e : Export) : Json :=
  record
    [always "name" (.string e.name),
      always "kind" (.string e.kind.documentName),
      always "line" (word e.line)]

def InterfaceDecl.toDocument (i : InterfaceDecl) : Json :=
  record
    [always "name" (.string i.name),
      always "line" (word i.line),
      listOf "extends" .string i.parents,
      listOf "properties" Property.toDocument i.properties]

def Include.toDocument (i : Include) : Json :=
  record
    [always "path" (.string i.path),
      always "is_system" (.bool i.isSystem),
      always "line" (word i.line)]

/-- The document of a declared structure. -/
def Declaration.toDocument (d : Declaration) : Json :=
  record
    [always "kind" (.string d.keyword),
      always "name" (.string d.name),
      always "line" (word d.line)]

/-- The document of comment counts. -/
def CommentStats.toDocument (c : CommentStats) : Json :=
  record
    [always "single_line" (word c.singleLine),
      always "multi_line" (word c.multiLine),
      always "doc" (word c.doc)]

def ErrorHandling.toDocument (e : ErrorHandling) : Json :=
  record
    [always "try_blocks" (word e.tryBlocks),
      always "catch_blocks" (word e.catchBlocks),
      always "throw_statements" (word e.throwStatements),
      listOf "error_types" .string e.errorTypes,
      always "has_error_handling" (.bool e.hasErrorHandling)]

/-- The document of asynchronous code. -/
def AsyncUse.toDocument (a : AsyncUse) : Json :=
  record
    [always "async_functions" (word a.asyncFunctions),
      always "await_calls" (word a.awaitCalls),
      always "promises" (word a.promises),
      always "promise_chains" (word a.promiseChains),
      always "has_async_await" (.bool a.hasAsyncAwait)]

def Description.toDocument (d : Description) : Json :=
  record
    [always "language" (.string d.language.documentName),
      listOf "classes" ClassDecl.toDocument d.classes,
      listOf "functions" FunctionDecl.toDocument d.functions,
      listOf "imports" Import.toDocument d.imports,
      listOf "exports" Export.toDocument d.exports,
      listOf "interfaces" InterfaceDecl.toDocument d.interfaces,
      listOf "includes" Include.toDocument d.includes,
      ifSome "package" .string d.package,
      ifAny "structures" Declaration.toDocument d.structures,
      ifSome "comments" CommentStats.toDocument d.comments,
      ifSome "complexity" small d.complexity,
      ifSome "error_handling" ErrorHandling.toDocument d.errorHandling,
      ifSome "async_patterns" AsyncUse.toDocument d.asyncUse]

/-! ### Reading -/

def Parameter.ofDocument? : Json → Option Parameter :=
  read? do
    return {
      name := ← required "name" string?
      typeName := ← orMissing "type_name" string?
      defaultValue := ← orMissing "default_value" string? }

def Method.ofDocument? : Json → Option Method :=
  read? do
    return {
      name := ← required "name" string?
      line := ← required "line" word?
      visibility := ← required "visibility" (case? Visibility.cases)
      isStatic := ← required "is_static" bool?
      isAsync := ← required "is_async" bool?
      parameters := ← required "parameters" (list? Parameter.ofDocument?)
      returnType := ← nullable "return_type" string?
      complexity := ← required "complexity" small?
      decorators := ← withDefault "decorators" [] strings? }

def Property.ofDocument? : Json → Option Property :=
  read? do
    return {
      name := ← required "name" string?
      line := ← required "line" word?
      visibility := ← required "visibility" (case? Visibility.cases)
      isStatic := ← required "is_static" bool?
      typeName := ← orMissing "type_name" string?
      defaultValue := ← orMissing "default_value" string?
      optional := ← withDefault "optional" false bool? }

def Constructor.ofDocument? : Json → Option Constructor :=
  read? do
    return {
      line := ← required "line" word?
      parameters := ← required "parameters" (list? Parameter.ofDocument?) }

def ClassDecl.ofDocument? : Json → Option ClassDecl :=
  read? do
    return {
      name := ← required "name" string?
      line := ← required "line" word?
      superclass := ← nullable "superclass" string?
      additionalBases := ← withDefault "additional_bases" [] strings?
      interfaces := ← required "interfaces" strings?
      methods := ← required "methods" (list? Method.ofDocument?)
      properties := ← required "properties" (list? Property.ofDocument?)
      constructors := ← required "constructors" (list? Constructor.ofDocument?)
      attributes := ← withDefault "attributes" [] strings?
      decorators := ← withDefault "decorators" [] strings? }

def FunctionDecl.ofDocument? : Json → Option FunctionDecl :=
  read? do
    return {
      name := ← required "name" string?
      line := ← required "line" word?
      parameters := ← required "parameters" (list? Parameter.ofDocument?)
      returnType := ← nullable "return_type" string?
      isAsync := ← required "is_async" bool?
      isExported := ← required "is_exported" bool?
      complexity := ← required "complexity" small?
      decorators := ← withDefault "decorators" [] strings? }

def Import.ofDocument? : Json → Option Import :=
  read? do
    return {
      moduleName := ← required "module" string?
      items := ← required "items" strings?
      kind := ← required "kind" (case? ImportKind.cases)
      line := ← required "line" word? }

def Export.ofDocument? : Json → Option Export :=
  read? do
    return {
      name := ← required "name" string?
      kind := ← required "kind" (case? ExportKind.cases)
      line := ← required "line" word? }

def InterfaceDecl.ofDocument? : Json → Option InterfaceDecl :=
  read? do
    return {
      name := ← required "name" string?
      line := ← required "line" word?
      parents := ← required "extends" strings?
      properties := ← required "properties" (list? Property.ofDocument?) }

def Include.ofDocument? : Json → Option Include :=
  read? do
    return {
      path := ← required "path" string?
      isSystem := ← required "is_system" bool?
      line := ← required "line" word? }

/-- A declared structure from its document. -/
def Declaration.ofDocument? : Json → Option Declaration :=
  read? do
    return {
      keyword := ← required "kind" string?
      name := ← required "name" string?
      line := ← required "line" word? }

/-- Comment counts from their document. -/
def CommentStats.ofDocument? : Json → Option CommentStats :=
  read? do
    return {
      singleLine := ← required "single_line" word?
      multiLine := ← required "multi_line" word?
      doc := ← required "doc" word? }

def ErrorHandling.ofDocument? : Json → Option ErrorHandling :=
  read? do
    return {
      tryBlocks := ← required "try_blocks" word?
      catchBlocks := ← required "catch_blocks" word?
      throwStatements := ← required "throw_statements" word?
      errorTypes := ← required "error_types" strings?
      hasErrorHandling := ← required "has_error_handling" bool? }

/-- Asynchronous code from its document. -/
def AsyncUse.ofDocument? : Json → Option AsyncUse :=
  read? do
    return {
      asyncFunctions := ← required "async_functions" word?
      awaitCalls := ← required "await_calls" word?
      promises := ← required "promises" word?
      promiseChains := ← required "promise_chains" word?
      hasAsyncAwait := ← required "has_async_await" bool? }

def Description.ofDocument? : Json → Option Description :=
  read? do
    return {
      language := ← required "language" (case? Language.cases)
      classes := ← required "classes" (list? ClassDecl.ofDocument?)
      functions := ← required "functions" (list? FunctionDecl.ofDocument?)
      imports := ← required "imports" (list? Import.ofDocument?)
      exports := ← required "exports" (list? Export.ofDocument?)
      interfaces := ← required "interfaces" (list? InterfaceDecl.ofDocument?)
      includes := ← required "includes" (list? Include.ofDocument?)
      package := ← orMissing "package" string?
      structures := ← withDefault "structures" [] (list? Declaration.ofDocument?)
      comments := ← orMissing "comments" CommentStats.ofDocument?
      complexity := ← orMissing "complexity" small?
      errorHandling := ← orMissing "error_handling" ErrorHandling.ofDocument?
      asyncUse := ← orMissing "async_patterns" AsyncUse.ofDocument? }

end CodeIndex
