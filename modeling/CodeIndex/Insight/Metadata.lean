import CodeIndex.Insight.FileAnalysis
import CodeIndex.Regex.Scan
import CodeIndex.Structure.Document
import CodeIndex.Text.Complexity

/-!
# File metadata

What is kept of a file next to its vector: names and counts from its analysis, and scans of the
whole text that need no analysis, such as calls of web interfaces, tags and security marks.
-/

namespace CodeIndex

open Regex

/-! ### Parts -/

/-- A class as the metadata shows it. -/
structure ClassSummary where
  name : String
  parent : Option String
  line : UInt64
  deriving DecidableEq, Repr, Inhabited

/-- An import as the metadata shows it. -/
structure ImportSummary where
  moduleName : String
  items : List String
  deriving DecidableEq, Repr, Inhabited

/-- The way a web interface is called. -/
inductive ApiCallKind where
  | http
  | axios
  | fetch
  deriving DecidableEq, Repr, Inhabited

/-- A call of a web interface. -/
structure ApiCall where
  kind : ApiCallKind
  method : Option String
  deriving DecidableEq, Repr, Inhabited

/-- The security marks of a text. -/
structure SecurityProfile where
  hasValidation : Bool
  hasSanitization : Bool
  hasAuthentication : Bool
  hasAuthorization : Bool
  hasEncryption : Bool
  vulnerabilities : List String
  deriving DecidableEq, Repr, Inhabited

/-- What the metadata says about the structure: counts, or the error of the extraction. -/
structure StructureSummary where
  hasStructure : Bool
  patterns : List DesignPattern := []
  metrics : Option CodeMetrics := none
  classCount : UInt64 := 0
  functionCount : UInt64 := 0
  interfaceCount : UInt64 := 0
  error : Option String := none
  deriving Repr, Inhabited

structure FileMetadata where
  size : UInt64
  lines : UInt64
  language : String
  functions : List String
  classes : List ClassSummary
  imports : List ImportSummary
  exports : List String
  errorHandling : ErrorHandling
  complexity : UInt32
  apiCalls : List ApiCall
  patterns : List String
  security : SecurityProfile
  summary : StructureSummary
  deriving Repr, Inhabited

/-! ### Scans -/

def holds (t : Text) (part : String) : Bool :=
  Text.hasPart part.toList t

def patternTags (t : Text) : List String :=
  (if holds t "constructor" && holds t "extends" then ["inheritance"] else [])
    ++ (if holds t "Promise" || holds t "async" || holds t "await" then ["async"] else [])
    ++ (if holds t "addEventListener" || holds t "on(" then ["event-driven"] else [])
    ++ (if holds t "factory" || holds t "Factory" then ["factory"] else [])
    ++ (if holds t "Singleton" || holds t "getInstance" then ["singleton"] else [])

/-- The security marks of a text. -/
def securityProfile (t : Text) : SecurityProfile :=
  { hasValidation := ["validate", "isValid", "check"].any (holds t)
    hasSanitization := ["sanitize", "escape", "clean"].any (holds t)
    hasAuthentication := ["auth", "login", "token"].any (holds t)
    hasAuthorization := ["permission", "role", "access"].any (holds t)
    hasEncryption := ["encrypt", "hash", "crypto"].any (holds t)
    vulnerabilities :=
      (if holds t "eval(" then ["eval-usage"] else [])
        ++ (if holds t "innerHTML" && !holds t "sanitize" then ["xss-risk"] else [])
        ++ (if holds t "SQL" && holds t "+" then ["sql-injection-risk"] else []) }

/-- A request method in a call, labelled 1. -/
def requestMethod : Regex :=
  .group 1 (words ["get", "post", "put", "delete", "patch"]) ++ blanks ++ char '('

/-- The call of a request method of any object. -/
def httpCall : Regex := char '.' ++ requestMethod

def axiosCall : Regex := edge ++ lit "axios." ++ requestMethod

def fetchCall : Regex := edge ++ lit "fetch" ++ blanks ++ char '('

/-- The calls of web interfaces: requests of any object, then of axios, then fetches. -/
def apiCalls (t : Text) : List ApiCall :=
  ((httpCall.findAll t).map fun m => ⟨.http, some (String.ofList (m.group 1))⟩)
    ++ ((axiosCall.findAll t).map fun m => ⟨.axios, some (String.ofList (m.group 1))⟩)
    ++ (fetchCall.findAll t).map fun _ => ⟨.fetch, none⟩

/-- The start of a try block in any language. -/
def anyTry : Regex := edge ++ lit "try" ++ blanks ++ oneIn ['{', ':']

/-- A throw or raise statement. -/
def anyThrow : Regex := edge ++ words ["throw", "raise"] ++ blanks1

/-- The error handling of a text in any language. -/
def scanErrorHandling (t : Text) : ErrorHandling :=
  let tryBlocks := anyTry.count t
  let catchBlocks := .ofNat (countKeywords ["catch", "except"] t)
  { tryBlocks
    catchBlocks
    throwStatements := anyThrow.count t
    errorTypes := []
    hasErrorHandling := 0 < tryBlocks && 0 < catchBlocks }

/-! ### Metadata -/

/-- The largest number of function names kept. -/
def maxFunctionNames : Nat := 10

/-- The metadata that needs no analysis. -/
def scanMetadata (t : Text) (language : Language) : FileMetadata :=
  { size := .ofNat t.width
    lines := .ofNat (t.count '\n' + 1)
    language := language.tag
    functions := []
    classes := []
    imports := []
    exports := []
    errorHandling := scanErrorHandling t
    complexity := .ofNat (CodeIndex.complexity t)
    apiCalls := CodeIndex.apiCalls t
    patterns := patternTags t
    security := securityProfile t
    summary := { hasStructure := false } }

/-- The metadata of a text whose structure could not be extracted. -/
def FileMetadata.ofFailure (t : Text) (language : Language) (reason : String) : FileMetadata :=
  { scanMetadata t language with summary := { hasStructure := false, error := some reason } }

def FileMetadata.ofAnalysis (t : Text) (language : Language) (a : FileAnalysis) : FileMetadata :=
  let d := a.description
  let scanned := scanMetadata t language
  { scanned with
    functions := (d.functionNames ++ d.methods.map (·.name)).take maxFunctionNames
    classes := d.classes.map fun c => ⟨c.name, c.superclass, c.line⟩
    imports := d.imports.map fun i => ⟨i.moduleName, i.items⟩
    exports := d.exports.map (·.name)
    errorHandling := d.errorHandling.getD scanned.errorHandling
    summary :=
      { hasStructure := true
        patterns := a.patterns
        metrics := some a.metrics
        classCount := .ofNat d.classes.length
        functionCount := .ofNat d.functions.length
        interfaceCount := .ofNat d.interfaces.length } }

/-! ### Documents -/

open Json RecordReader

/-- The name of a way to call. -/
def ApiCallKind.documentName : ApiCallKind → String
  | .http => "http"
  | .axios => "axios"
  | .fetch => "fetch"

/-- The ways to call, by name. -/
def ApiCallKind.cases : List (String × ApiCallKind) :=
  [ApiCallKind.http, .axios, .fetch].map fun k => (k.documentName, k)

def ClassSummary.toDocument (c : ClassSummary) : Json :=
  .object
    [("name", .string c.name), ("extends", Json.optional .string c.parent), ("line", .word c.line)]

def ClassSummary.ofDocument? : Json → Option ClassSummary :=
  read? do
    return {
      name := ← required "name" string?
      parent := ← nullable "extends" string?
      line := ← required "line" word? }

def ImportSummary.toDocument (i : ImportSummary) : Json :=
  .object [("module", .string i.moduleName), ("items", .strings i.items)]

def ImportSummary.ofDocument? : Json → Option ImportSummary :=
  read? do
    return {
      moduleName := ← required "module" string?
      items := ← required "items" strings? }

def ApiCall.toDocument (c : ApiCall) : Json :=
  record [always "kind" (.string c.kind.documentName), ifSome "method" .string c.method]

def ApiCall.ofDocument? : Json → Option ApiCall :=
  read? do
    return {
      kind := ← required "kind" (case? ApiCallKind.cases)
      method := ← orMissing "method" string? }

/-- The document of security marks. -/
def SecurityProfile.toDocument (s : SecurityProfile) : Json :=
  .object
    [("has_validation", .bool s.hasValidation), ("has_sanitization", .bool s.hasSanitization),
      ("has_authentication", .bool s.hasAuthentication),
      ("has_authorization", .bool s.hasAuthorization), ("has_encryption", .bool s.hasEncryption),
      ("vulnerabilities", .strings s.vulnerabilities)]

/-- Security marks from their document. -/
def SecurityProfile.ofDocument? : Json → Option SecurityProfile :=
  read? do
    return {
      hasValidation := ← required "has_validation" bool?
      hasSanitization := ← required "has_sanitization" bool?
      hasAuthentication := ← required "has_authentication" bool?
      hasAuthorization := ← required "has_authorization" bool?
      hasEncryption := ← required "has_encryption" bool?
      vulnerabilities := ← required "vulnerabilities" strings? }

def StructureSummary.toDocument (s : StructureSummary) : Json :=
  record
    [always "has_ast" (.bool s.hasStructure),
      listOf "architectural_patterns" DesignPattern.toDocument s.patterns,
      ifSome "code_metrics" CodeMetrics.toDocument s.metrics,
      always "class_count" (word s.classCount),
      always "function_count" (word s.functionCount),
      always "interface_count" (word s.interfaceCount),
      ifSome "error" .string s.error]

def StructureSummary.ofDocument? : Json → Option StructureSummary :=
  read? do
    return {
      hasStructure := ← required "has_ast" bool?
      patterns := ← withDefault "architectural_patterns" [] (list? DesignPattern.ofDocument?)
      metrics := ← orMissing "code_metrics" CodeMetrics.ofDocument?
      classCount := ← withDefault "class_count" 0 word?
      functionCount := ← withDefault "function_count" 0 word?
      interfaceCount := ← withDefault "interface_count" 0 word?
      error := ← orMissing "error" string? }

def FileMetadata.toDocument (m : FileMetadata) : Json :=
  .object
    [("size", .word m.size), ("lines", .word m.lines), ("language", .string m.language),
      ("functions", .strings m.functions),
      ("classes", .array (m.classes.map ClassSummary.toDocument)),
      ("imports", .array (m.imports.map ImportSummary.toDocument)),
      ("exports", .strings m.exports), ("error_handling", m.errorHandling.toDocument),
      ("complexity", .small m.complexity),
      ("api_calls", .array (m.apiCalls.map ApiCall.toDocument)),
      ("patterns", .strings m.patterns), ("security", m.security.toDocument),
      ("ast", m.summary.toDocument)]

def FileMetadata.ofDocument? : Json → Option FileMetadata :=
  read? do
    return {
      size := ← required "size" word?
      lines := ← required "lines" word?
      language := ← required "language" string?
      functions := ← required "functions" strings?
      classes := ← required "classes" (list? ClassSummary.ofDocument?)
      imports := ← required "imports" (list? ImportSummary.ofDocument?)
      exports := ← required "exports" strings?
      errorHandling := ← required "error_handling" ErrorHandling.ofDocument?
      complexity := ← required "complexity" small?
      apiCalls := ← required "api_calls" (list? ApiCall.ofDocument?)
      patterns := ← required "patterns" strings?
      security := ← required "security" SecurityProfile.ofDocument?
      summary := ← required "ast" StructureSummary.ofDocument? }

end CodeIndex
