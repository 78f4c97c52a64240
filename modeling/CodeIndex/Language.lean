import CodeIndex.Path.Basic
import CodeIndex.Text.Case

/-!
# Languages

The languages with an entry in the extension table, and the fallback for every other file. A
language has a tag, which is what the store keeps, and a display name.
-/

namespace CodeIndex

/-- The language of a source text. -/
inductive Language where
  | javaScript
  | typeScript
  | python
  | cpp
  | c
  | java
  | go
  | rust
  | generic
  deriving DecidableEq, Repr, Inhabited

namespace Language

/-- The languages of the extension table, in its order. -/
def all : List Language :=
  [.javaScript, .typeScript, .python, .cpp, .c, .java, .go, .rust]

/-- The file extensions of a language. -/
def extensions : Language → List String
  | .javaScript => ["js", "jsx", "mjs"]
  | .typeScript => ["ts", "tsx"]
  | .python => ["py"]
  | .cpp => ["cpp", "cc", "cxx", "c++", "hpp", "h"]
  | .c => ["c", "h"]
  | .java => ["java"]
  | .go => ["go"]
  | .rust => ["rs"]
  | .generic => []

/-- The tag under which a language is stored. -/
def tag : Language → String
  | .javaScript => "javascript"
  | .typeScript => "typescript"
  | .python => "python"
  | .cpp => "cpp"
  | .c => "c"
  | .java => "java"
  | .go => "go"
  | .rust => "rust"
  | .generic => "unknown"

/-- The word for a language in a description document; only the fallback differs from its tag. -/
def documentName : Language → String
  | .generic => "generic"
  | l => l.tag

/-- The name shown to people. -/
def displayName : Language → String
  | .javaScript => "JavaScript"
  | .typeScript => "TypeScript"
  | .python => "Python"
  | .cpp => "C++"
  | .c => "C"
  | .java => "Java"
  | .go => "Go"
  | .rust => "Rust"
  | .generic => "Unknown"

/-- The first language that lists the extension, whatever its case. -/
def ofExtension? (extension : Text) : Option Language :=
  all.find? fun l => isOneOf l.extensions extension.lower

/-- The language of a path, by its extension. -/
def ofPath? (p : Path) : Option Language :=
  p.extension?.bind ofExtension?

/-- The language of a path, with the fallback for unknown extensions. -/
def classify (p : Path) : Language :=
  (ofPath? p).getD .generic

/-- The language with the given tag, whatever its case; the fallback has two tags. -/
def ofTag? (tag : Text) : Option Language :=
  let lower := String.ofList tag.lower
  if lower = "unknown" ∨ lower = "generic" then some .generic
  else all.find? fun l => l.tag == lower

end Language

end CodeIndex
