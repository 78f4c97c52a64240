import CodeIndex.Text.Basic

/-!
# Paths

A path is a text read as components: the root, a leading `.`, each `..`, and names. Repeated and
trailing slashes and inner `.` components do not count, so that paths are equal when their
components are.
-/

namespace CodeIndex

/-- One step of a path. -/
inductive Component where
  | root
  | current
  | parent
  | name (name : Text)
  deriving DecidableEq, Repr

/-- A path as written. -/
structure Path where
  text : Text
  deriving DecidableEq, Repr

namespace Path

/-- A path from its spelling. -/
def ofString (s : String) : Path :=
  ⟨s.toList⟩

/-- The spelling of a path. -/
def toString (p : Path) : String :=
  String.ofList p.text

/-- Whether the path starts at the root. -/
def isAbsolute (p : Path) : Bool :=
  p.text.startsWith ['/']

/-- The component that a non-leading piece between slashes stands for. -/
def componentOf? (piece : Text) : Option Component :=
  if piece = [] ∨ piece = ['.'] then none
  else if piece = ['.', '.'] then some .parent
  else some (.name piece)

/-- The components of a path, in order. -/
def components (p : Path) : List Component :=
  match p.text.splitOn (· == '/') with
  | [] => []
  | first :: rest =>
    let rest := rest.filterMap componentOf?
    if p.isAbsolute then .root :: rest
    else if first = ['.'] then .current :: rest
    else (componentOf? first).toList ++ rest

/-- The last component, if it is a name. -/
def fileName? (p : Path) : Option Text :=
  match p.components.getLast? with
  | some (.name n) => some n
  | _ => none

/-- What follows the last dot of the file name, unless that dot is its first character. -/
def extension? (p : Path) : Option Text :=
  match p.fileName? with
  | none => none
  | some name =>
    match Text.splitLast? ['.'] name with
    | some (_ :: _, after) => some after
    | _ => none

end Path

end CodeIndex
