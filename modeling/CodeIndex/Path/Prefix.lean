import CodeIndex.Path.Basic

/-!
# Parents and relative paths

The spelling of a path without its last component, or without the components of another path. What
remains keeps its spelling, but loses the slashes and `.` components at the cut and at its end.
-/

namespace CodeIndex.Path

/-! ### Cutting at the end -/

/-- A reversed spelling without the slashes and `.` components that it starts with, as long as something
stands behind them. -/
def dropIdleEnd : Text → Text
  | '/' :: c :: rest => dropIdleEnd (c :: rest)
  | '.' :: '/' :: rest => dropIdleEnd ('/' :: rest)
  | t => t

/-- The spelling without idle slashes and `.` components at its end. -/
def trimmed (p : Path) : Path :=
  ⟨(dropIdleEnd p.text.reverse).reverse⟩

/-- The directory that a path lies in; the root and the empty path lie in none. -/
def parent? (p : Path) : Option Path :=
  match p.components.getLast? with
  | none => none
  | some .root => none
  | some _ =>
    let above := (p.trimmed.text.reverse.dropWhile (· != '/')).reverse
    some (Path.mk above).trimmed

/-! ### Cutting at the start -/

/-- A spelling without the slashes and `.` components that it starts with. -/
def dropIdleStart : Text → Text
  | '/' :: rest => dropIdleStart rest
  | '.' :: '/' :: rest => dropIdleStart ('/' :: rest)
  | ['.'] => []
  | t => t

/-- A spelling without its first `count` pieces between slashes, and idle pieces around them. -/
def dropPieces : (count : Nat) → Text → Text
  | 0, t => dropIdleStart t
  | count + 1, t => dropPieces count ((dropIdleStart t).dropWhile (· != '/'))

/-- Whether components start with others. -/
def startsWithComponents : (components base : List Component) → Bool
  | _, [] => true
  | [], _ :: _ => false
  | a :: components, b :: base => a == b && startsWithComponents components base

/-- What a path says from another path on, if its components start with those of the other. -/
def relativeTo? (p base : Path) : Option Path :=
  let components := base.components
  if startsWithComponents p.components components then
    let named := components.filter fun c => c != .root && c != .current
    match components with
    | [] => some p.trimmed
    | .current :: _ => some (Path.mk (dropPieces named.length (p.text.drop 1))).trimmed
    | _ => some (Path.mk (dropPieces named.length p.text)).trimmed
  else none

end CodeIndex.Path
