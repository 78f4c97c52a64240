import CodeIndex.Tree.Lookup

/-!
# Absolute paths

A path as seen from a directory: repeated slashes and `.` components are gone, `..` components and a
slash at the end stay.
-/

namespace CodeIndex

/-- How a component behind another is spelt. -/
def Component.spelling : Component → Text
  | .root => []
  | .current => ['.']
  | .parent => ['.', '.']
  | .name n => n

namespace Path

/-- Where the components of a path start from. -/
def start (p directory : Path) : Path :=
  if !p.isAbsolute then directory
  else if p.text.startsWith "//".toList && !p.text.startsWith "///".toList then .ofString "//"
  else .ofString "/"

/-- A path with a slash at its end. -/
def withSlash (p : Path) : Path :=
  if p.text.endsWith ['/'] then p else ⟨p.text ++ ['/']⟩

/-- A path as seen from a directory. -/
def absolute (p directory : Path) : Path :=
  let steps := p.components.filter fun c => c != .root && c != .current
  let whole := steps.foldl (fun q c => q.entry c.spelling) (p.start directory)
  if p.text.endsWith ['/'] then whole.withSlash else whole

end Path

end CodeIndex
