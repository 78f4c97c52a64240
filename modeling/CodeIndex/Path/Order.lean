import CodeIndex.Path.Basic

/-!
# The order of paths

Paths are compared component by component: the root comes first, then `.`, then `..`, then names by
their characters. Paths with the same components are alike, however they are spelled.
-/

namespace CodeIndex

/-- The rank of a kind of component. -/
def Component.rank : Component → Nat
  | .root => 0
  | .current => 1
  | .parent => 2
  | .name _ => 3

/-- The name of a component, empty if it has none. -/
def Component.nameText : Component → Text
  | .name n => n
  | _ => []

/-- How two texts compare, character by character. -/
def Text.compare : Text → Text → Ordering
  | [], [] => .eq
  | [], _ :: _ => .lt
  | _ :: _, [] => .gt
  | a :: s, b :: t =>
    if a.toNat < b.toNat then .lt else if b.toNat < a.toNat then .gt else compare s t

/-- How two components compare. -/
def Component.compare (a b : Component) : Ordering :=
  if a.rank < b.rank then .lt
  else if b.rank < a.rank then .gt
  else Text.compare a.nameText b.nameText

/-- How two lists of components compare. -/
def compareComponents : List Component → List Component → Ordering
  | [], [] => .eq
  | [], _ :: _ => .lt
  | _ :: _, [] => .gt
  | a :: s, b :: t =>
    match a.compare b with
    | .eq => compareComponents s t
    | other => other

namespace Path

/-- Whether two paths have the same components. -/
def same (p q : Path) : Bool :=
  p.components == q.components

/-- Whether a path is not after another. -/
def notAfter (p q : Path) : Bool :=
  compareComponents p.components q.components != .gt

end Path

end CodeIndex
