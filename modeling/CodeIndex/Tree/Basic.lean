import CodeIndex.Path.Order
import CodeIndex.Store.Table

/-!
# File trees

A tree of directories with files in them. A file holds a text, other bytes, or a store. Entries of a
directory have different names; their order is that of their names once a tree is put in order.
-/

namespace CodeIndex

/-! ### Contents -/

/-- What a file holds. -/
inductive Content where
  | text (t : Text)
  | bytes (b : List UInt8)
  | store (s : Store)
  deriving Inhabited

/-- The text that bytes spell in UTF-8. -/
def Text.ofBytes? (bytes : List UInt8) : Option Text :=
  (String.fromUTF8? ⟨bytes.toArray⟩).map (·.toList)

/-- The text of a file, if it holds one. -/
def Content.text? : Content → Option Text
  | .text t => some t
  | .bytes b => Text.ofBytes? b
  | .store _ => none

/-! ### Trees -/

/-- A file or a directory. -/
inductive Tree where
  | file (content : Content)
  | directory (entries : List (Text × Tree))
  deriving Inhabited

namespace Tree

/-- The directory without entries. -/
def empty : Tree := .directory []

def isDirectory : Tree → Bool
  | .directory _ => true
  | .file _ => false

/-- The entries of a directory; a file has none. -/
def entries : Tree → List (Text × Tree)
  | .directory entries => entries
  | .file _ => []

/-- The entry of a directory with a name. -/
def child? (t : Tree) (name : Text) : Option Tree :=
  t.entries.lookup name

/-- The tree below a list of names. -/
def descend? (t : Tree) : List Text → Option Tree
  | [] => some t
  | name :: rest => (t.child? name).bind (·.descend? rest)

/-- Entries with a tree under a name, in the place of what was there. -/
def putEntry (name : Text) (t : Tree) : List (Text × Tree) → List (Text × Tree)
  | [] => [(name, t)]
  | e :: rest => if e.1 = name then (name, t) :: rest else e :: putEntry name t rest

/-- The tree with another below a list of names; directories on the way are made, and a file on the way
gives way to a directory. -/
def put (t : Tree) (names : List Text) (new : Tree) : Tree :=
  match names with
  | [] => new
  | name :: rest =>
    .directory (putEntry name (((t.child? name).getD empty).put rest new) t.entries)

/-- The tree without what stands below a list of names. -/
def erase (t : Tree) : List Text → Tree
  | [] => t
  | [name] =>
    match t with
    | .directory entries => .directory (entries.filter (·.1 != name))
    | .file c => .file c
  | name :: rest =>
    match t.child? name with
    | some child => .directory (putEntry name (child.erase rest) t.entries)
    | none => t

/-! ### Order -/

/-- Whether an entry may stand before another in the order of names. -/
def nameNotAfter (a b : Text × Tree) : Bool :=
  Text.compare a.1 b.1 != .gt

mutual

/-- The tree with the entries of every directory in the order of their names. -/
def inOrder : Tree → Tree
  | .file c => .file c
  | .directory entries => .directory ((entriesInOrder entries).mergeSort nameNotAfter)

/-- The entries, each put in order. -/
def entriesInOrder : List (Text × Tree) → List (Text × Tree)
  | [] => []
  | (name, t) :: rest => (name, t.inOrder) :: entriesInOrder rest

end

end Tree

end CodeIndex
