import CodeIndex.Text.Case
import CodeIndex.Tree.IgnoreRule
import CodeIndex.Tree.Lookup

/-!
# Walking a tree

The source files below a directory, depth first and in the order of names. Entries that are ignored are
left out, as are entries whose names start with a dot, unless a rule keeps them, and directories with an
excluded name. What is walked itself is not judged.
-/

namespace CodeIndex

/-- What a walk takes in. -/
structure WalkOptions where
  extensions : List String
  excluded : List String
  maxFiles : Nat
  deriving Repr

/-- Whether a name starts with a dot. -/
def isHidden (name : Text) : Bool :=
  name.startsWith ['.']

/-- Whether an entry is left out. -/
def isLeftOut (excluded : List String) (layers : List IgnoreLayer) (name : Text) (t : Tree) : Bool :=
  (match layersVerdict? layers name t.isDirectory with
    | some .ignored => true
    | some .kept => false
    | none => isHidden name)
    || (t.isDirectory && isOneOf excluded name)

mutual

/-- The files of a tree at a path: the file itself, or the files below the directory. `layers` holds the
rules of the directories above. -/
def filesOf (excluded : List String) (layers : List IgnoreLayer) (path : Path) : Tree → List Path
  | .file _ => [path]
  | .directory entries =>
    filesBelow excluded (.of (.directory entries) :: layers) path entries

/-- The files of the entries of a directory. -/
def filesBelow (excluded : List String) (layers : List IgnoreLayer) (directory : Path) :
    List (Text × Tree) → List Path
  | [] => []
  | (name, t) :: rest =>
    (if isLeftOut excluded layers name t then []
      else filesOf excluded (layers.map (·.enter name)) (directory.entry name) t)
      ++ filesBelow excluded layers directory rest

end

/-- The layers of the directories above a place, the deepest first. -/
def layersAbove (layers : List IgnoreLayer) (t : Tree) : List Text → List IgnoreLayer
  | [] => layers
  | name :: rest =>
    layersAbove ((.of t :: layers).map (·.enter name)) ((t.child? name).getD .empty) rest

/-- Whether a file has one of the given extensions, whatever the case; leading dots of an extension do
not count. -/
def hasExtension (extensions : List String) (p : Path) : Bool :=
  match p.extension? with
  | none => false
  | some e => extensions.any fun s => Text.lower (s.toList.dropWhile (· == '.')) == e.lower

/-- The source files of the tree at a path, spelt from another spelling of that path on. -/
def Tree.walkAs (root : Tree) (options : WalkOptions) (p spelling : Path) : List Path :=
  match root.locate p with
  | .error _ => []
  | .ok place =>
    let layers := layersAbove [] root place.names
    let files := filesOf options.excluded layers spelling place.tree.inOrder
    (files.filter (hasExtension options.extensions)).take options.maxFiles

/-- The source files of the tree at a path. -/
def Tree.walk (root : Tree) (options : WalkOptions) (p : Path) : List Path :=
  root.walkAs options p p

end CodeIndex
