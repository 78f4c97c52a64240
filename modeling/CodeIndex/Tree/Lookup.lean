import CodeIndex.Tree.Basic

/-!
# Looking up paths

A path is followed from the root one component at a time; each step but the last has to be a directory.
Reading fails with the reasons of the operating system.
-/

namespace CodeIndex

/-! ### Reasons -/

/-- Why a file operation failed. -/
inductive FileError where
  | notFound
  | exists
  | notDirectory
  | isDirectory
  | nameTooLong
  | innerNull
  | notText
  deriving DecidableEq, Repr, Inhabited

/-- The text of a reason. -/
def FileError.message : FileError → String
  | .notFound => "No such file or directory (os error 2)"
  | .exists => "File exists (os error 17)"
  | .notDirectory => "Not a directory (os error 20)"
  | .isDirectory => "Is a directory (os error 21)"
  | .nameTooLong => "File name too long (os error 36)"
  | .innerNull => "file name contained an unexpected NUL byte"
  | .notText => "stream did not contain valid UTF-8"

/-! ### Paths below paths -/

namespace Path

/-- Whether a path can only name a directory: it ends in a slash, or in a slash and a dot. -/
def namesDirectory (p : Path) : Bool :=
  p.text.endsWith ['/'] || p.text.endsWith ['/', '.']

/-- A path taken from another; an absolute path stays as it is. -/
def join (base p : Path) : Path :=
  if p.isAbsolute ∨ base.text.isEmpty then p
  else if base.text.endsWith ['/'] then ⟨base.text ++ p.text⟩
  else ⟨base.text ++ '/' :: p.text⟩

def entry (directory : Path) (name : Text) : Path :=
  directory.join ⟨name⟩

/-- What follows when the components of `base` are taken from the front. -/
def dropComponents? : (base components : List Component) → Option (List Component)
  | [], components => some components
  | _ :: _, [] => none
  | a :: base, b :: components => if a = b then dropComponents? base components else none

end Path

/-! ### Places -/

/-- A place in a tree: the names that lead to it from the root, and what stands there. -/
structure Place where
  names : List Text
  tree : Tree

/-- The longest name of an entry, in bytes. -/
def maxNameWidth : Nat := 255

/-- The place reached by following components; `trail` holds the directories passed, the latest first,
with the names of the steps from them. -/
def followFrom (trail : List (Tree × Text)) (here : Tree) :
    List Component → Except FileError Place
  | [] => .ok ⟨(trail.map (·.2)).reverse, here⟩
  | step :: rest =>
    match here with
    | .file _ => .error .notDirectory
    | .directory entries =>
      match step with
      | .name n =>
        if maxNameWidth < n.width then .error .nameTooLong
        else
          match entries.lookup n with
          | none => .error .notFound
          | some next => followFrom ((here, n) :: trail) next rest
      | .parent =>
        match trail with
        | [] => followFrom [] here rest
        | (above, _) :: trail => followFrom trail above rest
      | _ => followFrom trail here rest

/-- The place of an absolute path in a tree. -/
def Tree.locate (root : Tree) (p : Path) : Except FileError Place :=
  if p.text.contains '\x00' then .error .innerNull
  else
    match followFrom [] root p.components with
    | .error e => .error e
    | .ok place =>
      if p.namesDirectory && !place.tree.isDirectory then .error .notDirectory else .ok place

def Tree.hasDirectory (root : Tree) (p : Path) : Bool :=
  match root.locate p with
  | .ok place => place.tree.isDirectory
  | .error _ => false

/-- Whether there is anything at a path. -/
def Tree.hasPath (root : Tree) (p : Path) : Bool :=
  (root.locate p).isOk

/-- What the file at a path holds. -/
def Tree.contentAt (root : Tree) (p : Path) : Except FileError Content :=
  match root.locate p with
  | .error e => .error e
  | .ok ⟨_, .directory _⟩ => .error .isDirectory
  | .ok ⟨_, .file c⟩ => .ok c

def Tree.textAt (root : Tree) (p : Path) : Except FileError Text :=
  match root.contentAt p with
  | .error e => .error e
  | .ok c => match c.text? with
    | some t => .ok t
    | none => .error .notText

/-! ### Making directories and files -/

/-- The directory that a path lies in, by its components. -/
def parentComponents? (p : Path) : Option (List Component) :=
  match p.components with
  | [] => none
  | [.root] => none
  | components => some components.dropLast

/-- The tree with the directories that lead along components; `here` is what stands at the place reached
so far, `done` its names. -/
def makeAlong (root : Tree) (place : Place) : List Component → Except FileError (Tree × Place)
  | [] => if place.tree.isDirectory then .ok (root, place) else .error .exists
  | step :: rest =>
    match place.tree with
    | .file _ => .error .notDirectory
    | .directory entries =>
      match step with
      | .name n =>
        if maxNameWidth < n.width then .error .nameTooLong
        else
          let names := place.names ++ [n]
          match entries.lookup n with
          | some next => makeAlong root ⟨names, next⟩ rest
          | none => makeAlong (root.put names .empty) ⟨names, .empty⟩ rest
      | .parent =>
        let names := place.names.dropLast
        makeAlong root ⟨names, (root.descend? names).getD root⟩ rest
      | _ => makeAlong root place rest

/-- The tree with all directories along absolute components. -/
def Tree.makeDirectories (root : Tree) (components : List Component) :
    Except FileError (Tree × Place) :=
  makeAlong root ⟨[], root⟩ components

/-- The tree with a file at a path, whose directory has to be there. -/
def Tree.writeAt (root : Tree) (p : Path) (c : Content) : Except FileError Tree :=
  if p.text.contains '\x00' then .error .innerNull
  else
    match root.locate p with
    | .ok ⟨_, .directory _⟩ => .error .isDirectory
    | .ok ⟨names, .file _⟩ => .ok (root.put names (.file c))
    | .error .notFound =>
      match parentComponents? p, p.fileName? with
      | some parent, some name =>
        match followFrom [] root parent with
        | .ok ⟨names, .directory _⟩ =>
          if p.namesDirectory then .error .isDirectory
          else .ok (root.put (names ++ [name]) (.file c))
        | .ok ⟨_, .file _⟩ => .error .notDirectory
        | .error e => .error e
      | _, _ => .error .notFound
    | .error e => .error e

end CodeIndex
