import CodeIndex.Path.Prefix
import CodeIndex.Store.Image
import CodeIndex.Tree.Lookup

/-!
# Opening a store

A store lies in a file. Opening it makes the directories that lead to it and, when there is no file, an
empty store; an empty file counts as none. The image of a database is taken as the store in it. A file with
anything else in it is refused.
-/

namespace CodeIndex

/-- The refusal of a place where no store can be. -/
def cannotOpen (p : Path) : StoreError :=
  .database ("unable to open database file: " ++ p.toString)

/-- The refusal of a file that is not a store. -/
def notStore : StoreError := .database "file is not a database"

/-- The tree with the directories that a path lies in. -/
def withParent (root : Tree) (p : Path) : Except StoreError Tree :=
  match p.parent? with
  | none => .ok root
  | some parent =>
    if parent.text.isEmpty then .ok root
    else
      match root.makeDirectories parent.components with
      | .ok (root, _) => .ok root
      | .error e => .error (.directory parent.toString e.message)

/-- The refusal of the image of a database that is broken. -/
def brokenImage : StoreError := .database "database disk image is malformed"

/-- What bytes hold as a store. -/
def storeOfBytes : List UInt8 → Except StoreError Store
  | [] => .ok .empty
  | b :: rest =>
    match Image.ofBytes? (b :: rest) with
    | none => .error notStore
    | some image => (image.store?.map .ok).getD (.error brokenImage)

/-- What a file holds as a store. -/
def Content.asStore : Content → Except StoreError Store
  | .store s => .ok s
  | .text t => storeOfBytes (textBytes (String.ofList t))
  | .bytes b => storeOfBytes b

/-- Opens the store at a path: the tree with it, and the store. -/
def openStore (root : Tree) (p : Path) : Except StoreError (Tree × Store) := do
  let root ← withParent root p
  match root.contentAt p with
  | .ok c =>
    let s ← c.asStore
    match root.writeAt p (.store s) with
    | .ok root => return (root, s)
    | .error _ => throw (cannotOpen p)
  | .error .notFound =>
    match root.writeAt p (.store .empty) with
    | .ok root => return (root, .empty)
    | .error _ => throw (cannotOpen p)
  | .error _ => throw (cannotOpen p)

/-- The tree with a store at a path, if there is a store. -/
def saveStore (root : Tree) (p : Path) (s : Store) : Tree :=
  match root.locate p with
  | .ok ⟨names, .file (.store _)⟩ => root.put names (.file (.store s))
  | _ => root

end CodeIndex
