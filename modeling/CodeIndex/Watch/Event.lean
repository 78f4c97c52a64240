import CodeIndex.Language

/-!
# Change events

What a watcher of files reports, reduced to what matters for a store of source files: that a file was
created, changed or deleted. A rename is a deletion of the old name and a creation of the new one.
-/

namespace CodeIndex

/-- What happened to a file. -/
inductive ChangeKind where
  | created
  | changed
  | deleted
  deriving DecidableEq, Repr, Inhabited

def ChangeKind.name : ChangeKind → String
  | .created => "created"
  | .changed => "changed"
  | .deleted => "deleted"

/-- A change of one source file. -/
structure FileEvent where
  kind : ChangeKind
  path : Path
  deriving DecidableEq, Repr

/-- What the watcher of the operating system reports. -/
inductive NoticeKind where
  | any
  | other
  | access
  | create
  | remove
  | modify
  | metadata
  | renameBoth
  | renameFrom
  | renameTo
  deriving DecidableEq, Repr

/-- A report about some paths. -/
structure Notice where
  kind : NoticeKind
  paths : List Path
  deriving Repr

/-- The changes that a report stands for, for files of any kind. -/
def Notice.changes (n : Notice) : List FileEvent :=
  let all (kind : ChangeKind) := n.paths.map fun p => FileEvent.mk kind p
  match n.kind, n.paths with
  | .create, _ => all .created
  | .remove, _ => all .deleted
  | .renameBoth, [old, new] => [⟨.deleted, old⟩, ⟨.created, new⟩]
  | .renameBoth, _ => all .changed
  | .renameFrom, _ => all .deleted
  | .renameTo, _ => all .created
  | .modify, _ => all .changed
  | .any, _ => []
  | .other, _ => []
  | .access, _ => []
  | .metadata, _ => []

/-- The changes of source files that a report stands for. -/
def Notice.events (n : Notice) : List FileEvent :=
  n.changes.filter fun e => (Language.ofPath? e.path).isSome

end CodeIndex
