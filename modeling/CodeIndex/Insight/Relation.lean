import CodeIndex.Json.Record
import CodeIndex.Number.Single
import CodeIndex.Structure.Basic

/-!
# Relations

Weighted edges from a file to what it depends on: the classes it inherits from, the interfaces it
implements, and the modules it imports. Targets are names as written and not resolved to files.
-/

namespace CodeIndex

/-! ### Kinds -/

/-- The kind of an edge. -/
inductive RelationKind where
  | inheritance
  | implementation
  | importing
  deriving DecidableEq, Repr, Inhabited

namespace RelationKind

/-- The kinds, in order of strength. -/
def all : List RelationKind := [.inheritance, .implementation, .importing]

def name : RelationKind → String
  | .inheritance => "inheritance"
  | .implementation => "implementation"
  | .importing => "import"

/-- The weight of an edge of a kind. -/
def strength : RelationKind → Single
  | .inheritance => .ofFloat 0.9
  | .implementation => .ofFloat 0.8
  | .importing => .ofFloat 0.6

/-- The kind with the given name, whatever the case of its ASCII letters. -/
def ofName? (name : String) : Option RelationKind :=
  let lower := String.ofList (name.toList.map Char.toLower)
  all.find? (·.name == lower)

/-- What is said of a name that is no kind. -/
def unknown : String := "Unknown relationship type"

end RelationKind

/-! ### Edges -/

/-- An edge, owned by the file that declares it. -/
structure Relation where
  source : String
  target : String
  kind : RelationKind
  strength : Single
  metadata : Json
  deriving Repr, Inhabited

/-- The edge of a kind with the strength of the kind. -/
def Relation.of (source target : String) (kind : RelationKind) (metadata : Json) : Relation :=
  ⟨source, target, kind, kind.strength, metadata⟩

/-- The document of an edge. -/
def Relation.toDocument (r : Relation) : Json :=
  .object
    [("source", .string r.source), ("target", .string r.target), ("kind", .string r.kind.name),
      ("strength", .single r.strength), ("metadata", r.metadata)]

/-- The kinds, by name. -/
def RelationKind.cases : List (String × RelationKind) :=
  RelationKind.all.map fun k => (k.name, k)

/-- An edge from its document. -/
def Relation.ofDocument? : Json → Option Relation :=
  RecordReader.read? do
    return {
      source := ← RecordReader.required "source" Json.string?
      target := ← RecordReader.required "target" Json.string?
      kind := ← RecordReader.required "kind" (Json.case? RelationKind.cases)
      strength := ← RecordReader.required "strength" Json.single?
      metadata := ← RecordReader.required "metadata" some }

/-- The end of an edge that a queried path sits on. -/
inductive Direction where
  | outgoing
  | incoming
  deriving DecidableEq, Repr, Inhabited

def Direction.name : Direction → String
  | .outgoing => "outgoing"
  | .incoming => "incoming"

/-- An edge seen from one of its ends: `file` is the other end. -/
structure RelatedFile where
  file : String
  kind : RelationKind
  strength : Single
  direction : Direction
  metadata : Json
  deriving Repr, Inhabited

/-- The document of an edge seen from one end. -/
def RelatedFile.toDocument (r : RelatedFile) : Json :=
  .object
    [("file", .string r.file), ("kind", .string r.kind.name), ("strength", .single r.strength),
      ("direction", .string r.direction.name), ("metadata", r.metadata)]

/-! ### The edges of a description -/

/-- The edges of a class: one to each base, then one to each interface. -/
def classRelations (path : String) (c : ClassDecl) : List Relation :=
  let metadata := Json.object [("class", .string c.name)]
  (c.bases.map fun base => .of path base .inheritance metadata)
    ++ c.interfaces.map fun name => .of path name .implementation metadata

/-- The edge of an import. -/
def importRelation (path : String) (i : Import) : Relation :=
  .of path i.moduleName .importing (.object [("items", .strings i.items)])

/-- The edges that a file declares: class by class, then import by import. -/
def relationsOf (path : String) (d : Description) : List Relation :=
  d.classes.flatMap (classRelations path) ++ d.imports.map (importRelation path)

end CodeIndex
