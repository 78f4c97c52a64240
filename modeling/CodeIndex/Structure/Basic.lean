import CodeIndex.Language

/-!
# Structural descriptions

What the rule sets find in one source text, in one flat record for every language. Fields that a
language has no use for stay empty. Lines count from 1.
-/

namespace CodeIndex

/-! ### Parts -/

/-- Who may use a member; package access is that of a member without a modifier in Java. -/
inductive Visibility where
  | publicAccess
  | privateAccess
  | protectedAccess
  | packageAccess
  deriving DecidableEq, Repr, Inhabited

/-- The visibility that a modifier stands for. -/
def Visibility.ofModifier? (modifier : Text) : Option Visibility :=
  if modifier = "public".toList then some .publicAccess
  else if modifier = "private".toList then some .privateAccess
  else if modifier = "protected".toList then some .protectedAccess
  else none

/-- A parameter of a function, method or constructor. -/
structure Parameter where
  name : String
  typeName : Option String := none
  defaultValue : Option String := none
  deriving DecidableEq, Repr, Inhabited

/-- A method of a class. -/
structure Method where
  name : String
  line : UInt64
  visibility : Visibility
  isStatic : Bool
  isAsync : Bool
  parameters : List Parameter
  returnType : Option String
  complexity : UInt32
  decorators : List String := []
  deriving DecidableEq, Repr, Inhabited

/-- A field of a class or an interface. -/
structure Property where
  name : String
  line : UInt64
  visibility : Visibility
  isStatic : Bool
  typeName : Option String := none
  defaultValue : Option String := none
  optional : Bool := false
  deriving DecidableEq, Repr, Inhabited

/-- A constructor of a class. -/
structure Constructor where
  line : UInt64
  parameters : List Parameter
  deriving DecidableEq, Repr, Inhabited

/-- A class, with its first base apart from the others. -/
structure ClassDecl where
  name : String
  line : UInt64
  superclass : Option String := none
  additionalBases : List String := []
  interfaces : List String := []
  methods : List Method := []
  properties : List Property := []
  constructors : List Constructor := []
  attributes : List String := []
  decorators : List String := []
  deriving DecidableEq, Repr, Inhabited

/-- The superclass, then the other bases. -/
def ClassDecl.bases (c : ClassDecl) : List String :=
  c.superclass.toList ++ c.additionalBases

/-- A function outside the classes. -/
structure FunctionDecl where
  name : String
  line : UInt64
  parameters : List Parameter := []
  returnType : Option String := none
  isAsync : Bool := false
  isExported : Bool := false
  complexity : UInt32 := 1
  decorators : List String := []
  deriving DecidableEq, Repr, Inhabited

/-- The form of an import. -/
inductive ImportKind where
  | es6
  | commonJs
  | python
  | java
  | generic
  deriving DecidableEq, Repr, Inhabited

/-- An import: the module as written, and the local names it brings in. -/
structure Import where
  moduleName : String
  items : List String
  kind : ImportKind
  line : UInt64
  deriving DecidableEq, Repr, Inhabited

/-- Whether an export has a name of its own or is the default of its file. -/
inductive ExportKind where
  | named
  | default
  deriving DecidableEq, Repr, Inhabited

structure Export where
  name : String
  kind : ExportKind
  line : UInt64
  deriving DecidableEq, Repr, Inhabited

/-- An interface, with the interfaces it extends. -/
structure InterfaceDecl where
  name : String
  line : UInt64
  parents : List String
  properties : List Property
  deriving DecidableEq, Repr, Inhabited

/-- An include directive of C or C++. -/
structure Include where
  path : String
  isSystem : Bool
  line : UInt64
  deriving DecidableEq, Repr, Inhabited

/-- A declaration found by the generic rules, with its keyword. -/
structure Declaration where
  keyword : String
  name : String
  line : UInt64
  deriving DecidableEq, Repr, Inhabited

/-- Numbers of comments by kind. -/
structure CommentStats where
  singleLine : UInt64
  multiLine : UInt64
  doc : UInt64
  deriving DecidableEq, Repr, Inhabited

/-- How a script deals with errors. -/
structure ErrorHandling where
  tryBlocks : UInt64
  catchBlocks : UInt64
  throwStatements : UInt64
  errorTypes : List String
  hasErrorHandling : Bool
  deriving DecidableEq, Repr, Inhabited

/-- How a script uses asynchronous code. -/
structure AsyncUse where
  asyncFunctions : UInt64
  awaitCalls : UInt64
  promises : UInt64
  promiseChains : UInt64
  hasAsyncAwait : Bool
  deriving DecidableEq, Repr, Inhabited

/-! ### Descriptions -/

/-- The structure of one source text. -/
structure Description where
  language : Language
  classes : List ClassDecl := []
  functions : List FunctionDecl := []
  imports : List Import := []
  exports : List Export := []
  interfaces : List InterfaceDecl := []
  includes : List Include := []
  package : Option String := none
  structures : List Declaration := []
  comments : Option CommentStats := none
  complexity : Option UInt32 := none
  errorHandling : Option ErrorHandling := none
  asyncUse : Option AsyncUse := none
  deriving DecidableEq, Repr, Inhabited

namespace Description

/-- Every method of every class, in order. -/
def methods (d : Description) : List Method :=
  d.classes.flatMap (·.methods)

/-- The names of the functions, in order. -/
def functionNames (d : Description) : List String :=
  d.functions.map (·.name)

end Description

end CodeIndex
