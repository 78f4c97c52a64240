import CodeIndex.Json.Record
import CodeIndex.Number.Bound
import CodeIndex.Structure.Basic

/-!
# Code metrics

Numbers computed from a description and the number of lines: complexity, cohesion of the classes,
coupling by imports, inheritance, a maintainability index and technical debt.
-/

namespace CodeIndex

/-- How classes inherit. -/
structure InheritanceMetrics where
  depthOfInheritance : UInt64
  numberOfChildren : UInt64
  classHierarchies : UInt64
  deriving DecidableEq, Repr, Inhabited

/-- The metrics of a file. -/
structure CodeMetrics where
  cyclomaticComplexity : UInt32
  cohesion : Float
  coupling : UInt64
  inheritance : InheritanceMetrics
  maintainabilityIndex : Float
  technicalDebt : Float
  deriving Repr, Inhabited

/-- The sum of a list of doubles, from left to right. -/
def floatSum (list : List Float) : Float :=
  list.foldl (· + ·) (-0.0)

/-- One, the complexity of each function, and one for each method; in 32 bits. -/
def Description.cyclomatic (d : Description) : UInt32 :=
  .ofNat (1 + total (d.functions.map fun f => max f.complexity.toNat 1) + d.methods.length)

/-- The number of properties for each method of a class. -/
def propertyRatio (c : ClassDecl) : Float :=
  if c.methods.isEmpty then 0.0 else Float.ofNat c.properties.length / Float.ofNat c.methods.length

/-- The mean property ratio of the classes. -/
def Description.cohesion (d : Description) : Float :=
  if d.classes.isEmpty then 0.0
  else floatSum (d.classes.map propertyRatio) / Float.ofNat d.classes.length

def Description.inheritance (d : Description) : InheritanceMetrics :=
  ⟨.ofNat (d.classes.countP (·.superclass.isSome)),
    .ofNat (total (d.classes.map (·.interfaces.length))), .ofNat d.classes.length⟩

/-- A percentage that falls with the complexity and the number of lines. -/
def maintainability (complexity : UInt32) (lines : Nat) : Float :=
  let raw := 171.0 - 5.2 * (Float.ofNat (max complexity.toNat 1)).log - 0.23 * Float.ofNat lines
  let percent := raw * 100.0 / 171.0
  if 0.0 < percent then percent else 0.0

/-- Debt for a high complexity, for missing error handling, and for each complex function, rounded
to one decimal. -/
def Description.debt (d : Description) (complexity : UInt32) : Float :=
  let high := if 10 < complexity then 0.0 + Float.ofNat complexity.toNat * 0.5 else 0.0
  let unhandled := d.errorHandling.any (!·.hasErrorHandling)
  let debt := if unhandled then high + 5.0 else high
  let complex := d.functions.filter fun f => 8 < f.complexity
  let debt := debt + floatSum (complex.map fun f => Float.ofNat f.complexity.toNat * 0.3)
  (debt * 10.0).round / 10.0

/-- A computed ratio. Counts are below 2^64 and divisors are not 0, so the other case does not arise; it
is here because the library says nothing of the results of `Float.log` and `Float.round`. -/
def finiteRatio (x : Float) : Float := if (BinaryValue.ofFloat x).isFinite then x else 0.0

def CodeMetrics.of (d : Description) (lines : Nat) : CodeMetrics :=
  let complexity := d.cyclomatic
  { cyclomaticComplexity := complexity
    cohesion := finiteRatio d.cohesion
    coupling := .ofNat d.imports.length
    inheritance := d.inheritance
    maintainabilityIndex := finiteRatio (maintainability complexity lines)
    technicalDebt := finiteRatio (d.debt complexity) }

/-! ### Documents -/

def InheritanceMetrics.toDocument (m : InheritanceMetrics) : Json :=
  .object
    [("depth_of_inheritance", .word m.depthOfInheritance),
      ("number_of_children", .word m.numberOfChildren),
      ("class_hierarchies", .word m.classHierarchies)]

def InheritanceMetrics.ofDocument? : Json → Option InheritanceMetrics :=
  RecordReader.read? do
    return {
      depthOfInheritance := ← RecordReader.required "depth_of_inheritance" Json.word?
      numberOfChildren := ← RecordReader.required "number_of_children" Json.word?
      classHierarchies := ← RecordReader.required "class_hierarchies" Json.word? }

def CodeMetrics.toDocument (m : CodeMetrics) : Json :=
  .object
    [("cyclomatic_complexity", .small m.cyclomaticComplexity),
      ("cohesion", .real m.cohesion),
      ("coupling", .word m.coupling),
      ("inheritance", m.inheritance.toDocument),
      ("maintainability_index", .real m.maintainabilityIndex),
      ("technical_debt", .real m.technicalDebt)]

def CodeMetrics.ofDocument? : Json → Option CodeMetrics :=
  RecordReader.read? do
    return {
      cyclomaticComplexity := ← RecordReader.required "cyclomatic_complexity" Json.small?
      cohesion := ← RecordReader.required "cohesion" Json.float?
      coupling := ← RecordReader.required "coupling" Json.word?
      inheritance := ← RecordReader.required "inheritance" InheritanceMetrics.ofDocument?
      maintainabilityIndex := ← RecordReader.required "maintainability_index" Json.float?
      technicalDebt := ← RecordReader.required "technical_debt" Json.float? }

end CodeIndex
