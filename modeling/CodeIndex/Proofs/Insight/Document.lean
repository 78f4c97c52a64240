import CodeIndex.Insight.Metadata
import CodeIndex.Proofs.Structure.Document

/-!
# Analyses and metadata read back

The texts of the documents of design patterns, metrics, edges and metadata read back as what was written,
as long as all reals in it are finite. Where one is not, its place holds null, and nothing is read.
-/

namespace CodeIndex

open Json RecordReader

/-! ### Analyses -/

/-- Whether all reals of some metrics are finite. -/
def CodeMetrics.isFinite (m : CodeMetrics) : Bool :=
  (BinaryValue.ofFloat m.cohesion).isFinite && (BinaryValue.ofFloat m.maintainabilityIndex).isFinite &&
    (BinaryValue.ofFloat m.technicalDebt).isFinite

@[simp] theorem InheritanceMetrics.ofDocument_toDocument (m : InheritanceMetrics) :
    InheritanceMetrics.ofDocument? m.toDocument = some m := by
  simp [InheritanceMetrics.ofDocument?, InheritanceMetrics.toDocument]

@[simp] theorem InheritanceMetrics.spelled_toDocument (m : InheritanceMetrics) :
    m.toDocument.spelled = m.toDocument := by
  simp [InheritanceMetrics.toDocument]

@[simp] theorem CodeMetrics.ofDocument_spelled (m : CodeMetrics) :
    CodeMetrics.ofDocument? m.toDocument.spelled = if m.isFinite then some m else none := by
  by_cases hc : (BinaryValue.ofFloat m.cohesion).isFinite = true <;>
    by_cases hm : (BinaryValue.ofFloat m.maintainabilityIndex).isFinite = true <;>
      by_cases hd : (BinaryValue.ofFloat m.technicalDebt).isFinite = true <;>
        simp [CodeMetrics.ofDocument?, CodeMetrics.toDocument, CodeMetrics.isFinite, hc, hm, hd]

@[simp] theorem DesignPattern.ofDocument_spelled (p : DesignPattern) :
    DesignPattern.ofDocument? p.toDocument.spelled = if p.confidence.isFinite then some p else none := by
  by_cases hp : p.confidence.isFinite = true <;> simp [DesignPattern.ofDocument?, DesignPattern.toDocument, hp]

@[simp] theorem case_relationKind (k : RelationKind) :
    case? RelationKind.cases (.string k.name) = some k := by
  cases k <;> decide

theorem Relation.ofDocument_spelled (r : Relation) :
    Relation.ofDocument? r.toDocument.spelled =
      if r.strength.isFinite then some { r with metadata := r.metadata.spelled } else none := by
  by_cases hr : r.strength.isFinite = true <;> simp [Relation.ofDocument?, Relation.toDocument, hr]

/-! ### Computed analyses -/

theorem finiteRatio_isFinite (x : Float) : (BinaryValue.ofFloat (finiteRatio x)).isFinite = true := by
  rw [finiteRatio]
  split
  · assumption
  · rfl

theorem CodeMetrics.of_isFinite (d : Description) (lines : Nat) : (CodeMetrics.of d lines).isFinite = true := by
  simp only [CodeMetrics.isFinite, CodeMetrics.of, finiteRatio_isFinite, Bool.and_self]

theorem detectPatterns_isFinite (d : Description) :
    (detectPatterns d).all (·.confidence.isFinite) = true := by
  have hchecks : patternChecks.all (·.pattern.confidence.isFinite) = true := by decide
  refine List.all_eq_true.mpr fun p hp => ?_
  obtain ⟨c, hc, rfl⟩ := List.mem_map.mp hp
  exact List.all_eq_true.mp hchecks c (List.mem_filter.mp (List.mem_of_mem_take hc)).1

/-! ### Metadata -/

@[simp] theorem case_apiCallKind (k : ApiCallKind) :
    case? ApiCallKind.cases (.string k.documentName) = some k := by
  cases k <;> decide

@[simp] theorem ClassSummary.ofDocument_toDocument (c : ClassSummary) :
    ClassSummary.ofDocument? c.toDocument = some c := by
  simp [ClassSummary.ofDocument?, ClassSummary.toDocument]

@[simp] theorem ClassSummary.spelled_toDocument (c : ClassSummary) :
    c.toDocument.spelled = c.toDocument := by
  simp [ClassSummary.toDocument]

@[simp] theorem ImportSummary.ofDocument_toDocument (i : ImportSummary) :
    ImportSummary.ofDocument? i.toDocument = some i := by
  simp [ImportSummary.ofDocument?, ImportSummary.toDocument]

@[simp] theorem ImportSummary.spelled_toDocument (i : ImportSummary) :
    i.toDocument.spelled = i.toDocument := by
  simp [ImportSummary.toDocument]

@[simp] theorem ApiCall.ofDocument_toDocument (c : ApiCall) :
    ApiCall.ofDocument? c.toDocument = some c := by
  simp [ApiCall.ofDocument?, ApiCall.toDocument]

@[simp] theorem ApiCall.spelled_toDocument (c : ApiCall) : c.toDocument.spelled = c.toDocument := by
  simp [ApiCall.toDocument]

@[simp] theorem SecurityProfile.ofDocument_toDocument (s : SecurityProfile) :
    SecurityProfile.ofDocument? s.toDocument = some s := by
  simp [SecurityProfile.ofDocument?, SecurityProfile.toDocument]

@[simp] theorem SecurityProfile.spelled_toDocument (s : SecurityProfile) :
    s.toDocument.spelled = s.toDocument := by
  simp [SecurityProfile.toDocument]

/-- Whether all reals of a summary are finite. -/
def StructureSummary.isFinite (s : StructureSummary) : Bool :=
  s.patterns.all (·.confidence.isFinite) && s.metrics.all (·.isFinite)

/-- Whether all reals of some metadata are finite. -/
def FileMetadata.isFinite (m : FileMetadata) : Bool := m.summary.isFinite

@[simp] theorem list_designPattern (list : List DesignPattern) :
    list? DesignPattern.ofDocument? (.array (list.map fun p => p.toDocument.spelled)) =
      if list.all (·.confidence.isFinite) then some list else none :=
  list_spelled DesignPattern.ofDocument? DesignPattern.toDocument _ DesignPattern.ofDocument_spelled list

@[simp] theorem readOr_codeMetrics (m : Option CodeMetrics) :
    readOr none (orNull CodeMetrics.ofDocument?) (m.map fun m => m.toDocument.spelled) =
      if m.all (·.isFinite) then some m else none := by
  cases m with
  | none => rfl
  | some m =>
    have hread := m.ofDocument_spelled
    simp only [CodeMetrics.toDocument, spelled_object] at hread
    simp only [Option.map_some, readOr, CodeMetrics.toDocument, spelled_object, orNull, hread, Option.all_some]
    split <;> rfl

@[simp] theorem StructureSummary.ofDocument_spelled (s : StructureSummary) :
    StructureSummary.ofDocument? s.toDocument.spelled = if s.isFinite then some s else none := by
  by_cases hp : s.patterns.all (·.confidence.isFinite) = true <;>
    by_cases hm : s.metrics.all (·.isFinite) = true <;>
      simp only [StructureSummary.ofDocument?, StructureSummary.toDocument, StructureSummary.isFinite, hp, hm] <;>
        simp [hp, hm]

theorem FileMetadata.ofDocument_spelled (m : FileMetadata) :
    FileMetadata.ofDocument? m.toDocument.spelled = if m.isFinite then some m else none := by
  by_cases hm : m.summary.isFinite = true <;>
    simp [FileMetadata.ofDocument?, FileMetadata.toDocument, FileMetadata.isFinite, hm]

end CodeIndex
