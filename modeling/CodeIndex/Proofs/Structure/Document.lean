import CodeIndex.Proofs.Json.Spelled
import CodeIndex.Structure.Document

/-!
# Descriptions read back

The document of a description, and of each of its parts, reads back as what was written. Empty parts
that the document leaves out are read as empty. These documents hold no reals, so their texts spell the
whole of them.
-/

namespace CodeIndex

open Json RecordReader

/-! ### Names of cases -/

@[simp] theorem case_language (l : Language) :
    case? Language.cases (.string l.documentName) = some l := by
  cases l <;> decide

@[simp] theorem case_visibility (v : Visibility) :
    case? Visibility.cases (.string v.documentName) = some v := by
  cases v <;> decide

@[simp] theorem case_importKind (k : ImportKind) :
    case? ImportKind.cases (.string k.documentName) = some k := by
  cases k <;> decide

@[simp] theorem case_exportKind (k : ExportKind) :
    case? ExportKind.cases (.string k.documentName) = some k := by
  cases k <;> decide

/-! ### Members of classes -/

@[simp] theorem Parameter.ofDocument_toDocument (p : Parameter) :
    Parameter.ofDocument? p.toDocument = some p := by
  simp [Parameter.ofDocument?, Parameter.toDocument]

@[simp] theorem Method.ofDocument_toDocument (m : Method) :
    Method.ofDocument? m.toDocument = some m := by
  simp [Method.ofDocument?, Method.toDocument]

@[simp] theorem Property.ofDocument_toDocument (p : Property) :
    Property.ofDocument? p.toDocument = some p := by
  simp [Property.ofDocument?, Property.toDocument]

@[simp] theorem Constructor.ofDocument_toDocument (c : Constructor) :
    Constructor.ofDocument? c.toDocument = some c := by
  simp [Constructor.ofDocument?, Constructor.toDocument]

/-! ### Declarations -/

@[simp] theorem ClassDecl.ofDocument_toDocument (c : ClassDecl) :
    ClassDecl.ofDocument? c.toDocument = some c := by
  simp [ClassDecl.ofDocument?, ClassDecl.toDocument]

@[simp] theorem FunctionDecl.ofDocument_toDocument (f : FunctionDecl) :
    FunctionDecl.ofDocument? f.toDocument = some f := by
  simp [FunctionDecl.ofDocument?, FunctionDecl.toDocument]

@[simp] theorem Import.ofDocument_toDocument (i : Import) :
    Import.ofDocument? i.toDocument = some i := by
  simp [Import.ofDocument?, Import.toDocument]

@[simp] theorem Export.ofDocument_toDocument (e : Export) :
    Export.ofDocument? e.toDocument = some e := by
  simp [Export.ofDocument?, Export.toDocument]

@[simp] theorem InterfaceDecl.ofDocument_toDocument (i : InterfaceDecl) :
    InterfaceDecl.ofDocument? i.toDocument = some i := by
  simp [InterfaceDecl.ofDocument?, InterfaceDecl.toDocument]

@[simp] theorem Include.ofDocument_toDocument (i : Include) :
    Include.ofDocument? i.toDocument = some i := by
  simp [Include.ofDocument?, Include.toDocument]

@[simp] theorem Declaration.ofDocument_toDocument (d : Declaration) :
    Declaration.ofDocument? d.toDocument = some d := by
  simp [Declaration.ofDocument?, Declaration.toDocument]

/-! ### Statistics -/

@[simp] theorem CommentStats.ofDocument_toDocument (c : CommentStats) :
    CommentStats.ofDocument? c.toDocument = some c := by
  simp [CommentStats.ofDocument?, CommentStats.toDocument]

@[simp] theorem ErrorHandling.ofDocument_toDocument (e : ErrorHandling) :
    ErrorHandling.ofDocument? e.toDocument = some e := by
  simp [ErrorHandling.ofDocument?, ErrorHandling.toDocument]

@[simp] theorem AsyncUse.ofDocument_toDocument (a : AsyncUse) :
    AsyncUse.ofDocument? a.toDocument = some a := by
  simp [AsyncUse.ofDocument?, AsyncUse.toDocument]

@[simp] theorem CommentStats.ofDocument_null : CommentStats.ofDocument? .null = none := by
  simp only [CommentStats.ofDocument?, read_null]

@[simp] theorem ErrorHandling.ofDocument_null : ErrorHandling.ofDocument? .null = none := by
  simp only [ErrorHandling.ofDocument?, read_null]

@[simp] theorem AsyncUse.ofDocument_null : AsyncUse.ofDocument? .null = none := by
  simp only [AsyncUse.ofDocument?, read_null]

/-! ### Descriptions -/

@[simp] theorem Description.ofDocument_toDocument (d : Description) :
    Description.ofDocument? d.toDocument = some d := by
  simp [Description.ofDocument?, Description.toDocument]

/-! ### Spelled documents -/

@[simp] theorem Parameter.spelled_toDocument (p : Parameter) : p.toDocument.spelled = p.toDocument := by
  simp [Parameter.toDocument]

@[simp] theorem Method.spelled_toDocument (m : Method) : m.toDocument.spelled = m.toDocument := by
  simp [Method.toDocument]

@[simp] theorem Property.spelled_toDocument (p : Property) : p.toDocument.spelled = p.toDocument := by
  simp [Property.toDocument]

@[simp] theorem Constructor.spelled_toDocument (c : Constructor) : c.toDocument.spelled = c.toDocument := by
  simp [Constructor.toDocument]

@[simp] theorem ClassDecl.spelled_toDocument (c : ClassDecl) : c.toDocument.spelled = c.toDocument := by
  simp [ClassDecl.toDocument]

@[simp] theorem FunctionDecl.spelled_toDocument (f : FunctionDecl) : f.toDocument.spelled = f.toDocument := by
  simp [FunctionDecl.toDocument]

@[simp] theorem Import.spelled_toDocument (i : Import) : i.toDocument.spelled = i.toDocument := by
  simp [Import.toDocument]

@[simp] theorem Export.spelled_toDocument (e : Export) : e.toDocument.spelled = e.toDocument := by
  simp [Export.toDocument]

@[simp] theorem InterfaceDecl.spelled_toDocument (i : InterfaceDecl) : i.toDocument.spelled = i.toDocument := by
  simp [InterfaceDecl.toDocument]

@[simp] theorem Include.spelled_toDocument (i : Include) : i.toDocument.spelled = i.toDocument := by
  simp [Include.toDocument]

@[simp] theorem Declaration.spelled_toDocument (d : Declaration) : d.toDocument.spelled = d.toDocument := by
  simp [Declaration.toDocument]

@[simp] theorem CommentStats.spelled_toDocument (c : CommentStats) : c.toDocument.spelled = c.toDocument := by
  simp [CommentStats.toDocument]

@[simp] theorem ErrorHandling.spelled_toDocument (e : ErrorHandling) : e.toDocument.spelled = e.toDocument := by
  simp [ErrorHandling.toDocument]

@[simp] theorem AsyncUse.spelled_toDocument (a : AsyncUse) : a.toDocument.spelled = a.toDocument := by
  simp [AsyncUse.toDocument]

@[simp] theorem Description.spelled_toDocument (d : Description) : d.toDocument.spelled = d.toDocument := by
  simp [Description.toDocument]

end CodeIndex
