import CodeIndex.Proofs.Json.Order
import CodeIndex.Proofs.Structure.Document

/-!
# Descriptions and their documents

A document holds everything of its description, and reading it back does not depend on the order of the
members of its objects: not in the text of a document, and not in a map of its members.
-/

namespace CodeIndex

open Json RecordReader

/-! ### Readers -/

@[simp] theorem Parameter.ofDocument_ignoresOrder : IgnoresOrder Parameter.ofDocument? := by
  refine ignoresOrder_read ?_
  repeat refine unordered_bind (by simp) fun _ => ?_
  exact unordered_pure _

@[simp] theorem Method.ofDocument_ignoresOrder : IgnoresOrder Method.ofDocument? := by
  refine ignoresOrder_read ?_
  repeat refine unordered_bind (by simp) fun _ => ?_
  exact unordered_pure _

@[simp] theorem Property.ofDocument_ignoresOrder : IgnoresOrder Property.ofDocument? := by
  refine ignoresOrder_read ?_
  repeat refine unordered_bind (by simp) fun _ => ?_
  exact unordered_pure _

@[simp] theorem Constructor.ofDocument_ignoresOrder : IgnoresOrder Constructor.ofDocument? := by
  refine ignoresOrder_read ?_
  repeat refine unordered_bind (by simp) fun _ => ?_
  exact unordered_pure _

@[simp] theorem ClassDecl.ofDocument_ignoresOrder : IgnoresOrder ClassDecl.ofDocument? := by
  refine ignoresOrder_read ?_
  repeat refine unordered_bind (by simp) fun _ => ?_
  exact unordered_pure _

@[simp] theorem FunctionDecl.ofDocument_ignoresOrder : IgnoresOrder FunctionDecl.ofDocument? := by
  refine ignoresOrder_read ?_
  repeat refine unordered_bind (by simp) fun _ => ?_
  exact unordered_pure _

@[simp] theorem Import.ofDocument_ignoresOrder : IgnoresOrder Import.ofDocument? := by
  refine ignoresOrder_read ?_
  repeat refine unordered_bind (by simp) fun _ => ?_
  exact unordered_pure _

@[simp] theorem Export.ofDocument_ignoresOrder : IgnoresOrder Export.ofDocument? := by
  refine ignoresOrder_read ?_
  repeat refine unordered_bind (by simp) fun _ => ?_
  exact unordered_pure _

@[simp] theorem InterfaceDecl.ofDocument_ignoresOrder : IgnoresOrder InterfaceDecl.ofDocument? := by
  refine ignoresOrder_read ?_
  repeat refine unordered_bind (by simp) fun _ => ?_
  exact unordered_pure _

@[simp] theorem Include.ofDocument_ignoresOrder : IgnoresOrder Include.ofDocument? := by
  refine ignoresOrder_read ?_
  repeat refine unordered_bind (by simp) fun _ => ?_
  exact unordered_pure _

@[simp] theorem Declaration.ofDocument_ignoresOrder : IgnoresOrder Declaration.ofDocument? := by
  refine ignoresOrder_read ?_
  repeat refine unordered_bind (by simp) fun _ => ?_
  exact unordered_pure _

@[simp] theorem CommentStats.ofDocument_ignoresOrder : IgnoresOrder CommentStats.ofDocument? := by
  refine ignoresOrder_read ?_
  repeat refine unordered_bind (by simp) fun _ => ?_
  exact unordered_pure _

@[simp] theorem ErrorHandling.ofDocument_ignoresOrder : IgnoresOrder ErrorHandling.ofDocument? := by
  refine ignoresOrder_read ?_
  repeat refine unordered_bind (by simp) fun _ => ?_
  exact unordered_pure _

@[simp] theorem AsyncUse.ofDocument_ignoresOrder : IgnoresOrder AsyncUse.ofDocument? := by
  refine ignoresOrder_read ?_
  repeat refine unordered_bind (by simp) fun _ => ?_
  exact unordered_pure _

theorem Description.ofDocument_ignoresOrder : IgnoresOrder Description.ofDocument? := by
  refine ignoresOrder_read ?_
  repeat refine unordered_bind (by simp) fun _ => ?_
  exact unordered_pure _

/-! ### Round trips -/

/-- A document is read back as its description, in whatever order the members of its objects come; so a
description that was read from any document is written and read again without a change. -/
theorem Description.document_loses_nothing :
    (∀ (d : Description) (v : Json), d.toDocument.Alike v → ofDocument? v = some d) ∧
      ∀ (v : Json) (d : Description), ofDocument? v = some d → ∀ w, d.toDocument.Alike w →
        ofDocument? w = some d ∧ (ofDocument? w).map toDocument = some d.toDocument := by
  have hback : ∀ (d : Description) (v : Json), d.toDocument.Alike v → ofDocument? v = some d := by
    intro d v hv
    rw [← ofDocument_ignoresOrder _ _ hv, ofDocument_toDocument]
  refine ⟨hback, fun v d _ w hw => ?_⟩
  have hd := hback d w hw
  exact ⟨hd, congrArg (Option.map toDocument) hd⟩

/-- A document with its members in reverse order. -/
theorem Description.document_loses_nothing_reversed :
    ∃ members : List (String × Json),
      toDocument { language := .java, package := some "a" } = .object members ∧
        ofDocument? (.object members.reverse) = some { language := .java, package := some "a" } ∧
        (ofDocument? (.object members.reverse)).map toDocument = some (.object members) := by
  let d : Description := { language := .java, package := some "a" }
  obtain ⟨members, hmembers⟩ : ∃ members, d.toDocument = .object members := ⟨_, rfl⟩
  have hreversed : d.toDocument.Alike (.object members.reverse) := by
    rw [hmembers]
    exact alike_of_perm (List.reverse_perm members).symm []
  have hread := document_loses_nothing.1 d _ hreversed
  have hagain := document_loses_nothing.2 _ d hread _ hreversed
  rw [hmembers] at hagain
  exact ⟨members, hmembers, hagain⟩

end CodeIndex
