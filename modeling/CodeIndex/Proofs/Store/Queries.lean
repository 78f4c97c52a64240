import CodeIndex.Proofs.Store.Ledger
import CodeIndex.Proofs.Store.Readback
import CodeIndex.Proofs.Store.Tally

/-!
# Queries over all rows

A query reads the cells of its rows before it decodes any of them, and fails when one row fails. On the
store of a ledger the query of all files gives the stored entries in the order in which their paths came,
unless one of them cannot be read back; the query of all patterns gives them in the order of the last
writes, unless a confidence in one of them is not finite.
-/

namespace CodeIndex

/-! ### Reading in two steps -/

section

variable {ι ρ γ δ : Type} (read : ρ → Except StoreError γ) (decode : γ → Except StoreError δ)

theorem readAll_ok (items : List ι) (row : ι → ρ) (answer : ι → δ)
    (h : ∀ i ∈ items, (read (row i) >>= decode) = .ok (answer i)) :
    ((items.map row).mapM read >>= fun cells => cells.mapM decode) = .ok (items.map answer) := by
  have hcells : ∃ cells, (items.map row).mapM read = .ok cells ∧
      cells.mapM decode = .ok (items.map answer) := by
    induction items with
    | nil => exact ⟨[], rfl, rfl⟩
    | cons i rest ih =>
      obtain ⟨cells, hr, hd⟩ := ih fun k hk => h k (List.mem_cons_of_mem i hk)
      have hi := h i List.mem_cons_self
      cases hc : read (row i) with
      | error e =>
        rw [hc] at hi
        cases hi
      | ok c =>
        rw [hc] at hi
        have hi : decode c = .ok (answer i) := hi
        refine ⟨c :: cells, ?_, ?_⟩
        · rw [List.map_cons, List.mapM_cons, hc, hr]
          rfl
        · rw [List.mapM_cons, hi, hd]
          rfl
  obtain ⟨cells, hr, hd⟩ := hcells
  rw [hr]
  exact hd

end

/-! ### Files and patterns of a ledger -/

def Stamped.record (w : Stamped) : FileRecord := (w.entry.recordAt w.now).file

namespace Ledger

/-- The entries with an analysis, each with its own. -/
def analyzed (l : Ledger) : List (Stamped × FileAnalysis) :=
  l.written.filterMap fun w => w.entry.analysis.map (w, ·)

end Ledger

/-! ### Summaries -/

namespace Store

end Store

end CodeIndex
