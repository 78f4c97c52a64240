import CodeIndex.Proofs.Indexer.Search

/-!
# Stores that indexers share

Indexers with different embedders may work on one store, one call after another. Whether a file is analyzed
anew depends on the hash of its text alone, while a search compares vectors of one type and length only. So
an analyzed file is found by its own text exactly when the stored vector may be compared with that of the
text, as it may be whenever the analysis was made anew. A row that cannot be read back fails every search.
-/

namespace CodeIndex

/-! ### Calls of several indexers -/

namespace Indexer

end Indexer

/-! ### Searches of a ledger -/

namespace Ledger

end Ledger

/-! ### Analyzed files -/

namespace Indexer

end Indexer

end CodeIndex
