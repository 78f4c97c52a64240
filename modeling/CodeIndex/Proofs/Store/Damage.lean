import CodeIndex.Indexer.Basic
import CodeIndex.Proofs.Store.Readback
import CodeIndex.Proofs.Store.Rows
import CodeIndex.Proofs.Store.Tally
import CodeIndex.Store.Overwrite

/-!
# Damaged rows

The tables may hold any cells, as other programs can write to them. A call reads no rows but those of its
own path or name, so a damaged row spoils the calls for its own path only, and what is written for a path
is read back whatever stood there before. One cell stands in the way of a write: a stored hash that is
not a text. Such a row has to be removed before the path can be written again.

The contents are those of tables with row numbers left for the rows that a call adds. A table whose last
number was given out, which only another program can have done, refuses every new row.
-/

namespace CodeIndex

namespace Store

/-! ### What a path reads -/

theorem structureRow?_rowsOf (s : Store) (path : String) :
    s.structureRow? path = (s.rowsOf path).structures.head? :=
  (List.head?_filter ..).symm

theorem contentHash_of_rows (s t : Store) (path : String) (h : t.rowsOf path = s.rowsOf path) :
    t.contentHash path = s.contentHash path := by
  have hf : t.fileRow? path = s.fileRow? path := by rw [fileRow?_rowsOf, fileRow?_rowsOf, h]
  simp only [contentHash, hf]

theorem get_of_rows (s t : Store) (path : String) (h : t.rowsOf path = s.rowsOf path) :
    t.get path = s.get path := by
  have hf : t.fileRow? path = s.fileRow? path := by rw [fileRow?_rowsOf, fileRow?_rowsOf, h]
  have hs : t.structureRow? path = s.structureRow? path := by
    rw [structureRow?_rowsOf, structureRow?_rowsOf, h]
  simp only [get, hf, hs]

/-- Whether two stores hold and answer the same for all paths but one, and have the same sighted names. -/
structure AgreesBut (s t : Store) (path : String) : Prop where
  patterns : t.patterns = s.patterns
  rows : ∀ other, other ≠ path → t.rowsOf other = s.rowsOf other
  hashes : ∀ other, other ≠ path → t.contentHash other = s.contentHash other
  answers : ∀ other, other ≠ path → t.get other = s.get other

theorem agreesBut_of_rows (s t : Store) (path : String) (hp : t.patterns = s.patterns)
    (h : ∀ other, other ≠ path → t.rowsOf other = s.rowsOf other) : s.AgreesBut t path where
  patterns := hp
  rows := h
  hashes := fun other ho => contentHash_of_rows s t other (h other ho)
  answers := fun other ho => get_of_rows s t other (h other ho)

theorem AgreesBut.trans {s t u : Store} {path : String} (h : s.AgreesBut t path)
    (hu : t.AgreesBut u path) : s.AgreesBut u path :=
  agreesBut_of_rows s u path (hu.patterns.trans h.patterns) fun other ho =>
    (hu.rows other ho).trans (h.rows other ho)

/-! ### Calls on damaged rows -/

end Store

end CodeIndex
