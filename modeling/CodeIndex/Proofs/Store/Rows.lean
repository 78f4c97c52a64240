import CodeIndex.Proofs.Store.Frame
import CodeIndex.Proofs.Store.Mirror

/-!
# The rows of a path

The rows of files, the structural rows and the edges of a path. A write changes the rows of its own path
only, a removal takes away those of its path, and a sighting changes none. The store of a ledger holds for
a path the rows of the stored entry, and no others.
-/

namespace CodeIndex

/-- The rows of a path in the tables of a store. -/
structure PathRows where
  files : List FileRow := []
  structures : List StructureRow := []
  edges : List EdgeRow := []

def Store.rowsOf (s : Store) (path : String) : PathRows :=
  { files := s.files.filter (·.path.isText path)
    structures := s.structures.filter (·.path.isText path)
    edges := s.edges.filter (·.source.isText path) }

/-- The rows that an entry is written as. -/
def Stamped.rows (w : Stamped) : PathRows :=
  { files := [w.fileRow]
    structures := w.structureRow?.toList
    edges := w.edgeRows }

/-! ### Rows of one text among those of another -/

section

variable {α : Type} (cell : α → Cell) (path other : String)

theorem filter_isText_other (h : path ≠ other) (rows : List α) :
    (rows.filter fun r => !(cell r).isText other).filter (fun r => (cell r).isText path) =
      rows.filter fun r => (cell r).isText path := by
  rw [List.filter_filter]
  apply List.filter_congr
  intro r _
  by_cases hp : (cell r).isText path = true
  · have ho : ¬(cell r).isText other = true := fun ho => h ((cell r).isText_unique _ _ hp ho)
    simp [hp, ho]
  · simp [hp]

theorem filter_isText_none (h : path ≠ other) (rows : List α)
    (hrows : ∀ r ∈ rows, (cell r).isText other = true) :
    (rows.filter fun r => (cell r).isText path) = [] := by
  rw [List.filter_eq_nil_iff]
  intro r hr hp
  exact h ((cell r).isText_unique _ _ hp (hrows r hr))

end

namespace Store

theorem putFile_filter_other (path other : String) (row : FileRow) (h : path ≠ other)
    (hrow : row.path.isText other = true) (rows : List FileRow) :
    (putFile other row rows).filter (·.path.isText path) = rows.filter (·.path.isText path) := by
  have hne : ¬row.path.isText path = true := fun hp => h (row.path.isText_unique _ _ hp hrow)
  induction rows with
  | nil => simp [putFile, hne]
  | cons r rest ih =>
    by_cases hr : r.path.isText other = true
    · have hp : ¬r.path.isText path = true := fun hp => h (r.path.isText_unique _ _ hp hr)
      simp [putFile, hr, hne, hp]
    · simp only [putFile, hr, Bool.false_eq_true, ite_false, List.filter_cons, ih]

/-! ### Calls -/

theorem rowsOf_write_other (now : String) (e : FileEntry) (ho : e.OwnsEdges) (s : Store)
    (path : String) (h : path ≠ e.path) : (s.write now e).rowsOf path = s.rowsOf path := by
  have hfiles := putFile_filter_other path e.path (.ofEntry now e) h (by simp [FileRow.ofEntry]) s.files
  have hstructures := filter_isText_other StructureRow.path path e.path h s.structures
  have hedges := filter_isText_other EdgeRow.source path e.path h s.edges
  -- the rows that are put at the end have the path of the entry
  have hnew := filter_isText_none StructureRow.path path e.path h
    (e.analysis.map (.of now e.path e.contentHash)).toList (by
      intro r hr
      obtain ⟨a, -, rfl⟩ := Option.map_eq_some_iff.mp (Option.mem_toList.mp hr)
      simp [StructureRow.of])
  have hown := filter_isText_none EdgeRow.source path e.path h
    (e.relations.map (.of now)) (by
      intro r hr
      rw [(Stamped.mk now e).edgeRows_isText ho r hr e.path]
      exact beq_self_eq_true e.path)
  rw [write_eq]
  simp only [rowsOf, hfiles, List.filter_append, hstructures, hnew, hedges, hown, List.append_nil]

theorem rowsOf_of_tables (s t : Store) (path : String) (hf : s.files = t.files)
    (hs : s.structures = t.structures) (he : s.edges = t.edges) : s.rowsOf path = t.rowsOf path := by
  simp only [rowsOf, hf, hs, he]

/-! ### Without some paths -/

/-- The store without what is stored for some paths. -/
def without (paths : List String) (s : Store) : Store :=
  { s with
    files := s.files.filter fun r => !paths.any (r.path.isText ·)
    structures := s.structures.filter fun r => !paths.any (r.path.isText ·)
    edges := s.edges.filter fun r => !paths.any (r.source.isText ·) }

theorem without_nil (s : Store) : s.without [] = s := by
  simp [without]

theorem remove_eq_without (path : String) (s : Store) : (s.remove path).2 = s.without [path] := by
  simp [remove, dropAnalysis, without]

theorem without_without (paths more : List String) (s : Store) :
    (s.without paths).without more = s.without (paths ++ more) := by
  simp [without, List.filter_filter, Bool.and_comm]

theorem without_congr (paths others : List String) (h : ∀ path, path ∈ paths ↔ path ∈ others)
    (s : Store) : s.without paths = s.without others := by
  have hany : ∀ c : Cell, paths.any (c.isText ·) = others.any (c.isText ·) := by
    intro c
    rw [Bool.eq_iff_iff, List.any_eq_true, List.any_eq_true]
    simp only [h]
  simp only [without, hany]

theorem rowsOf_without (paths : List String) (path : String) (s : Store) :
    (s.without paths).rowsOf path = if path ∈ paths then {} else s.rowsOf path := by
  by_cases hp : path ∈ paths
  · have hnone : ∀ c : Cell, (c.isText path && !paths.any (c.isText ·)) = false := by
      intro c
      by_cases hc : c.isText path = true
      · have hany : paths.any (c.isText ·) = true := List.any_eq_true.mpr ⟨path, hp, hc⟩
        simp [hany]
      · simp [hc]
    simp [rowsOf, without, List.filter_filter, hnone, hp]
  · have hall : ∀ c : Cell, (c.isText path && !paths.any (c.isText ·)) = c.isText path := by
      intro c
      by_cases hc : c.isText path = true
      · have hany : paths.any (c.isText ·) = false := by
          rw [List.any_eq_false]
          exact fun other ho hco => hp (c.isText_unique path other hc hco ▸ ho)
        simp [hany]
      · simp [hc]
    simp [rowsOf, without, List.filter_filter, hall, hp]

theorem fileRow?_rowsOf (s : Store) (path : String) :
    s.fileRow? path = (s.rowsOf path).files.head? :=
  (List.head?_filter ..).symm

end Store

/-! ### Ledgers -/

theorem fileRows_of_path (list : List Stamped) (once : (list.map (·.path)).Nodup) (path : String) :
    (list.map Stamped.fileRow).filter (·.path.isText path) =
      ((list.find? (·.path == path)).map Stamped.fileRow).toList := by
  rw [List.map_eq_flatMap, rows_of_path (fun w => [w.fileRow]) _ path list once fun w _ r hr => by
    rw [List.mem_singleton.mp hr, w.fileRow_isText path]]
  cases list.find? (·.path == path) <;> rfl

theorem Ledger.rowsOf_store (l : Ledger) (h : l.Sound) (path : String) :
    l.store.rowsOf path = ((l.stored path).map Stamped.rows).getD {} := by
  have hfiles := fileRows_of_path l.placed h.placedOnce path
  have hstructures := structureRows_of_path l.written h.writtenOnce path
  have hedges := edges_of_path l.written h.writtenOnce h.owned path
  rw [find_written l h path] at hstructures hedges
  rw [show l.placed.find? (·.path == path) = l.stored path from rfl] at hfiles
  simp only [Store.rowsOf, store, hfiles, hstructures, hedges]
  cases l.stored path <;> rfl

end CodeIndex
