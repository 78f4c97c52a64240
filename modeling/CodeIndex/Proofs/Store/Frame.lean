import CodeIndex.Proofs.Store.Legible

/-!
# What a write leaves as it was

A write changes the stored hash of its own path and of no other, and counting a sighting changes none.
The times in the rows never matter to what is written: a call on the store without its stamps leaves what
the call leaves, without stamps.
-/

namespace CodeIndex

/-! ### Other paths -/

theorem Cell.isText_unique (c : Cell) (s t : String) (hs : c.isText s = true)
    (ht : c.isText t = true) : s = t := by
  cases c with
  | text w =>
    have hs : w.text = s := by simpa [Cell.isText] using hs
    have ht : w.text = t := by simpa [Cell.isText] using ht
    exact hs.symm.trans ht
  | integer n => cases hs
  | real x => cases hs
  | blob bytes => cases hs

namespace Store

theorem find_putFile_same (path : String) (row : FileRow) (h : row.path.isText path = true)
    (rows : List FileRow) : (putFile path row rows).find? (·.path.isText path) = some row := by
  induction rows with
  | nil => simp [putFile, h]
  | cons r rest ih =>
    by_cases hr : r.path.isText path = true
    · simp [putFile, hr, h]
    · simp [putFile, hr, ih]

theorem find_putFile_other (path other : String) (row : FileRow) (h : row.path.isText path = true)
    (hne : other ≠ path) (rows : List FileRow) :
    (putFile path row rows).find? (·.path.isText other) = rows.find? (·.path.isText other) := by
  have hrow : ¬row.path.isText other = true := fun ho => hne (row.path.isText_unique _ _ ho h)
  induction rows with
  | nil => simp [putFile, hrow]
  | cons r rest ih =>
    by_cases hr : r.path.isText path = true
    · have hro : ¬r.path.isText other = true := fun ho => hne (r.path.isText_unique _ _ ho hr)
      simp [putFile, hr, hrow, hro]
    · simp only [putFile, hr, Bool.false_eq_true, ite_false, List.find?_cons, ih]

theorem fileRow?_write (now : String) (e : FileEntry) (s : Store) :
    (s.write now e).fileRow? e.path = some (.ofEntry now e) := by
  rw [write_eq]
  exact find_putFile_same e.path _ (by simp [FileRow.ofEntry]) s.files

theorem fileRow?_write_other (now : String) (e : FileEntry) (s : Store) (path : String)
    (h : path ≠ e.path) : (s.write now e).fileRow? path = s.fileRow? path := by
  rw [write_eq]
  exact find_putFile_other e.path path _ (by simp [FileRow.ofEntry]) h s.files

theorem contentHash_write (now : String) (e : FileEntry) (s : Store) :
    (s.write now e).contentHash e.path = .ok (some e.contentHash) := by
  simp only [contentHash, fileRow?_write]
  rfl

theorem contentHash_write_other (now : String) (e : FileEntry) (s : Store) (path : String)
    (h : path ≠ e.path) : (s.write now e).contentHash path = s.contentHash path := by
  simp only [contentHash, fileRow?_write_other now e s path h]

theorem recordPattern_frame (now patternType content path : String) (s s' : Store)
    (h : s.recordPattern now patternType content path = .ok s') :
    s'.files = s.files ∧ s'.structures = s.structures ∧ s'.edges = s.edges := by
  cases hc : countSighting now patternType content path s.patterns with
  | error e =>
    simp only [recordPattern, hc] at h
    cases h
  | ok counted =>
    simp only [recordPattern, hc] at h
    cases h
    exact ⟨rfl, rfl, rfl⟩

end Store

/-! ### Times -/

def FileRow.unstamped (r : FileRow) : FileRow := { r with createdAt := .plain "" }

def StructureRow.unstamped (r : StructureRow) : StructureRow := { r with createdAt := .plain "" }

def PatternRow.unstamped (r : PatternRow) : PatternRow := { r with createdAt := .plain "" }

def EdgeRow.unstamped (r : EdgeRow) : EdgeRow := { r with createdAt := .plain "" }

namespace Store

/-- A store without the times in its rows. -/
def unstamped (s : Store) : Store :=
  { files := s.files.map (·.unstamped)
    structures := s.structures.map (·.unstamped)
    patterns := s.patterns.map (·.unstamped)
    edges := s.edges.map (·.unstamped) }

theorem fileRow?_unstamped (s : Store) (path : String) :
    s.unstamped.fileRow? path = (s.fileRow? path).map (·.unstamped) := by
  simp only [fileRow?, unstamped, List.find?_map]
  rfl

theorem contentHash_unstamped (s : Store) (path : String) :
    s.unstamped.contentHash path = s.contentHash path := by
  simp only [contentHash, fileRow?_unstamped]
  cases s.fileRow? path <;> rfl

theorem putFile_unstamped (now : String) (e : FileEntry) (rows : List FileRow) :
    (putFile e.path (.ofEntry now e) rows).map (·.unstamped) =
      putFile e.path (.ofEntry "" e) (rows.map (·.unstamped)) := by
  induction rows with
  | nil => rfl
  | cons r rest ih =>
    have hp : r.unstamped.path = r.path := rfl
    by_cases hr : r.path.isText e.path = true
    · simp only [putFile, hp, hr, ite_true, List.map_cons]
      rfl
    · simp only [putFile, hp, hr, Bool.false_eq_true, ite_false, List.map_cons, ih]

theorem write_unstamped (now : String) (e : FileEntry) (s : Store) :
    (s.write now e).unstamped = s.unstamped.write "" e := by
  simp only [write_eq, unstamped, putFile_unstamped, List.map_append, List.filter_map,
    List.map_map, Option.toList_map]
  rfl

theorem put_unstamped (now : String) (e : FileEntry) (s : Store) :
    s.unstamped.put "" e = (s.put now e).map unstamped := by
  rw [put, put, ← write_unstamped now e s]
  split <;> rfl

theorem upsert_unstamped (now : String) (e : FileEntry) (s : Store) :
    s.unstamped.upsert "" e = (s.upsert now e).map fun (outcome, s) => (outcome, s.unstamped) := by
  cases hs : s.contentHash e.path with
  | error error =>
    simp only [upsert, contentHash_unstamped, hs]
    rfl
  | ok stored =>
    have hu : s.unstamped.contentHash e.path = .ok stored := by rw [contentHash_unstamped, hs]
    by_cases hc : stored = some e.contentHash
    · rw [upsert_of_hit "" e s.unstamped (hc ▸ hu), upsert_of_hit now e s (hc ▸ hs)]
      rfl
    · rw [upsert_of_other "" e s.unstamped stored hu hc, upsert_of_other now e s stored hs hc,
        put_unstamped now e s]
      cases s.put now e <;> rfl

theorem sighted_unstamped (path : String) (r : PatternRow) :
    sighted path r.unstamped = (sighted path r).map (·.unstamped) := by
  have hf : r.unstamped.files = r.files := rfl
  simp only [sighted, hf]
  cases r.files.readWritten 1 "file_paths_json" with
  | error e => rfl
  | ok w => cases hd : decodePaths w <;> simp only [bind, Except.bind, hd] <;> rfl

theorem countSighting_unstamped (now patternType content path : String) (rows : List PatternRow) :
    countSighting "" patternType content path (rows.map (·.unstamped)) =
      (countSighting now patternType content path rows).map (·.map (·.unstamped)) := by
  induction rows with
  | nil => rfl
  | cons r rest ih =>
    have hp : isPattern patternType content r.unstamped = isPattern patternType content r := rfl
    by_cases hr : isPattern patternType content r = true
    · simp only [List.map_cons, countSighting, hp, hr, ite_true, sighted_unstamped]
      cases sighted path r <;> rfl
    · simp only [List.map_cons, countSighting, hp, hr, Bool.false_eq_true, ite_false, ih]
      cases countSighting now patternType content path rest <;> rfl

theorem recordPattern_unstamped (now patternType content path : String) (s : Store) :
    s.unstamped.recordPattern "" patternType content path =
      (s.recordPattern now patternType content path).map unstamped := by
  have hc := countSighting_unstamped now patternType content path s.patterns
  have hp : s.unstamped.patterns = s.patterns.map (·.unstamped) := rfl
  simp only [recordPattern, hp, hc]
  cases countSighting now patternType content path s.patterns <;> rfl

end Store

end CodeIndex
