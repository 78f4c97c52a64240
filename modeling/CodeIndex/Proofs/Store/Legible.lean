import CodeIndex.Proofs.Json.Spelled
import CodeIndex.Store.Query

/-!
# Legible stores

Calls of a store read two kinds of cells before they write: the stored hash of a path, and the files of
a sighted name. A store in which these cells hold what the store itself writes is legible. Every
call leaves a legible store legible, and none fails on it but the upsert of an entry with an edge that has
no strength.
-/

namespace CodeIndex

/-! ### Cells -/

@[simp] theorem Cell.isText_plain (s path : String) : (Cell.plain s).isText path = (s == path) := rfl

@[simp] theorem Cell.readText_plain (place : Nat) (column s : String) :
    (Cell.plain s).readText place column = .ok s := rfl

@[simp] theorem Cell.readWritten_document (place : Nat) (column : String) (v : Json) :
    (Cell.document v).readWritten place column = .ok (.document v) := rfl

@[simp] theorem decodePaths_strings (list : List String) :
    decodePaths (.document (.strings list)) = .ok list := by
  simp only [decodePaths, Written.decode, Written.document?, Option.bind_some, Json.spelled_strings,
    strings_strings]

/-! ### Outcomes -/

/-- What an upsert of a hash answers, by the hash that is stored. -/
def UpsertOutcome.of (hash : String) : Option String → UpsertOutcome
  | none => .inserted
  | some previous => if previous = hash then .unchanged else .replaced previous

theorem UpsertOutcome.eq_unchanged_of_not_wrote (outcome : UpsertOutcome) (h : ¬outcome.wrote = true) :
    outcome = .unchanged := by
  cases outcome with
  | inserted => exact absurd rfl h
  | replaced previous => exact absurd rfl h
  | unchanged => rfl

theorem UpsertOutcome.of_eq_unchanged (hash : String) (stored : Option String) :
    UpsertOutcome.of hash stored = .unchanged ↔ stored = some hash := by
  cases stored with
  | none => simp [UpsertOutcome.of]
  | some previous => by_cases h : previous = hash <;> simp [UpsertOutcome.of, h]

theorem UpsertOutcome.of_eq_replaced (hash : String) (stored : Option String) (previous : String) :
    UpsertOutcome.of hash stored = .replaced previous ↔ stored = some previous ∧ previous ≠ hash := by
  cases stored with
  | none => simp [UpsertOutcome.of]
  | some held =>
    by_cases h : held = hash
    · simp only [UpsertOutcome.of, h, ite_true, reduceCtorEq, Option.some.injEq, false_iff]
      exact fun hp => hp.2 hp.1.symm
    · simp only [UpsertOutcome.of, h, ite_false, UpsertOutcome.replaced.injEq, Option.some.injEq]
      exact ⟨fun hp => ⟨hp, hp ▸ h⟩, fun hp => hp.1⟩

theorem UpsertOutcome.of_eq_inserted (hash : String) (stored : Option String) :
    UpsertOutcome.of hash stored = .inserted ↔ stored = none := by
  cases stored with
  | none => simp [UpsertOutcome.of]
  | some previous => by_cases h : previous = hash <;> simp [UpsertOutcome.of, h]

theorem UpsertOutcome.wrote_of_ne (hash : String) (stored : Option String) (h : stored ≠ some hash) :
    (UpsertOutcome.of hash stored).wrote = true :=
  Decidable.by_contra fun hw => h ((of_eq_unchanged hash stored).mp (eq_unchanged_of_not_wrote _ hw))

/-! ### Rows -/

theorem FileEntry.mem_relations (e : FileEntry) (r : Relation) :
    r ∈ e.relations ↔ ∃ a, e.analysis = some a ∧ r ∈ a.relations := by
  rw [relations, List.mem_flatMap]
  exact exists_congr fun a => and_congr_left fun _ => Option.mem_toList

/-- A row of files whose hash is a text. -/
def FileRow.Legible (r : FileRow) : Prop := ∃ hash, r.contentHash = .plain hash

/-- A row of sighted names whose files are a list of paths. -/
def PatternRow.Legible (r : PatternRow) : Prop := ∃ files, r.files = .document (.strings files)

/-- The files in a row of sighted names. -/
def PatternRow.files? (r : PatternRow) : Except StoreError (List String) := do
  decodePaths (← r.files.readWritten 1 "file_paths_json")

theorem FileRow.ofEntry_legible (now : String) (e : FileEntry) : (FileRow.ofEntry now e).Legible :=
  ⟨e.contentHash, rfl⟩

theorem PatternRow.first_legible (now patternType content path : String) :
    (PatternRow.first now patternType content path).Legible :=
  ⟨[path], rfl⟩

namespace Store

theorem sighted_of_error (path : String) (r : PatternRow) (e : StoreError) (h : r.files? = .error e) :
    sighted path r = .error e := by
  simp only [PatternRow.files?, bind, Except.bind] at h
  simp only [sighted, bind, Except.bind]
  cases hw : r.files.readWritten 1 "file_paths_json" with
  | error error =>
    rw [hw] at h
    cases h
    rfl
  | ok w =>
    rw [hw] at h
    simp only [h]

theorem sighted_of_files (path : String) (r : PatternRow) (files : List String)
    (h : r.files? = .ok files) :
    ∃ row, sighted path r = .ok row ∧ row.patternType = r.patternType ∧ row.content = r.content ∧
      row.Legible := by
  simp only [PatternRow.files?, bind, Except.bind] at h
  cases hw : r.files.readWritten 1 "file_paths_json" with
  | error error =>
    rw [hw] at h
    cases h
  | ok w =>
    rw [hw] at h
    refine ⟨{ r with
      files := .document (.strings (if files.contains path then files else files ++ [path]))
      frequency := r.frequency.successor }, ?_, rfl, rfl, ⟨_, rfl⟩⟩
    simp only [sighted, bind, Except.bind, hw, h]
    rfl

theorem files_legible (r : PatternRow) (h : r.Legible) : ∃ files, r.files? = .ok files := by
  obtain ⟨files, hf⟩ := h
  refine ⟨files, ?_⟩
  simp only [PatternRow.files?, hf, Cell.readWritten_document, bind, Except.bind, decodePaths_strings]

theorem sighted_legible (path : String) (r : PatternRow) (h : r.Legible) :
    ∃ row, sighted path r = .ok row ∧ row.Legible := by
  obtain ⟨files, hf⟩ := files_legible r h
  obtain ⟨row, hs, -, -, hl⟩ := sighted_of_files path r files hf
  exact ⟨row, hs, hl⟩

theorem countSighting_legible (now patternType content path : String) (rows : List PatternRow)
    (h : ∀ r ∈ rows, r.Legible) :
    ∃ counted, countSighting now patternType content path rows = .ok counted ∧
      ∀ r ∈ counted, r.Legible := by
  induction rows with
  | nil =>
    refine ⟨_, rfl, ?_⟩
    intro r hr
    rw [List.mem_singleton.mp hr]
    exact PatternRow.first_legible now patternType content path
  | cons r rest ih =>
    have hrest : ∀ q ∈ rest, q.Legible := fun q hq => h q (List.mem_cons_of_mem _ hq)
    by_cases hp : isPattern patternType content r = true
    · obtain ⟨row, hs, hrow⟩ := sighted_legible path r (h r List.mem_cons_self)
      refine ⟨row :: rest, by simp only [countSighting, hp, ite_true, hs]; rfl, ?_⟩
      intro q hq
      rcases List.mem_cons.mp hq with rfl | hq
      · exact hrow
      · exact hrest q hq
    · obtain ⟨counted, hc, hl⟩ := ih hrest
      refine ⟨r :: counted, by simp only [countSighting, hp, hc]; rfl, ?_⟩
      intro q hq
      rcases List.mem_cons.mp hq with rfl | hq
      · exact h q List.mem_cons_self
      · exact hl q hq

/-! ### Stores -/

/-- A store whose cells that calls read before they write are as the store writes them. -/
structure Legible (s : Store) : Prop where
  files : ∀ r ∈ s.files, r.Legible
  patterns : ∀ r ∈ s.patterns, r.Legible

theorem empty_legible : Store.empty.Legible :=
  ⟨fun _ hr => absurd hr List.not_mem_nil, fun _ hr => absurd hr List.not_mem_nil⟩

theorem contentHash_legible (s : Store) (h : s.Legible) (path : String) :
    ∃ stored, s.contentHash path = .ok stored := by
  cases hr : s.fileRow? path with
  | none => exact ⟨none, by simp only [contentHash, hr]⟩
  | some r =>
    obtain ⟨hash, hh⟩ := h.files r (List.mem_of_find?_eq_some hr)
    exact ⟨some hash, by simp only [contentHash, hr, hh, Cell.readText_plain, Except.map]⟩

theorem mem_putFile (path : String) (row r : FileRow) (rows : List FileRow)
    (h : r ∈ putFile path row rows) : r = row ∨ r ∈ rows := by
  induction rows with
  | nil => exact Or.inl (List.mem_singleton.mp h)
  | cons q rest ih =>
    simp only [putFile] at h
    split at h
    · rcases List.mem_cons.mp h with h | h
      · exact Or.inl h
      · exact Or.inr (List.mem_cons_of_mem _ h)
    · rcases List.mem_cons.mp h with h | h
      · exact Or.inr (h ▸ List.mem_cons_self)
      · rcases ih h with h | h
        · exact Or.inl h
        · exact Or.inr (List.mem_cons_of_mem _ h)

theorem write_eq (now : String) (e : FileEntry) (s : Store) :
    s.write now e =
      { files := putFile e.path (.ofEntry now e) s.files
        structures := s.structures.filter (!·.path.isText e.path) ++
          (e.analysis.map (.of now e.path e.contentHash)).toList
        patterns := s.patterns
        edges := s.edges.filter (!·.source.isText e.path) ++ e.relations.map (.of now) } := by
  cases ha : e.analysis with
  | none => simp [write, dropAnalysis, FileEntry.relations, ha]
  | some a => simp [write, dropAnalysis, FileEntry.relations, ha]

theorem write_legible (now : String) (e : FileEntry) (s : Store) (h : s.Legible) :
    (s.write now e).Legible := by
  constructor
  · intro r hr
    rw [write_eq] at hr
    rcases mem_putFile _ _ _ _ hr with rfl | hr
    · exact FileRow.ofEntry_legible now e
    · exact h.files r hr
  · intro r hr
    rw [write_eq] at hr
    exact h.patterns r hr

theorem upsert_of_hit (now : String) (e : FileEntry) (s : Store)
    (h : s.contentHash e.path = .ok (some e.contentHash)) : s.upsert now e = .ok (.unchanged, s) := by
  simp only [upsert, h, bind, Except.bind, ite_true]
  rfl

/-- Where another hash is stored or none, an upsert puts the rows of its entry. -/
theorem upsert_of_other (now : String) (e : FileEntry) (s : Store) (stored : Option String)
    (h : s.contentHash e.path = .ok stored) (hne : stored ≠ some e.contentHash) :
    s.upsert now e = (s.put now e).map (UpsertOutcome.of e.contentHash stored, ·) := by
  simp only [upsert, h, bind, Except.bind]
  cases stored with
  | none => cases s.put now e <;> rfl
  | some previous =>
    have hp : previous ≠ e.contentHash := fun hp => hne (congrArg some hp)
    simp only [UpsertOutcome.of, hp, ite_false]
    cases s.put now e <;> rfl

theorem upsert_refused (now : String) (e : FileEntry) (s : Store) (stored : Option String)
    (h : s.contentHash e.path = .ok stored) (hne : stored ≠ some e.contentHash)
    (he : e.hasStrengths = false) : s.upsert now e = .error missingStrength := by
  rw [upsert_of_other now e s stored h hne, put, he]
  rfl

theorem upsert_of_contentHash (now : String) (e : FileEntry) (he : e.hasStrengths = true) (s : Store)
    (stored : Option String) (h : s.contentHash e.path = .ok stored) :
    s.upsert now e = .ok (.of e.contentHash stored,
      if (UpsertOutcome.of e.contentHash stored).wrote then s.write now e else s) := by
  by_cases hp : stored = some e.contentHash
  · rw [upsert_of_hit now e s (hp ▸ h), (UpsertOutcome.of_eq_unchanged e.contentHash stored).mpr hp]
    rfl
  · have hw := UpsertOutcome.wrote_of_ne e.contentHash stored hp
    rw [upsert_of_other now e s stored h hp, put, if_pos he, if_pos hw]
    rfl

theorem upsert_of_miss (now : String) (e : FileEntry) (he : e.hasStrengths = true) (s : Store)
    (stored : Option String) (h : s.contentHash e.path = .ok stored)
    (hne : stored ≠ some e.contentHash) :
    ∃ outcome, outcome.wrote = true ∧ s.upsert now e = .ok (outcome, s.write now e) := by
  have hw := UpsertOutcome.wrote_of_ne e.contentHash stored hne
  exact ⟨_, hw, by rw [upsert_of_contentHash now e he s stored h, if_pos hw]⟩

theorem put_legible (now : String) (e : FileEntry) (s s' : Store) (h : s.Legible)
    (hp : s.put now e = .ok s') : s'.Legible := by
  simp only [put] at hp
  split at hp
  · cases hp
    exact write_legible now e s h
  · cases hp

theorem upsert_keeps_legible (now : String) (e : FileEntry) (s s' : Store) (outcome : UpsertOutcome)
    (h : s.Legible) (hu : s.upsert now e = .ok (outcome, s')) : s'.Legible := by
  obtain ⟨stored, hs⟩ := contentHash_legible s h e.path
  by_cases hc : stored = some e.contentHash
  · rw [upsert_of_hit now e s (hc ▸ hs)] at hu
    cases hu
    exact h
  · rw [upsert_of_other now e s stored hs hc] at hu
    cases hp : s.put now e with
    | error error =>
      rw [hp] at hu
      cases hu
    | ok t =>
      rw [hp] at hu
      cases hu
      exact put_legible now e s _ h hp

theorem upsert_legible (now : String) (e : FileEntry) (he : e.hasStrengths = true) (s : Store)
    (h : s.Legible) : ∃ outcome s', s.upsert now e = .ok (outcome, s') ∧ s'.Legible := by
  obtain ⟨stored, hs⟩ := contentHash_legible s h e.path
  have hu := upsert_of_contentHash now e he s stored hs
  exact ⟨_, _, hu, upsert_keeps_legible now e s _ _ h hu⟩

theorem remove_legible (path : String) (s : Store) (h : s.Legible) : (s.remove path).2.Legible :=
  ⟨fun r hr => h.files r (List.mem_filter.mp hr).1, h.patterns⟩

theorem recordPattern_legible (now patternType content path : String) (s : Store) (h : s.Legible) :
    ∃ s', s.recordPattern now patternType content path = .ok s' ∧ s'.Legible := by
  obtain ⟨counted, hc, hl⟩ :=
    countSighting_legible now patternType content path s.patterns h.patterns
  exact ⟨{ s with patterns := counted }, by simp only [recordPattern, hc]; rfl, ⟨h.files, hl⟩⟩

end Store

end CodeIndex
