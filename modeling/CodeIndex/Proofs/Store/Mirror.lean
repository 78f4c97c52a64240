import CodeIndex.Proofs.Store.Ledger

/-!
# Stores mirror their histories

Whatever calls are made from the empty store on, its tables hold what the history says and nothing else:
one row of files for each stored path, a structural row where the entry has an analysis, and the edges
of the stored entries. Each call is one step of a ledger, and a run is a run of its ledger. An entry with
an edge whose strength is no number is refused; its upsert is a step that leaves the ledger.
-/

namespace CodeIndex

/-! ### Steps -/

/-- Whether a call writes only edges of its own path. -/
def StoreCall.OwnsEdges : StoreCall → Prop
  | .upsert _ e => e.OwnsEdges
  | _ => True

namespace Ledger

/-- The hash that a ledger holds for a path. -/
def hashOf (l : Ledger) (path : String) : Option String :=
  (l.stored path).map (·.entry.contentHash)

theorem hashOf_store (l : Ledger) (path : String) : l.store.contentHash path = .ok (l.hashOf path) :=
  contentHash_store l path

/-- What a call with its answer does to a ledger. -/
inductive Step (l : Ledger) : StoreEvent → Ledger → Prop where
  | write (w : Stamped) (outcome : UpsertOutcome)
      (answer : outcome = .of w.entry.contentHash (l.hashOf w.path)) (wrote : outcome.wrote = true)
      (strong : w.entry.hasStrengths = true) :
      l.Step ⟨.upsert w.now w.entry, .upserted outcome⟩ (l.write w)
  | keep (now : String) (e : FileEntry) (same : l.hashOf e.path = some e.contentHash) :
      l.Step ⟨.upsert now e, .upserted .unchanged⟩ l
  | refuse (now : String) (e : FileEntry) (other : l.hashOf e.path ≠ some e.contentHash)
      (missing : e.hasStrengths = false) :
      l.Step ⟨.upsert now e, .failed Store.missingStrength⟩ l
  | remove (path : String) :
      l.Step ⟨.remove path, .removed (l.stored path).isSome⟩ (l.remove path)
  | record (now patternType content path : String) (counted : List PatternRow)
      (counts : Store.countSighting now patternType content path l.patterns = .ok counted) :
      l.Step ⟨.recordPattern now patternType content path, .recorded⟩ { l with patterns := counted }

section

variable {l l' : Ledger} {event : StoreEvent}

theorem Step.sound (hstep : l.Step event l') (h : l.Sound) (ho : event.call.OwnsEdges) : l'.Sound := by
  cases hstep with
  | write w outcome _ _ strong => exact write_sound l w h ho strong
  | keep now e _ => exact h
  | refuse now e _ _ => exact h
  | remove path => exact remove_sound l path h
  | record now patternType content path counted counts =>
    obtain ⟨rows, hrows, legible⟩ :=
      Store.countSighting_legible now patternType content path l.patterns h.legible
    cases hrows.symm.trans counts
    exact ⟨h.placedOnce, h.writtenOnce, h.same, h.owned, h.strong, legible⟩

theorem Step.stored (hstep : l.Step event l') (h : l.Sound) (ho : event.call.OwnsEdges) :
    l'.stored = StoreEvent.update l.stored event := by
  cases hstep with
  | write w outcome _ wrote strong =>
    rw [stored_write l w h ho strong]
    simp only [StoreEvent.update, wrote, ite_true]
    rfl
  | keep now e _ => rfl
  | refuse now e _ _ => rfl
  | remove path => exact stored_remove l path h
  | record _ _ _ _ counted _ => rfl

end

theorem upsert_step (l : Ledger) (h : l.Sound) (now : String) (e : FileEntry) :
    ∃ (answer : StoreAnswer) (l' : Ledger), l.store.perform (.upsert now e) = (answer, l'.store) ∧
      l.Step ⟨.upsert now e, answer⟩ l' := by
  have hs := hashOf_store l e.path
  by_cases hc : l.hashOf e.path = some e.contentHash
  · have hu := Store.upsert_of_hit now e l.store (hs.trans (congrArg Except.ok hc))
    exact ⟨_, l, by simp only [Store.perform, hu], .keep now e hc⟩
  · cases he : e.hasStrengths with
    | true =>
      have hu := Store.upsert_of_contentHash now e he l.store _ hs
      have hw := UpsertOutcome.wrote_of_ne e.contentHash _ hc
      rw [if_pos hw, store_write l ⟨now, e⟩ h] at hu
      exact ⟨_, _, by simp only [Store.perform, hu], .write ⟨now, e⟩ (.of e.contentHash (l.hashOf e.path))
        rfl hw he⟩
    | false =>
      have hu := Store.upsert_refused now e l.store _ hs hc he
      exact ⟨_, l, by simp only [Store.perform, hu], .refuse now e hc he⟩

theorem recordPattern_step (l : Ledger) (h : l.Sound) (now patternType content path : String) :
    ∃ l' : Ledger, l.store.recordPattern now patternType content path = .ok l'.store ∧
      l.Step ⟨.recordPattern now patternType content path, .recorded⟩ l' := by
  obtain ⟨counted, hc, -⟩ :=
    Store.countSighting_legible now patternType content path l.patterns h.legible
  refine ⟨{ l with patterns := counted }, ?_, .record now patternType content path counted hc⟩
  simp only [Store.recordPattern, store, hc]
  rfl

theorem perform_step (l : Ledger) (h : l.Sound) (c : StoreCall) :
    ∃ (answer : StoreAnswer) (l' : Ledger), l.store.perform c = (answer, l'.store) ∧
      l.Step ⟨c, answer⟩ l' := by
  cases c with
  | upsert now e => exact upsert_step l h now e
  | remove path =>
    refine ⟨.removed (l.stored path).isSome, l.remove path, ?_, .remove path⟩
    simp only [Store.perform, store_remove l path h]
  | recordPattern now patternType content path =>
    obtain ⟨l', hr, hstep⟩ := recordPattern_step l h now patternType content path
    exact ⟨.recorded, l', by simp only [Store.perform, hr], hstep⟩

/-- What the steps of a ledger keep, with the history that leads to it, every run keeps. -/
theorem run_invariant (good : List StoreEvent → Ledger → Prop) (hsound : ∀ history l, good history l → l.Sound)
    (hstep : ∀ history l event l', good history l → l.Step event l' → event.call.OwnsEdges →
      good (history ++ [event]) l')
    (calls : List StoreCall) (before : List StoreEvent) (l : Ledger) (h : good before l)
    (ho : ∀ c ∈ calls, c.OwnsEdges) :
    ∃ (history : List StoreEvent) (l' : Ledger), l.store.run calls = (history, l'.store) ∧
      good (before ++ history) l' := by
  induction calls generalizing l before with
  | nil => exact ⟨[], l, rfl, (List.append_nil before).symm ▸ h⟩
  | cons c rest ih =>
    obtain ⟨answer, k, hp, hk⟩ := perform_step l (hsound before l h) c
    have hgood := hstep before l ⟨c, answer⟩ k h hk (ho c List.mem_cons_self)
    obtain ⟨history, l', hr, hl⟩ := ih _ k hgood fun d hd => ho d (List.mem_cons_of_mem _ hd)
    refine ⟨⟨c, answer⟩ :: history, l', Store.run_cons _ _ _ c rest answer history hp hr, ?_⟩
    rwa [List.append_assoc] at hl

theorem run_steps (calls : List StoreCall) (l : Ledger) (h : l.Sound)
    (ho : ∀ c ∈ calls, c.OwnsEdges) :
    ∃ (history : List StoreEvent) (l' : Ledger), l.store.run calls = (history, l'.store) ∧ l'.Sound ∧
      l'.stored = history.foldl StoreEvent.update l.stored := by
  refine run_invariant (fun history k => k.Sound ∧ k.stored = history.foldl StoreEvent.update l.stored)
    (fun _ _ hk => hk.1) ?_ calls [] l ⟨h, rfl⟩ ho
  rintro history k event k' ⟨hk, hm⟩ hstep howns
  refine ⟨hstep.sound hk howns, ?_⟩
  rw [hstep.stored hk howns, hm, List.foldl_concat]

end Ledger

/-! ### Mirrors -/

/-- A store that holds for each path what a map says, and nothing else. -/
structure Store.Mirrors (s : Store) (m : PathMap) : Prop where
  /-- One row of files for each path of the map, written from its entry. -/
  files : ∃ paths : List String, paths.Nodup ∧ (∀ path, path ∈ paths ↔ (m path).isSome) ∧
    s.files = paths.filterMap fun path => (m path).map fun w => .ofEntry w.now w.entry
  /-- The size in a row of files is that of the entry, in 64 bits with a sign. -/
  sizes : ∀ path w, m path = some w → ∃ size : Int,
    (s.fileRow? path).map (·.fileSize) = some (.integer size) ∧
      -bound63 ≤ size ∧ size < bound63 ∧ size % bound64 = w.entry.fileSize % bound64
  /-- One structural row for each path whose entry has an analysis, with the hash of the entry. -/
  structures : ∃ paths : List String, paths.Nodup ∧
    (∀ path, path ∈ paths ↔ ∃ w, m path = some w ∧ w.entry.analysis.isSome) ∧
    s.structures = paths.filterMap fun path => (m path).bind fun w =>
      w.entry.analysis.map (.of w.now path w.entry.contentHash)
  /-- The edges of a path are those of its analysis, in order. -/
  edges : ∀ path, s.edges.filter (·.source.isText path) =
    match m path with
    | some w => w.entry.relations.map (.of w.now)
    | none => []
  /-- No edge starts at a path that is not stored. -/
  sources : ∀ r ∈ s.edges, ∃ path, r.source = .plain path ∧ (m path).isSome

/-- Whether a map holds an entry with the path and the hash of another. -/
def PathMap.HasHash (m : PathMap) (e : FileEntry) : Prop :=
  ∃ w, m e.path = some w ∧ w.entry.contentHash = e.contentHash

/-- What a store that holds what a map says answers to an upsert. -/
structure Store.Answers (s : Store) (m : PathMap) (now : String) (e : FileEntry) : Prop where
  /-- An entry whose edges have strengths is accepted, as is one whose hash is stored. -/
  accepted : e.hasStrengths = true ∨ m.HasHash e →
    ∃ (outcome : UpsertOutcome) (s' : Store), s.upsert now e = .ok (outcome, s') ∧
      (outcome = .unchanged ↔ m.HasHash e) ∧
      (∀ previous, outcome = .replaced previous ↔
        ∃ w, m e.path = some w ∧ w.entry.contentHash = previous ∧ previous ≠ e.contentHash) ∧
      (outcome = .inserted ↔ m e.path = none)
  /-- Any other entry is refused. -/
  refused : e.hasStrengths = false → ¬m.HasHash e → s.upsert now e = .error missingStrength

theorem signedSize_spec (n : Nat) :
    -bound63 ≤ signedSize n ∧ signedSize n < bound63 ∧ signedSize n % bound64 = n % bound64 := by
  unfold signedSize bound64 bound63
  by_cases h : n % 0x10000000000000000 < 0x8000000000000000
  · simp only [h, ite_true]
    omega
  · simp only [h, ite_false]
    omega

theorem filterMap_paths {α : Type} (list : List Stamped) (row : String → Option α)
    (f : Stamped → Option α) (h : ∀ w ∈ list, row w.path = f w) :
    (list.map (·.path)).filterMap row = list.filterMap f := by
  induction list with
  | nil => rfl
  | cons w rest ih =>
    have hw := h w List.mem_cons_self
    have hrest := ih fun v hv => h v (List.mem_cons_of_mem _ hv)
    simp only [List.map_cons, List.filterMap_cons, hw, hrest]

theorem structureRows_filter (list : List Stamped) :
    (list.filter (·.entry.analysis.isSome)).filterMap Stamped.structureRow? =
      list.filterMap Stamped.structureRow? := by
  induction list with
  | nil => rfl
  | cons w rest ih =>
    cases ha : w.entry.analysis with
    | none => simp [ha, ih, Stamped.structureRow?]
    | some a => simp [ha, ih, List.filterMap_cons]

namespace Ledger

theorem stored_of_placed (l : Ledger) (h : l.Sound) (w : Stamped) (hw : w ∈ l.placed) :
    l.stored w.path = some w :=
  (stored_eq_some l h w.path w).mpr ⟨hw, rfl⟩

theorem stored_isSome (l : Ledger) (h : l.Sound) (path : String) :
    (l.stored path).isSome ↔ path ∈ l.placed.map (·.path) := by
  rw [Option.isSome_iff_exists, List.mem_map]
  exact exists_congr fun w => stored_eq_some l h path w

theorem edges_of_path (list : List Stamped) (once : (list.map (·.path)).Nodup)
    (ho : ∀ w ∈ list, w.entry.OwnsEdges) (path : String) :
    (list.flatMap Stamped.edgeRows).filter (·.source.isText path) =
      ((list.find? (·.path == path)).map Stamped.edgeRows).getD [] :=
  rows_of_path Stamped.edgeRows _ path list once fun w hw r hr => w.edgeRows_isText (ho w hw) r hr path

/-- The tables of a sound ledger mirror the map of the ledger. -/
theorem store_mirrors (l : Ledger) (h : l.Sound) : l.store.Mirrors l.stored where
  files := by
    refine ⟨l.placed.map (·.path), h.placedOnce, fun path => (stored_isSome l h path).symm, ?_⟩
    rw [filterMap_paths l.placed _ (fun w => some w.fileRow) fun w hw => by
      rw [stored_of_placed l h w hw]; rfl]
    exact (congrFun List.filterMap_eq_map l.placed).symm
  sizes := by
    intro path w hw
    refine ⟨signedSize w.entry.fileSize, ?_, signedSize_spec w.entry.fileSize⟩
    rw [fileRow?_store, hw]
    rfl
  structures := by
    refine ⟨(l.written.filter (·.entry.analysis.isSome)).map (·.path),
      h.writtenOnce.sublist (List.filter_sublist.map _), ?_, ?_⟩
    · intro path
      simp only [List.mem_map, List.mem_filter, ← h.same, stored_eq_some l h]
      exact exists_congr fun w => ⟨fun ⟨⟨hw, ha⟩, hp⟩ => ⟨⟨hw, hp⟩, ha⟩,
        fun ⟨⟨hw, hp⟩, ha⟩ => ⟨⟨hw, ha⟩, hp⟩⟩
    · rw [filterMap_paths _ _ Stamped.structureRow? fun w hw => by
        rw [stored_of_placed l h w ((h.same w).mpr (List.mem_filter.mp hw).1)]; rfl]
      exact (structureRows_filter l.written).symm
  edges := by
    intro path
    have he := edges_of_path l.written h.writtenOnce h.owned path
    rw [find_written l h path] at he
    rw [show l.store.edges = l.written.flatMap Stamped.edgeRows from rfl, he]
    cases l.stored path <;> rfl
  sources := by
    intro r hr
    obtain ⟨w, hw, hr⟩ := List.mem_flatMap.mp hr
    refine ⟨w.path, ?_, ?_⟩
    · obtain ⟨e, he, rfl⟩ := List.mem_map.mp hr
      exact congrArg Cell.plain ((h.owned w hw).source e he)
    · rw [stored_of_placed l h w ((h.same w).mpr hw)]
      rfl

theorem store_answers (l : Ledger) (now : String) (e : FileEntry) : l.store.Answers l.stored now e where
  accepted := by
    intro h
    have hs := hashOf_store l e.path
    have hu : l.store.upsert now e = .ok (.of e.contentHash (l.hashOf e.path),
        if (UpsertOutcome.of e.contentHash (l.hashOf e.path)).wrote then l.store.write now e
        else l.store) := by
      rcases h with he | ⟨w, hw, hh⟩
      · exact Store.upsert_of_contentHash now e he l.store _ hs
      · have hc : l.hashOf e.path = some e.contentHash := by rw [hashOf, hw, Option.map_some, hh]
        rw [Store.upsert_of_hit now e l.store (hs.trans (congrArg Except.ok hc)),
          (UpsertOutcome.of_eq_unchanged _ _).mpr hc]
        rfl
    refine ⟨_, _, hu, ?_, ?_, ?_⟩
    · rw [UpsertOutcome.of_eq_unchanged, hashOf, Option.map_eq_some_iff]
      exact Iff.rfl
    · intro previous
      rw [UpsertOutcome.of_eq_replaced, hashOf, Option.map_eq_some_iff]
      constructor
      · rintro ⟨⟨w, hw, hh⟩, hne⟩
        exact ⟨w, hw, hh, hne⟩
      · rintro ⟨w, hw, hh, hne⟩
        exact ⟨⟨w, hw, hh⟩, hne⟩
    · rw [UpsertOutcome.of_eq_inserted, hashOf, Option.map_eq_none_iff]
  refused := by
    intro he hno
    refine Store.upsert_refused now e l.store _ (hashOf_store l e.path) (fun hc => hno ?_) he
    exact Option.map_eq_some_iff.mp hc

end Ledger

/-! ### Runs from the empty store -/

/-- Any run from the empty store leaves a store that mirrors its history, and an upsert answers by what
the history stores for its path. A call of the run fails only for an edge without a strength. -/
theorem run_mirrors_history (calls : List StoreCall) (ho : ∀ c ∈ calls, c.OwnsEdges) :
    ∃ (history : List StoreEvent) (s : Store), Store.empty.run calls = (history, s) ∧
      history.map (·.call) = calls ∧
      (∀ event ∈ history, ∀ error, event.answer = .failed error →
        error = Store.missingStrength ∧ ¬event.call.HasStrengths) ∧
      s.Mirrors (storedBy history) ∧ ∀ now e, s.Answers (storedBy history) now e := by
  obtain ⟨history, l, hr, hl, hm⟩ := Ledger.run_steps calls {} Ledger.empty_sound ho
  have hstored : l.stored = storedBy history := hm
  have hr : Store.empty.run calls = (history, l.store) := hr
  have hfailed := Store.run_failed calls .empty Store.empty_legible
  rw [hr] at hfailed
  refine ⟨history, l.store, hr, Store.run_calls calls history .empty l.store hr, hfailed, ?_, ?_⟩
  · exact hstored ▸ Ledger.store_mirrors l hl
  · intro now e
    exact hstored ▸ Ledger.store_answers l now e

/-- An entry with an analysis that has one edge for each given module. -/
def importingEntry (path hash : String) (modules : List String) : FileEntry :=
  let d : Description := { language := .python, imports := modules.map fun name => ⟨name, [], .python, 1⟩ }
  { path
    contentHash := hash
    language := "python"
    fileSize := 9
    embedding := default
    metadata := default
    analysis := some (.of path "import os".toList d) }

theorem importingEntry_ownsEdges (path hash : String) (modules : List String) :
    (importingEntry path hash modules).OwnsEdges := by
  intro a ha r hr
  cases ha
  exact (relationsOf_declared path _ r hr).source

/-- An entry with one edge, which has a given strength. -/
def weighted (path hash : String) (strength : Single) : FileEntry :=
  let r := importRelation path ⟨"os", [], .python, 1⟩
  { importingEntry path hash ["os"] with
    analysis := some { (default : FileAnalysis) with relations := [{ r with strength }] } }

theorem weighted_ownsEdges (path hash : String) (strength : Single) :
    (weighted path hash strength).OwnsEdges := by
  intro a ha r hr
  cases ha
  rw [List.mem_singleton.mp hr]
  rfl

theorem run_mirrors_history_replaced :
    ∃ (history : List StoreEvent) (s : Store),
      Store.empty.run
        [.upsert "t0" (importingEntry "a.py" "h0" ["os", "sys"]),
          .upsert "t1" (importingEntry "b.py" "h1" ["a"]),
          .recordPattern "t1" "class" "Cache" "b.py",
          .upsert "t2" (importingEntry "a.py" "h2" ["os"]),
          .upsert "t3" (weighted "a.py" "h3" ⟨0x7fc00000⟩), .remove "b.py"] = (history, s) ∧
      s.Mirrors (storedBy history) := by
  obtain ⟨history, s, hr, -, -, hm, -⟩ := run_mirrors_history
    [.upsert "t0" (importingEntry "a.py" "h0" ["os", "sys"]),
      .upsert "t1" (importingEntry "b.py" "h1" ["a"]),
      .recordPattern "t1" "class" "Cache" "b.py",
      .upsert "t2" (importingEntry "a.py" "h2" ["os"]),
      .upsert "t3" (weighted "a.py" "h3" ⟨0x7fc00000⟩), .remove "b.py"]
    (by simp [StoreCall.OwnsEdges, importingEntry_ownsEdges, weighted_ownsEdges])
  exact ⟨history, s, hr, hm⟩

/-- An entry with a strength that is no number is not inserted; a size of 2^63 or more is not the size in the
row; and metadata with a confidence that is not finite is not read back. -/
theorem upsert_misses :
    (¬∀ (now : String) (e : FileEntry), e.OwnsEdges →
      ∃ s, Store.empty.upsert now e = .ok (.inserted, s)) ∧
    (¬∀ (now : String) (e : FileEntry), e.OwnsEdges →
      ((Store.empty.run [.upsert now e]).2.fileRow? e.path).map (·.fileSize) =
        some (.integer e.fileSize)) ∧
    ¬∀ (now : String) (e : FileEntry), e.OwnsEdges →
      ∃ f, (Store.empty.run [.upsert now e]).2.get e.path = .ok (some f) ∧ f.file.metadata = e.metadata := by
  refine ⟨fun h => ?_, fun h => ?_, fun h => ?_⟩
  · obtain ⟨s, hs⟩ := h "t0" (weighted "a.py" "h" ⟨0x7fc00000⟩) (weighted_ownsEdges _ _ _)
    have hrefused : Store.empty.upsert "t0" (weighted "a.py" "h" ⟨0x7fc00000⟩) =
        .error Store.missingStrength := rfl
    rw [hrefused] at hs
    cases hs
  · let e : FileEntry := { (default : FileEntry) with path := "a.js", fileSize := bound63 }
    have hsize := h "t0" e fun a ha => by cases ha
    have hnegative : ((Store.empty.run [.upsert "t0" e]).2.fileRow? "a.js").map (·.fileSize) =
        some (.integer (-bound63)) := rfl
    have hcell := Cell.integer.inj (Option.some.inj (hnegative.symm.trans hsize))
    exact absurd hcell (by decide)
  · let summary : StructureSummary := { hasStructure := true, patterns := [⟨"MVC", ⟨0x7f800000⟩, ""⟩] }
    let e : FileEntry :=
      { (default : FileEntry) with path := "a.js", metadata := { (default : FileMetadata) with summary } }
    obtain ⟨f, hf, -⟩ := h "t0" e fun a ha => by cases ha
    have hfail : (Store.empty.run [.upsert "t0" e]).2.get "a.js" =
        .error (.unreadable "file metadata" none) := rfl
    rw [hfail] at hf
    cases hf

end CodeIndex
