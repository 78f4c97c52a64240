import CodeIndex.Proofs.Indexer.Batches
import CodeIndex.Proofs.Indexer.Run
import CodeIndex.Proofs.Store.Tally

/-!
# Traces of an indexer

What an indexer does is a sequence of calls of its store, which depends on what the store holds when. Made
one after another on the empty store these calls lead to the store of the indexer, and their answers tell
which entries were written. Sightings are recorded for these entries and for no others.
-/

namespace CodeIndex

/-! ### Written entries -/

/-- The entries that were written, by the answers of the store. -/
def writtenIn (history : List StoreEvent) : List Stamped :=
  history.flatMap fun
    | ⟨.upsert now e, .upserted outcome⟩ => if outcome.wrote then [⟨now, e⟩] else []
    | _ => []

theorem writtenIn_append (history later : List StoreEvent) :
    writtenIn (history ++ later) = writtenIn history ++ writtenIn later :=
  List.flatMap_append

def Stamped.sightings (w : Stamped) : List Sighting :=
  w.entry.sightings.map fun name => ⟨w.now, w.path, name⟩

/-! ### Calls -/

def recordCalls (now path : String) (names : List TypedName) : List StoreCall :=
  names.map fun name => .recordPattern now name.1 name.2 path

/-- The calls that persist an entry. -/
def persistCalls (now : String) (e : FileEntry) (s : Store) : List StoreCall :=
  .upsert now e ::
    match s.upsert now e with
    | .ok (outcome, _) => if outcome.wrote then recordCalls now e.path e.sightings else []
    | .error _ => []

def Prepared.calls (now : String) (outcome : Prepared) (s : Store) : List StoreCall :=
  match outcome with
  | .entry e => persistCalls now e s
  | _ => []

/-- The calls that write what was prepared. -/
def settleCalls (now : String) : List (Path × Prepared) → Store → List StoreCall
  | [], _ => []
  | r :: rest, s => r.2.calls now s ++ settleCalls now rest (r.2.write now s)

namespace Indexer

/-- The calls of the batches of a scan. -/
def scanCalls (x : Indexer) (now : String) (root : Tree) (isCancelled : Nat → Bool) :
    (done : Nat) → List (List Path) → Store → List StoreCall
  | _, [], _ => []
  | done, batch :: rest, s =>
    if isCancelled done then []
    else
      let prepared := batch.map fun p => (p, x.prepare root s p)
      settleCalls now prepared s ++
        scanCalls x now root isCancelled (done + 1) rest (writeAll now prepared s)

/-- The calls of an analysis: none for a file that is stored or in no known language. -/
def analyzeCalls (x : Indexer) (now : String) (p : Path) (t : Text) (s : Store) : List StoreCall :=
  match Language.ofPath? p, s.contentHash (x.keyOf p) with
  | some language, .ok stored =>
    if stored = some (CodeIndex.contentHash t) then []
    else persistCalls now (x.entryOf (x.keyOf p) language t) s
  | _, _ => []

/-- The calls of the store that a call of the indexer makes. -/
def callsOf (x : Indexer) (s : Store) : IndexerCall → List StoreCall
  | .analyze now p t => x.analyzeCalls now p t s
  | .scan now root isCancelled p =>
    let files := root.walk x.settings.walkOptions p
    x.scanCalls now root isCancelled 0
      (batches (max x.settings.indexing.batchSize 1) files.length files) s
  | .event e =>
    match e.kind with
    | .created => []
    | _ => [.remove (x.keyOf e.path)]
  | .forget p => [.remove (x.keyOf p)]

def trace (x : Indexer) : List IndexerCall → Store → List StoreCall
  | [], _ => []
  | c :: rest, s => x.callsOf s c ++ trace x rest (x.perform s c)

/-! ### Replays -/

/-- Whether calls lead from a store to another without a failure, record what the entries written by them
hold, and write computed entries only. -/
def Replays (x : Indexer) (s : Store) (calls : List StoreCall) (s' : Store) : Prop :=
  ∃ history, s.run calls = (history, s') ∧ (∀ event ∈ history, event.Succeeded) ∧
    Store.sightingsOf calls = (writtenIn history).flatMap Stamped.sightings ∧
    ∀ w ∈ writtenIn history, x.Computes (fun _ => True) w.entry

theorem Replays.none (x : Indexer) (s : Store) : x.Replays s [] s :=
  ⟨[], rfl, fun _ he => absurd he List.not_mem_nil, rfl, fun _ hw => absurd hw List.not_mem_nil⟩

theorem Replays.append {x : Indexer} {s t s' : Store} {calls more : List StoreCall}
    (h : x.Replays s calls t) (hm : x.Replays t more s') : x.Replays s (calls ++ more) s' := by
  obtain ⟨history, hr, hok, hs, hw⟩ := h
  obtain ⟨later, hr', hok', hs', hw'⟩ := hm
  refine ⟨history ++ later, s.run_append calls more history later t s' hr hr', ?_, ?_, ?_⟩
  · exact List.forall_mem_append.mpr ⟨hok, hok'⟩
  · rw [Store.sightingsOf_append, writtenIn_append, List.flatMap_append, hs, hs']
  · intro w hwm
    rw [writtenIn_append] at hwm
    exact (List.mem_append.mp hwm).elim (hw w) (hw' w)

theorem Replays.legible {x : Indexer} {s s' : Store} {calls : List StoreCall} (hs : s.Legible)
    (h : x.Replays s calls s') : s'.Legible := by
  obtain ⟨history, hr, -⟩ := h
  have hl := s.run_legible calls hs
  rwa [hr] at hl

theorem remove_replays (x : Indexer) (path : String) (s : Store) :
    x.Replays s [.remove path] (s.remove path).2 :=
  ⟨_, rfl, List.forall_mem_singleton.mpr (StoreEvent.removed_succeeded _ _), rfl, fun _ hw =>
    absurd hw List.not_mem_nil⟩

/-! ### Persisting -/

theorem sightingsOf_recordCalls (now path : String) (names : List TypedName) :
    Store.sightingsOf (recordCalls now path names) = names.map fun name => ⟨now, path, name⟩ := by
  simp only [Store.sightingsOf, recordCalls, List.flatMap_map, ← List.map_eq_flatMap]

theorem run_recordCalls (now path : String) (names : List TypedName) (s : Store) (h : s.Legible) :
    ∃ history, s.run (recordCalls now path names) = (history, (recordAll now path names s).2) ∧
      (∀ event ∈ history, event.Succeeded) ∧ writtenIn history = [] := by
  induction names generalizing s with
  | nil => exact ⟨[], rfl, fun _ he => absurd he List.not_mem_nil, rfl⟩
  | cons name rest ih =>
    obtain ⟨t, ht, hl⟩ := Store.recordPattern_legible now name.1 name.2 path s h
    obtain ⟨history, hr, hok, hw⟩ := ih t hl
    have hp : s.perform (.recordPattern now name.1 name.2 path) = (.recorded, t) := by
      simp only [Store.perform, ht]
    have hrun := Store.run_cons s t _ _ (recordCalls now path rest) .recorded history hp hr
    simp only [recordAll, ht]
    exact ⟨_, hrun, List.forall_mem_cons.mpr ⟨StoreEvent.recorded_succeeded _, hok⟩, hw⟩

theorem persist_replays (x : Indexer) (now : String) (e : FileEntry)
    (he : x.Computes (fun _ => True) e) (s : Store) (h : s.Legible) :
    x.Replays s (persistCalls now e s) (persist now e s).2 := by
  obtain ⟨stored, hs⟩ := Store.contentHash_legible s h e.path
  by_cases hc : stored = some e.contentHash
  · have hu := s.upsert_of_hit now e (hc ▸ hs)
    have hp : s.perform (.upsert now e) = (.upserted .unchanged, s) := by
      simp only [Store.perform, hu]
    have hcalls : persistCalls now e s = [.upsert now e] := by
      simp only [persistCalls, hu]
      rfl
    rw [hcalls, persist_of_hit now e s (hc ▸ hs)]
    exact ⟨_, Store.run_cons s s s _ [] _ [] hp rfl,
      List.forall_mem_singleton.mpr (StoreEvent.upserted_succeeded _ _), rfl, fun _ hw =>
        absurd hw List.not_mem_nil⟩
  · have hstrong := FileEntry.hasStrengths_of_isFinite e (x.computes_isFinite _ e he)
    obtain ⟨outcome, hwrote, hu⟩ := s.upsert_of_miss now e hstrong stored hs hc
    have hp : s.perform (.upsert now e) = (.upserted outcome, s.write now e) := by
      simp only [Store.perform, hu]
    have hcalls : persistCalls now e s = .upsert now e :: recordCalls now e.path e.sightings := by
      simp only [persistCalls, hu, hwrote, ite_true]
    obtain ⟨history, hr, hok, hnone⟩ := run_recordCalls now e.path e.sightings (s.write now e)
      (s.write_legible now e h)
    have hrun := Store.run_cons s _ _ _ (recordCalls now e.path e.sightings) _ history hp hr
    have hwritten : writtenIn (⟨.upsert now e, .upserted outcome⟩ :: history) = [⟨now, e⟩] := by
      rw [← List.singleton_append, writtenIn_append, hnone]
      simp only [writtenIn, List.flatMap_cons, List.flatMap_nil, hwrote, ite_true, List.append_nil]
    rw [hcalls, persist_of_miss now e hstrong s stored hs hc]
    -- of these calls only the first writes an entry, and the others record what it holds
    have hfirst := StoreEvent.upserted_succeeded (.upsert now e) outcome
    refine ⟨_, hrun, List.forall_mem_cons.mpr ⟨hfirst, hok⟩, ?_, fun w hw => ?_⟩
    · rw [hwritten, ← List.singleton_append, Store.sightingsOf_append, sightingsOf_recordCalls,
        List.flatMap_singleton]
      rfl
    · rw [hwritten, List.mem_singleton] at hw
      exact hw ▸ he

theorem settle_replays (x : Indexer) (now : String) (prepared : List (Path × Prepared))
    (he : ∀ r ∈ prepared, ∀ e, r.2 = .entry e → x.Computes (fun _ => True) e) (s : Store)
    (h : s.Legible) : x.Replays s (settleCalls now prepared s) (writeAll now prepared s) := by
  induction prepared generalizing s with
  | nil => exact Replays.none x s
  | cons r rest ih =>
    have hfirst : x.Replays s (r.2.calls now s) (r.2.write now s) := by
      cases hr : r.2 with
      | entry e => exact x.persist_replays now e (he r List.mem_cons_self e hr) s h
      | cached => exact Replays.none x s
      | unsupported => exact Replays.none x s
      | failed reason => exact Replays.none x s
    exact hfirst.append (ih (fun q hq => he q (List.mem_cons_of_mem r hq)) _
      (r.2.write_legible now s h))

/-! ### Calls of an indexer -/

theorem scanBatches_replays (x : Indexer) (now : String) (root : Tree) (isCancelled : Nat → Bool)
    (done : Nat) (list : List (List Path)) (stats : ScanStats) (s : Store) (h : s.Legible) :
    x.Replays s (x.scanCalls now root isCancelled done list s)
      (x.scanBatches now root isCancelled done list stats s).2.2 := by
  induction list generalizing done stats s with
  | nil => exact Replays.none x s
  | cons batch rest ih =>
    by_cases hc : isCancelled done = true
    · simp only [scanCalls, scanBatches, hc, ite_true]
      exact Replays.none x s
    · obtain ⟨stats', hw⟩ := settle_writes now _ (x.batch_hasStrengths root batch s) stats s h
      have hfirst := x.settle_replays now (batch.map fun p => (p, x.prepare root s p)) (by
        intro r hr e he
        obtain ⟨p, -, rfl⟩ := List.mem_map.mp hr
        exact x.prepare_computes _ root p s e (fun _ _ => trivial) he) s h
      simp only [scanCalls, scanBatches, hc, Bool.false_eq_true, ite_false, hw]
      exact hfirst.append (ih (done + 1) stats' _ (hfirst.legible h))

theorem analyze_replays (x : Indexer) (now : String) (p : Path) (t : Text) (s : Store)
    (h : s.Legible) : x.Replays s (x.analyzeCalls now p t s) (x.analyze now p t s).2 := by
  obtain ⟨stored, hs⟩ := Store.contentHash_legible s h (x.keyOf p)
  simp only [analyzeCalls, analyze_store, hs]
  cases hl : Language.ofPath? p with
  | none => exact Replays.none x s
  | some language =>
    by_cases hc : stored = some (CodeIndex.contentHash t)
    · simp only [hc, ite_true]
      exact Replays.none x s
    · simp only [hc, ite_false]
      exact x.persist_replays now _ ⟨p, language, t, hl, trivial, rfl⟩ s h

theorem perform_replays (x : Indexer) (s : Store) (h : s.Legible) (c : IndexerCall) :
    x.Replays s (x.callsOf s c) (x.perform s c) := by
  cases c with
  | analyze now p t => exact x.analyze_replays now p t s h
  | scan now root isCancelled p => exact x.scanBatches_replays now root isCancelled 0 _ _ s h
  | event e =>
    simp only [callsOf, perform, handleEvent]
    cases e.kind with
    | created => exact Replays.none x s
    | changed => exact x.remove_replays (x.keyOf e.path) s
    | deleted => exact x.remove_replays (x.keyOf e.path) s
  | forget p => exact x.remove_replays (x.keyOf p) s

/-- The trace of an indexer leads to its store. -/
theorem trace_replays (x : Indexer) (calls : List IndexerCall) (s : Store) (h : s.Legible) :
    x.Replays s (x.trace calls s) (x.run calls s) := by
  induction calls generalizing s with
  | nil => exact Replays.none x s
  | cons c rest ih =>
    have hfirst := x.perform_replays s h c
    exact hfirst.append (ih _ (hfirst.legible h))

end Indexer

end CodeIndex
