import CodeIndex.Proofs.Store.Legible

/-!
# Runs of a store

A run makes calls one after another and keeps what each of them answered; a call that fails leaves the
store as it was, and the run goes on. From such a history follows what should be stored: for each path the
entry of the last upsert that was written, unless the path was removed since. On a legible store no call
fails but the upsert of an entry with an edge that has no strength.
-/

namespace CodeIndex

/-! ### Calls -/

/-- A call of a store that may write. -/
inductive StoreCall where
  | upsert (now : String) (e : FileEntry)
  | remove (path : String)
  | recordPattern (now patternType content path : String)
  deriving Repr

inductive StoreAnswer where
  | upserted (outcome : UpsertOutcome)
  | removed (wasStored : Bool)
  | recorded
  | failed (error : StoreError)
  deriving DecidableEq, Repr

/-- A call with its answer. -/
structure StoreEvent where
  call : StoreCall
  answer : StoreAnswer
  deriving Repr

/-- Whether the call of an event did not fail. -/
def StoreEvent.Succeeded (event : StoreEvent) : Prop := ∀ error, event.answer ≠ .failed error

theorem StoreEvent.upserted_succeeded (c : StoreCall) (outcome : UpsertOutcome) :
    (⟨c, .upserted outcome⟩ : StoreEvent).Succeeded := by
  intro error hf
  cases hf

theorem StoreEvent.removed_succeeded (c : StoreCall) (wasStored : Bool) :
    (⟨c, .removed wasStored⟩ : StoreEvent).Succeeded := by
  intro error hf
  cases hf

theorem StoreEvent.recorded_succeeded (c : StoreCall) : (⟨c, .recorded⟩ : StoreEvent).Succeeded := by
  intro error hf
  cases hf

/-- Whether the strengths of all edges that a call would write are numbers. -/
def StoreCall.HasStrengths : StoreCall → Prop
  | .upsert _ e => e.hasStrengths = true
  | _ => True

namespace Store

/-- The answer of a call and the store behind it. A call that fails leaves the store as it was. -/
def perform (s : Store) : StoreCall → StoreAnswer × Store
  | .upsert now e =>
    match s.upsert now e with
    | .ok (outcome, s) => (.upserted outcome, s)
    | .error error => (.failed error, s)
  | .remove path =>
    let (wasStored, s) := s.remove path
    (.removed wasStored, s)
  | .recordPattern now patternType content path =>
    match s.recordPattern now patternType content path with
    | .ok s => (.recorded, s)
    | .error error => (.failed error, s)

/-- Makes calls one after another, whatever they answer; gives the history, and the store behind the last
call. -/
def run (s : Store) : List StoreCall → List StoreEvent × Store
  | [] => ([], s)
  | c :: rest =>
    let (answer, s) := s.perform c
    let (history, s) := run s rest
    (⟨c, answer⟩ :: history, s)

theorem run_cons (s t s' : Store) (c : StoreCall) (rest : List StoreCall) (answer : StoreAnswer)
    (history : List StoreEvent) (h : s.perform c = (answer, t)) (hr : t.run rest = (history, s')) :
    s.run (c :: rest) = (⟨c, answer⟩ :: history, s') := by
  simp only [run, h, hr]

theorem run_cons_cases (s s' : Store) (c : StoreCall) (rest : List StoreCall)
    (history : List StoreEvent) (h : s.run (c :: rest) = (history, s')) :
    ∃ answer t later, s.perform c = (answer, t) ∧ t.run rest = (later, s') ∧
      history = ⟨c, answer⟩ :: later := by
  cases h
  exact ⟨_, _, _, rfl, rfl, rfl⟩

theorem run_calls (calls : List StoreCall) (history : List StoreEvent) (s s' : Store)
    (h : s.run calls = (history, s')) : history.map (·.call) = calls := by
  induction calls generalizing s history with
  | nil =>
    cases h
    rfl
  | cons c rest ih =>
    obtain ⟨answer, t, later, -, hr, rfl⟩ := run_cons_cases s s' c rest history h
    rw [List.map_cons, ih later t hr]

theorem run_append (calls more : List StoreCall) (history later : List StoreEvent) (s t s' : Store)
    (h : s.run calls = (history, t)) (hm : t.run more = (later, s')) :
    s.run (calls ++ more) = (history ++ later, s') := by
  induction calls generalizing s history with
  | nil =>
    cases h
    exact hm
  | cons c rest ih =>
    obtain ⟨answer, u, before, hp, hr, rfl⟩ := run_cons_cases s t c rest history h
    exact run_cons s u s' c (rest ++ more) answer _ hp (ih before u hr)

theorem perform_legible (s : Store) (c : StoreCall) (h : s.Legible) : (s.perform c).2.Legible := by
  cases c with
  | upsert now e =>
    cases hu : s.upsert now e with
    | error error => simpa only [perform, hu] using h
    | ok r => simpa only [perform, hu] using upsert_keeps_legible now e s r.2 r.1 h hu
  | remove path => exact remove_legible path s h
  | recordPattern now patternType content path =>
    obtain ⟨s', hr, hl⟩ := recordPattern_legible now patternType content path s h
    simpa only [perform, hr] using hl

/-- On a legible store a call fails only for an edge without a strength. -/
theorem perform_failed (s : Store) (c : StoreCall) (error : StoreError) (h : s.Legible)
    (hf : (s.perform c).1 = .failed error) : error = missingStrength ∧ ¬c.HasStrengths := by
  cases c with
  | upsert now e =>
    cases he : e.hasStrengths with
    | true =>
      obtain ⟨outcome, s', hu, -⟩ := upsert_legible now e he s h
      simp only [perform, hu] at hf
      cases hf
    | false =>
      obtain ⟨stored, hs⟩ := contentHash_legible s h e.path
      refine ⟨?_, fun hc => Bool.noConfusion (he.symm.trans hc)⟩
      by_cases hc : stored = some e.contentHash
      · simp only [perform, upsert_of_hit now e s (hc ▸ hs)] at hf
        cases hf
      · simp only [perform, upsert_refused now e s stored hs hc he] at hf
        cases hf
        rfl
  | remove path => cases hf
  | recordPattern now patternType content path =>
    obtain ⟨s', hr, -⟩ := recordPattern_legible now patternType content path s h
    simp only [perform, hr] at hf
    cases hf

theorem run_legible (calls : List StoreCall) (s : Store) (h : s.Legible) : (s.run calls).2.Legible := by
  induction calls generalizing s with
  | nil => exact h
  | cons c rest ih => exact ih _ (perform_legible s c h)

theorem run_failed (calls : List StoreCall) (s : Store) (h : s.Legible) :
    ∀ event ∈ (s.run calls).1, ∀ error, event.answer = .failed error →
      error = missingStrength ∧ ¬event.call.HasStrengths := by
  induction calls generalizing s with
  | nil => exact fun _ he => absurd he List.not_mem_nil
  | cons c rest ih =>
    intro event he error hf
    rcases List.mem_cons.mp he with rfl | he
    · exact perform_failed s c error h hf
    · exact ih _ (perform_legible s c h) event he error hf

theorem run_succeeds (calls : List StoreCall) (s s' : Store) (history : List StoreEvent) (h : s.Legible)
    (hr : s.run calls = (history, s')) :
    ∀ event ∈ history, event.call.HasStrengths → event.Succeeded := by
  have hfailed := run_failed calls s h
  rw [hr] at hfailed
  exact fun event he hc error hf => (hfailed event he error hf).2 hc

/-- A store that some calls lead to from the empty one. -/
def Reached (s : Store) : Prop := ∃ calls history, Store.empty.run calls = (history, s)

theorem Reached.legible {s : Store} (h : s.Reached) : s.Legible := by
  obtain ⟨calls, history, hr⟩ := h
  have hl := run_legible calls .empty empty_legible
  rwa [hr] at hl

end Store

/-! ### What a history stores -/

/-- An entry with the time of its writing. -/
structure Stamped where
  now : String
  entry : FileEntry
  deriving Repr, Inhabited

def Stamped.path (w : Stamped) : String := w.entry.path

/-- The entry stored for each path. -/
abbrev PathMap := String → Option Stamped

/-- The map with something else for a path. -/
def PathMap.put (m : PathMap) (path : String) (w : Option Stamped) : PathMap :=
  fun q => if q = path then w else m q

/-- The map behind an event: an upsert counts unless nothing was written. -/
def StoreEvent.update (m : PathMap) : StoreEvent → PathMap
  | ⟨.upsert now e, .upserted outcome⟩ => if outcome.wrote then m.put e.path (some ⟨now, e⟩) else m
  | ⟨.remove path, _⟩ => m.put path none
  | _ => m

/-- What a history stores for each path. -/
def storedBy (history : List StoreEvent) : PathMap :=
  history.foldl StoreEvent.update fun _ => none

end CodeIndex
