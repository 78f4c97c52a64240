import CodeIndex.Indexer.Scan
import CodeIndex.Proofs.Indexer.Entry
import CodeIndex.Proofs.Indexer.OneFile
import CodeIndex.Proofs.Store.Mirror

/-!
# Runs of an indexer

Whatever an indexer is asked to do from the empty store on, its store is that of a ledger, and every
entry in the ledger is one that the indexer computed from a text it was given or read. One call after
another keeps this: an analysis and a scan write computed entries only, and a change only removes.
-/

namespace CodeIndex

/-! ### Calls -/

/-- A call of an indexer that may write. -/
inductive IndexerCall where
  | analyze (now : String) (p : Path) (t : Text)
  | scan (now : String) (root : Tree) (isCancelled : Nat → Bool) (p : Path)
  | event (e : FileEvent)
  | forget (p : Path)

namespace Indexer

/-- The store behind a call, whether it fails or not. -/
def perform (x : Indexer) (s : Store) : IndexerCall → Store
  | .analyze now p t => (x.analyze now p t s).2
  | .scan now root isCancelled p => (x.scan now root isCancelled p s).2.2
  | .event e => (x.handleEvent e s).2
  | .forget p => (x.forget p s).2

def run (x : Indexer) (calls : List IndexerCall) (s : Store) : Store :=
  calls.foldl x.perform s

/-- Whether a call is given a text or reads it. -/
def reads (x : Indexer) : IndexerCall → Text → Prop
  | .analyze _ _ t, u => u = t
  | .scan _ root _ p, u => ∃ q ∈ root.walk x.settings.walkOptions p, root.textAt q = .ok u
  | _, _ => False

/-- Whether all entries of a ledger are computed from some texts. -/
def Fills (x : Indexer) (read : Text → Prop) (l : Ledger) : Prop :=
  ∀ path w, l.stored path = some w → x.Computes read w.entry

/-- A store that is that of a sound ledger with computed entries. -/
def Keeps (x : Indexer) (read : Text → Prop) (s : Store) : Prop :=
  ∃ l : Ledger, s = l.store ∧ l.Sound ∧ x.Fills read l

end Indexer

/-! ### Writing an entry -/

/-- A store that is that of a sound ledger with entries of some sort. -/
def Kept (good : FileEntry → Prop) (s : Store) : Prop :=
  ∃ l : Ledger, s = l.store ∧ l.Sound ∧ ∀ path w, l.stored path = some w → good w.entry

section

variable (good : FileEntry → Prop)

theorem empty_kept : Kept good .empty :=
  ⟨{}, Ledger.empty_store.symm, Ledger.empty_sound, fun _ _ hw => by cases hw⟩

theorem recordAll_kept (now path : String) (names : List (String × String)) (s : Store)
    (h : Kept good s) : ∃ s', recordAll now path names s = (.ok (), s') ∧ Kept good s' := by
  refine recordAll_of_each (Kept good) now path names ?_ s h
  rintro name _ ⟨l, rfl, hl, hf⟩
  obtain ⟨k, hr, hstep⟩ := Ledger.recordPattern_step l hl now name.1 name.2 path
  refine ⟨k.store, hr, k, rfl, hstep.sound hl trivial, ?_⟩
  rw [hstep.stored hl trivial]
  exact hf

theorem remove_kept (path : String) (s : Store) (h : Kept good s) : Kept good (s.remove path).2 := by
  obtain ⟨l, rfl, hl, hf⟩ := h
  refine ⟨l.remove path, ?_, Ledger.remove_sound l path hl, ?_⟩
  · simp only [Ledger.store_remove l path hl]
  · intro other w hw
    rw [Ledger.stored_remove l path hl, PathMap.put] at hw
    split at hw
    · cases hw
    · exact hf other w hw

variable (ho : ∀ e, good e → e.OwnsEdges) (hstrong : ∀ e, good e → e.hasStrengths = true)

include ho hstrong

theorem upsert_kept (now : String) (e : FileEntry) (s : Store) (he : good e) (h : Kept good s) :
    ∃ outcome s', s.upsert now e = .ok (outcome, s') ∧ Kept good s' := by
  obtain ⟨l, rfl, hl, hf⟩ := h
  have hu := Store.upsert_of_contentHash now e (hstrong e he) l.store _ (l.hashOf_store e.path)
  refine ⟨_, _, hu, ?_⟩
  split
  · refine ⟨l.write ⟨now, e⟩, Ledger.store_write l ⟨now, e⟩ hl,
      Ledger.write_sound l ⟨now, e⟩ hl (ho e he) (hstrong e he), ?_⟩
    intro path w hw
    rw [Ledger.stored_write l ⟨now, e⟩ hl (ho e he) (hstrong e he), PathMap.put] at hw
    split at hw
    · cases hw
      exact he
    · exact hf path w hw
  · exact ⟨l, rfl, hl, hf⟩

theorem persist_kept (now : String) (e : FileEntry) (s : Store) (he : good e) (h : Kept good s) :
    ∃ s', persist now e s = (.ok (), s') ∧ Kept good s' := by
  obtain ⟨outcome, t, hu, ht⟩ := upsert_kept good ho hstrong now e s he h
  obtain ⟨s', hr, hs⟩ := recordAll_kept good now e.path e.sightings t ht
  simp only [persist, hu]
  cases outcome with
  | unchanged => exact ⟨t, rfl, ht⟩
  | inserted => exact ⟨s', hr, hs⟩
  | replaced previous => exact ⟨s', hr, hs⟩

end

namespace Indexer

/-! ### Files that a scan prepares -/

theorem prepare_computes (x : Indexer) (read : Text → Prop) (root : Tree) (p : Path) (s : Store)
    (e : FileEntry) (hr : ∀ t, root.textAt p = .ok t → read t) (h : x.prepare root s p = .entry e) :
    x.Computes read e := by
  obtain ⟨language, t, stored, hl, ht, -, -, -, he⟩ := (x.prepare_eq_entry root s p e).mp h
  exact ⟨p, language, t, hl, hr t ht, he⟩

/-! ### Scans -/

/-- What the write of each prepared entry keeps, writing all of them keeps. -/
theorem settle_invariant (good : Store → Prop) (now : String) (prepared : List (Path × Prepared))
    (hstep : ∀ r ∈ prepared, ∀ e, r.2 = .entry e → ∀ s, good s → good (persist now e s).2)
    (stats : ScanStats) (s : Store) (h : good s) : good (settle now prepared stats s).2 := by
  induction prepared generalizing stats s with
  | nil => exact h
  | cons r rest ih =>
    have hrest := fun q hq => hstep q (List.mem_cons_of_mem r hq)
    obtain ⟨p, outcome⟩ := r
    cases outcome with
    | entry e =>
      have hs := hstep _ List.mem_cons_self e rfl s h
      cases hp : persist now e s with
      | mk result s' =>
        rw [hp] at hs
        cases result with
        | error error => simpa only [settle, hp] using hs
        | ok u =>
          simp only [settle, hp]
          exact ih hrest _ s' hs
    | cached => exact ih hrest _ s h
    | unsupported => exact ih hrest _ s h
    | failed reason => exact ih hrest _ s h

theorem scanBatches_invariant (x : Indexer) (good : Store → Prop) (now : String) (root : Tree)
    (isCancelled : Nat → Bool) (list : List (List Path))
    (hstep : ∀ batch ∈ list, ∀ p ∈ batch, ∀ before e, x.prepare root before p = .entry e →
      ∀ s, good s → good (persist now e s).2)
    (done : Nat) (stats : ScanStats) (s : Store) (h : good s) :
    good (x.scanBatches now root isCancelled done list stats s).2.2 := by
  induction list generalizing done stats s with
  | nil => exact h
  | cons batch rest ih =>
    by_cases hc : isCancelled done = true
    · simp only [scanBatches, hc, ite_true]
      exact h
    · have hs := settle_invariant good now (batch.map fun p => (p, x.prepare root s p)) (by
        intro r hr e he
        obtain ⟨p, hp, rfl⟩ := List.mem_map.mp hr
        exact hstep batch List.mem_cons_self p hp s e he) stats s h
      simp only [scanBatches, hc, Bool.false_eq_true, ite_false]
      cases hw : settle now (batch.map fun p => (p, x.prepare root s p)) stats s with
      | mk result s' =>
        rw [hw] at hs
        cases result with
        | error error => exact hs
        | ok stats' => exact ih (fun b hb => hstep b (List.mem_cons_of_mem batch hb)) _ stats' s' hs

theorem mem_of_batches {α : Type} (size fuel : Nat) (list batch : List α)
    (h : batch ∈ batches size fuel list) : ∀ a ∈ batch, a ∈ list := by
  induction fuel generalizing list with
  | zero => cases h
  | succ fuel ih =>
    simp only [batches] at h
    split at h
    · cases h
    · intro a ha
      rcases List.mem_cons.mp h with rfl | h
      · exact List.mem_of_mem_take ha
      · exact List.mem_of_mem_drop (ih _ h a ha)

/-- What the write of each computed entry keeps, a scan keeps. -/
theorem scan_invariant (x : Indexer) (good : Store → Prop) (now : String) (root : Tree)
    (isCancelled : Nat → Bool) (p : Path)
    (hstep : ∀ q ∈ root.walk x.settings.walkOptions p, ∀ before e, x.prepare root before q = .entry e →
      ∀ s, good s → good (persist now e s).2)
    (s : Store) (h : good s) : good (x.scan now root isCancelled p s).2.2 :=
  x.scanBatches_invariant good now root isCancelled _
    (fun batch hb q hq => hstep q (mem_of_batches _ _ _ batch hb q hq)) 0 _ s h

/-! ### Calls of an indexer -/

/-- A call keeps what the entries that it computes have in common with those that are stored. -/
theorem perform_kept (x : Indexer) (good : FileEntry → Prop) (ho : ∀ e, good e → e.OwnsEdges)
    (hstrong : ∀ e, good e → e.hasStrengths = true) (c : IndexerCall) (hc : ∀ e, x.Computes (x.reads c) e → good e) (s : Store) (h : Kept good s) :
    Kept good (x.perform s c) := by
  cases c with
  | analyze now p t =>
    rcases x.analyze_cases now p t s with hsame | ⟨language, -, hl, -, -, ha⟩
    · simp only [perform, hsame]
      exact h
    · obtain ⟨s', hs, hkept⟩ := persist_kept good ho hstrong now _ s (hc _ ⟨p, language, t, hl, rfl, rfl⟩) h
      simp only [perform, ha, refresh_store, hs]
      exact hkept
  | scan now root isCancelled p =>
    refine x.scan_invariant (Kept good) now root isCancelled p ?_ s h
    intro q hq before e he t ht
    have hcomputes := x.prepare_computes (x.reads (.scan now root isCancelled p)) root q before e
      (fun u hu => ⟨q, hq, hu⟩) he
    obtain ⟨t', hp, hkept⟩ := persist_kept good ho hstrong now e t (hc e hcomputes) ht
    rw [hp]
    exact hkept
  | event e =>
    simp only [perform, handleEvent]
    split
    · exact h
    · exact remove_kept good (x.keyOf e.path) s h
  | forget p => exact remove_kept good (x.keyOf p) s h

theorem perform_keeps (x : Indexer) (read : Text → Prop) (c : IndexerCall)
    (hr : ∀ t, x.reads c t → read t) (s : Store) (h : x.Keeps read s) :
    x.Keeps read (x.perform s c) :=
  x.perform_kept (x.Computes read) (x.computes_ownsEdges read)
    (fun e h => FileEntry.hasStrengths_of_isFinite e (x.computes_isFinite read e h)) c
    (fun _ ⟨p, language, t, hl, ht, he⟩ => ⟨p, language, t, hl, hr t ht, he⟩) s h

theorem empty_keeps (x : Indexer) (read : Text → Prop) : x.Keeps read .empty :=
  empty_kept (x.Computes read)

theorem run_keeps (x : Indexer) (read : Text → Prop) (calls : List IndexerCall)
    (hr : ∀ c ∈ calls, ∀ t, x.reads c t → read t) (s : Store) (h : x.Keeps read s) :
    x.Keeps read (x.run calls s) := by
  induction calls generalizing s with
  | nil => exact h
  | cons c rest ih =>
    exact ih (fun d hd => hr d (List.mem_cons_of_mem c hd)) _
      (x.perform_keeps read c (hr c List.mem_cons_self) s h)

end Indexer

end CodeIndex
