import CodeIndex.Indexer.Scan
import CodeIndex.Proofs.Indexer.Analyze
import CodeIndex.Proofs.Indexer.Entry
import CodeIndex.Proofs.Store.Frame

/-!
# Taking one file

What a scan does with a file, and what analyzing it alone does. Preparing a file reads nothing of the
store but the stored hash of its own key, and writing its entry changes the hash of no other key. So it
makes no difference when a file is prepared, as long as its key is its own.
-/

namespace CodeIndex

/-! ### Persisting -/

/-- Names are counted when each of them can be, wherever the ones before it led. -/
theorem recordAll_of_each (good : Store → Prop) (now path : String) (names : List (String × String))
    (heach : ∀ (name : String × String) (s : Store), good s →
      ∃ s', s.recordPattern now name.1 name.2 path = .ok s' ∧ good s')
    (s : Store) (h : good s) : ∃ s', recordAll now path names s = (.ok (), s') ∧ good s' := by
  induction names generalizing s with
  | nil => exact ⟨s, rfl, h⟩
  | cons name rest ih =>
    obtain ⟨t, ht, hg⟩ := heach name s h
    obtain ⟨s', hr, hs⟩ := ih t hg
    exact ⟨s', by simp only [recordAll, ht, hr], hs⟩

theorem recordAll_legible (now path : String) (names : List (String × String)) (s : Store)
    (h : s.Legible) :
    ∃ s', recordAll now path names s = (.ok (), s') ∧ s'.Legible ∧ s'.files = s.files := by
  refine recordAll_of_each (fun t => t.Legible ∧ t.files = s.files) now path names ?_ s ⟨h, rfl⟩
  rintro name t ⟨hl, hf⟩
  obtain ⟨r, hr, hk⟩ := Store.recordPattern_legible now name.1 name.2 path t hl
  have hframe := Store.recordPattern_frame now name.1 name.2 path t r hr
  exact ⟨r, hr, hk, hframe.1.trans hf⟩

theorem persist_of_hit (now : String) (e : FileEntry) (s : Store)
    (hs : s.contentHash e.path = .ok (some e.contentHash)) : persist now e s = (.ok (), s) := by
  simp only [persist, s.upsert_of_hit now e hs]

theorem persist_of_miss (now : String) (e : FileEntry) (he : e.hasStrengths = true) (s : Store)
    (stored : Option String) (hs : s.contentHash e.path = .ok stored)
    (hne : stored ≠ some e.contentHash) :
    persist now e s = recordAll now e.path e.sightings (s.write now e) := by
  obtain ⟨outcome, hw, hu⟩ := s.upsert_of_miss now e he stored hs hne
  simp only [persist, hu]
  cases outcome with
  | unchanged => cases hw
  | inserted => rfl
  | replaced previous => rfl

theorem contentHash_of_files (s t : Store) (path : String) (h : s.files = t.files) :
    s.contentHash path = t.contentHash path := by
  simp only [Store.contentHash, Store.fileRow?, h]

theorem persist_keeps_legible (now : String) (e : FileEntry) (s : Store) (h : s.Legible) :
    (persist now e s).2.Legible := by
  cases hu : s.upsert now e with
  | error error => simpa only [persist, hu] using h
  | ok r =>
    obtain ⟨outcome, t⟩ := r
    have ht := Store.upsert_keeps_legible now e s t outcome h hu
    obtain ⟨s', hr, hl, -⟩ := recordAll_legible now e.path e.sightings t ht
    cases outcome with
    | unchanged => simpa only [persist, hu] using ht
    | inserted => simpa only [persist, hu, hr] using hl
    | replaced previous => simpa only [persist, hu, hr] using hl

theorem persist_legible (now : String) (e : FileEntry) (he : e.hasStrengths = true) (s : Store)
    (h : s.Legible) :
    ∃ s', persist now e s = (.ok (), s') ∧ s'.Legible ∧
      s'.contentHash e.path = .ok (some e.contentHash) ∧
      ∀ path, path ≠ e.path → s'.contentHash path = s.contentHash path := by
  obtain ⟨stored, hs⟩ := Store.contentHash_legible s h e.path
  by_cases hc : stored = some e.contentHash
  · rw [hc] at hs
    exact ⟨s, persist_of_hit now e s hs, h, hs, fun _ _ => rfl⟩
  · obtain ⟨s', hr, hl, hf⟩ := recordAll_legible now e.path e.sightings (s.write now e)
      (Store.write_legible now e s h)
    refine ⟨s', by rw [persist_of_miss now e he s stored hs hc, hr], hl, ?_, ?_⟩
    · rw [contentHash_of_files s' _ e.path hf]
      exact Store.contentHash_write now e s
    · intro path hp
      rw [contentHash_of_files s' _ path hf]
      exact Store.contentHash_write_other now e s path hp

theorem recordAll_unstamped (now path : String) (names : List (String × String)) (s : Store) :
    recordAll "" path names s.unstamped =
      ((recordAll now path names s).1, (recordAll now path names s).2.unstamped) := by
  induction names generalizing s with
  | nil => rfl
  | cons name rest ih =>
    simp only [recordAll, Store.recordPattern_unstamped now name.1 name.2 path s]
    cases s.recordPattern now name.1 name.2 path with
    | error e => rfl
    | ok t => exact ih t

theorem persist_unstamped (now : String) (e : FileEntry) (s : Store) :
    persist "" e s.unstamped = ((persist now e s).1, (persist now e s).2.unstamped) := by
  simp only [persist, Store.upsert_unstamped now e s]
  cases s.upsert now e with
  | error error => rfl
  | ok r =>
    obtain ⟨outcome, t⟩ := r
    cases outcome with
    | unchanged => rfl
    | inserted => exact recordAll_unstamped now e.path e.sightings t
    | replaced previous => exact recordAll_unstamped now e.path e.sightings t

/-! ### What becomes of a file -/

/-- The store behind a file that was prepared. -/
def Prepared.write (now : String) (outcome : Prepared) (s : Store) : Store :=
  match outcome with
  | .entry e => (persist now e s).2
  | _ => s

theorem Prepared.write_legible (now : String) (outcome : Prepared) (s : Store) (h : s.Legible) :
    (outcome.write now s).Legible := by
  cases outcome with
  | entry e => exact persist_keeps_legible now e s h
  | cached => exact h
  | unsupported => exact h
  | failed reason => exact h

/-- Whether what was prepared has no edge without a strength. -/
def Prepared.HasStrengths (outcome : Prepared) : Prop :=
  ∀ e, outcome = .entry e → e.hasStrengths = true

/-- The store behind files that were prepared, written one after another. -/
def writeAll (now : String) (prepared : List (Path × Prepared)) (s : Store) : Store :=
  prepared.foldl (fun s r => r.2.write now s) s

theorem writeAll_legible (now : String) (prepared : List (Path × Prepared)) (s : Store)
    (h : s.Legible) : (writeAll now prepared s).Legible := by
  induction prepared generalizing s with
  | nil => exact h
  | cons r rest ih => exact ih _ (r.2.write_legible now s h)

/-- What a file is prepared as again, once it was written. -/
def Prepared.again : Prepared → Prepared
  | .entry _ => .cached
  | outcome => outcome

namespace Indexer

/-- Whether the hash of a text is stored under the key of a path. -/
def isStored (x : Indexer) (p : Path) (t : Text) (s : Store) : Bool :=
  match s.contentHash (x.keyOf p) with
  | .ok stored => stored == some (CodeIndex.contentHash t)
  | .error _ => false

/-- Takes the file at a path by itself: a file that is in no known language or unreadable is left alone,
as is one whose structure cannot be extracted and that is not stored; any other file is analyzed. -/
def takeFile (x : Indexer) (root : Tree) (now : String) (p : Path) (s : Store) : Store :=
  match Language.ofPath? p, root.textAt p with
  | some language, .ok t =>
    if x.isStored p t s || (Registry.standard.extract language t).toBool then (x.analyze now p t s).2
    else s
  | _, _ => s

/-- Takes files one after another, each at its own time. -/
def takeFiles (x : Indexer) (root : Tree) (now : Path → String) (files : List Path) (s : Store) :
    Store :=
  files.foldl (fun s p => x.takeFile root (now p) p s) s

/-! ### Prepared files -/

theorem takeFile_eq_write (x : Indexer) (root : Tree) (now : String) (p : Path) (s : Store) :
    x.takeFile root now p s = (x.prepare root s p).write now s := by
  cases hl : Language.ofPath? p with
  | none => simp only [takeFile, prepare, hl, Prepared.write]
  | some language =>
    cases ht : root.textAt p with
    | error e => simp only [takeFile, prepare, hl, ht, Prepared.write]
    | ok t =>
      simp only [takeFile, prepare, prepareText, hl, ht, analyze_store]
      cases hs : s.contentHash (x.keyOf p) with
      | error e =>
        simp only [Prepared.write]
        exact ite_self s
      | ok stored =>
        by_cases hc : stored = some (CodeIndex.contentHash t)
        · have hi : x.isStored p t s = true := by simp only [isStored, hs, hc, beq_self_eq_true]
          simp only [hi, hc, Bool.true_or, ite_true, Prepared.write]
        · have hi : x.isStored p t s = false := by simp [isStored, hs, hc]
          simp only [hi, hc, Bool.false_or, ite_false]
          cases hx : Registry.standard.extract language t with
          | error e => simp [entryOf, hx, Except.toBool, Except.toOption, Prepared.write]
          | ok d => simp [entryOf, hx, Except.toBool, Except.toOption, Prepared.write]

/-- Preparing a file reads the stored hash of its key only. -/
theorem prepare_congr (x : Indexer) (root : Tree) (p : Path) (s t : Store)
    (h : s.contentHash (x.keyOf p) = t.contentHash (x.keyOf p)) :
    x.prepare root s p = x.prepare root t p := by
  simp only [prepare, prepareText, h]

/-- A file that was written is cached; any other is prepared as before. -/
theorem prepare_again (x : Indexer) (root : Tree) (p : Path) (now : String) (s : Store)
    (h : s.Legible) :
    x.prepare root ((x.prepare root s p).write now s) p = (x.prepare root s p).again := by
  cases hl : Language.ofPath? p with
  | none => simp only [prepare, hl, Prepared.again]
  | some language =>
    cases ht : root.textAt p with
    | error e => simp only [prepare, hl, ht, Prepared.again]
    | ok t =>
      obtain ⟨stored, hs⟩ := Store.contentHash_legible s h (x.keyOf p)
      by_cases hc : stored = some (CodeIndex.contentHash t)
      · simp only [prepare, prepareText, hl, ht, hs, hc, ite_true, Prepared.write, Prepared.again]
      · by_cases ha : (x.entryOf (x.keyOf p) language t).analysis.isNone
        · simp only [prepare, prepareText, hl, ht, hs, hc, ha, ite_true, ite_false, Prepared.write,
            Prepared.again]
        · obtain ⟨s', hp, -, hk, -⟩ := persist_legible now (x.entryOf (x.keyOf p) language t)
            (x.entryOf_hasStrengths (x.keyOf p) language t) s h
          have hk : s'.contentHash (x.keyOf p) = .ok (some (CodeIndex.contentHash t)) := hk
          simp only [prepare, prepareText, hl, ht, hs, hc, ha, Bool.false_eq_true, ite_false,
            Prepared.write, hp, hk, ite_true, Prepared.again]

theorem entryOf_analysis (x : Indexer) (key : String) (language : Language) (t : Text) :
    (x.entryOf key language t).analysis.isNone = !(Registry.standard.extract language t).toBool := by
  simp only [entryOf]
  cases Registry.standard.extract language t <;> rfl

/-- A file is prepared as an entry when its text is not stored and its structure is found. -/
theorem prepare_eq_entry (x : Indexer) (root : Tree) (s : Store) (p : Path) (e : FileEntry) :
    x.prepare root s p = .entry e ↔
      ∃ language t stored, Language.ofPath? p = some language ∧ root.textAt p = .ok t ∧
        s.contentHash (x.keyOf p) = .ok stored ∧ stored ≠ some (CodeIndex.contentHash t) ∧
        (Registry.standard.extract language t).toBool = true ∧
        e = x.entryOf (x.keyOf p) language t := by
  constructor
  · intro h
    cases hl : Language.ofPath? p with
    | none =>
      simp only [prepare, hl] at h
      cases h
    | some language =>
      cases ht : root.textAt p with
      | error error =>
        simp only [prepare, hl, ht] at h
        cases h
      | ok t =>
        simp only [prepare, prepareText, hl, ht, entryOf_analysis] at h
        cases hs : s.contentHash (x.keyOf p) with
        | error error =>
          rw [hs] at h
          cases h
        | ok stored =>
          by_cases hc : stored = some (CodeIndex.contentHash t)
          · simp only [hs, hc, ite_true] at h
            cases h
          · cases hx : (Registry.standard.extract language t).toBool with
            | false =>
              simp only [hs, hc, hx, Bool.not_false, ite_true, ite_false] at h
              cases h
            | true =>
              simp only [hs, hc, hx, Bool.not_true, Bool.false_eq_true, ite_false] at h
              cases h
              exact ⟨language, t, stored, rfl, rfl, rfl, hc, hx, rfl⟩
  · rintro ⟨language, t, stored, hl, ht, hs, hc, hx, rfl⟩
    simp only [prepare, prepareText, hl, ht, hs, hc, entryOf_analysis, hx, Bool.not_true,
      Bool.false_eq_true, ite_false]

theorem prepare_path (x : Indexer) (root : Tree) (p : Path) (s : Store) (e : FileEntry)
    (h : x.prepare root s p = .entry e) : e.path = x.keyOf p := by
  obtain ⟨language, t, stored, -, -, -, -, -, rfl⟩ := (x.prepare_eq_entry root s p e).mp h
  rfl

theorem prepare_hasStrengths (x : Indexer) (root : Tree) (p : Path) (s : Store) :
    (x.prepare root s p).HasStrengths := by
  intro e he
  obtain ⟨language, t, stored, -, -, -, -, -, rfl⟩ := (x.prepare_eq_entry root s p e).mp he
  exact x.entryOf_hasStrengths _ language t

theorem write_prepared (x : Indexer) (root : Tree) (p : Path) (now : String) (s : Store)
    (h : s.Legible) :
    ((x.prepare root s p).write now s).Legible ∧ ∀ path, path ≠ x.keyOf p →
      ((x.prepare root s p).write now s).contentHash path = s.contentHash path := by
  refine ⟨(x.prepare root s p).write_legible now s h, ?_⟩
  cases hp : x.prepare root s p with
  | entry e =>
    obtain ⟨s', hw, -, -, hf⟩ := persist_legible now e (x.prepare_hasStrengths root p s e hp) s h
    simp only [Prepared.write, hw]
    exact x.prepare_path root p s e hp ▸ hf
  | cached => exact fun _ _ => rfl
  | unsupported => exact fun _ _ => rfl
  | failed reason => exact fun _ _ => rfl

theorem takeFile_unstamped (x : Indexer) (root : Tree) (now : String) (p : Path) (s : Store) :
    (x.takeFile root now p s).unstamped = x.takeFile root "" p s.unstamped := by
  rw [takeFile_eq_write, takeFile_eq_write,
    x.prepare_congr root p s.unstamped s (s.contentHash_unstamped _)]
  cases x.prepare root s p with
  | entry e => simp only [Prepared.write, persist_unstamped now e s]
  | cached => rfl
  | unsupported => rfl
  | failed reason => rfl

theorem takeFiles_unstamped (x : Indexer) (root : Tree) (now : Path → String) (files : List Path)
    (s : Store) :
    (x.takeFiles root now files s).unstamped = x.takeFiles root (fun _ => "") files s.unstamped := by
  induction files generalizing s with
  | nil => rfl
  | cons p rest ih =>
    have hr := ih (x.takeFile root (now p) p s)
    simp only [takeFiles, List.foldl_cons] at hr ⊢
    rw [hr, takeFile_unstamped]

end Indexer

end CodeIndex
