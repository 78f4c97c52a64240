import CodeIndex.Proofs.Indexer.OneFile
import CodeIndex.Proofs.Store.Readback
import CodeIndex.Proofs.Store.Tally

/-!
# Analyses that fail half-way

An entry is written first and the names in it are counted after that, one by one; then the entry is read
back. A name that cannot be counted, or an entry that cannot be read back, fails the analysis and leaves
the rows that were written. These are the only two ways, and the stored hash hides either of them from
the next call.
-/

namespace CodeIndex

/-! ### Counting names -/

theorem recordAll_cases (now path : String) (names : List TypedName) (s : Store) :
    ((∃ name ∈ names, s.Unreadable name) ∧
        ∃ e, (recordAll now path names s).1 = .error (.store e)) ∨
      ((∀ name ∈ names, ¬s.Unreadable name) ∧ (recordAll now path names s).1 = .ok ()) := by
  induction names generalizing s with
  | nil => exact Or.inr ⟨fun _ hn => absurd hn List.not_mem_nil, rfl⟩
  | cons name rest ih =>
    rcases Store.recordPattern_cases now path name s with ⟨hu, e, he⟩ | ⟨hu, t, ht, hkeep⟩
    · refine Or.inl ⟨⟨name, List.mem_cons_self, hu⟩, e, ?_⟩
      simp only [recordAll, he]
    · simp only [recordAll, ht]
      rcases ih t with ⟨⟨other, ho, hut⟩, e, he⟩ | ⟨hall, hr⟩
      · exact Or.inl ⟨⟨other, List.mem_cons_of_mem _ ho, (hkeep other).mp hut⟩, e, he⟩
      · refine Or.inr ⟨fun other ho => ?_, hr⟩
        rcases List.mem_cons.mp ho with rfl | ho
        · exact hu
        · exact fun hs => hall other ho ((hkeep other).mpr hs)

theorem recordAll_frame (now path : String) (names : List TypedName) (s : Store) :
    (recordAll now path names s).2.files = s.files ∧
      (recordAll now path names s).2.structures = s.structures ∧
      (recordAll now path names s).2.edges = s.edges := by
  induction names generalizing s with
  | nil => exact ⟨rfl, rfl, rfl⟩
  | cons name rest ih =>
    cases ht : s.recordPattern now name.1 name.2 path with
    | error e => simp only [recordAll, ht, and_self]
    | ok t =>
      obtain ⟨hf, hs, he⟩ := Store.recordPattern_frame now name.1 name.2 path s t ht
      obtain ⟨hf', hs', he'⟩ := ih t
      simp only [recordAll, ht]
      exact ⟨hf'.trans hf, hs'.trans hs, he'.trans he⟩

/-! ### Computing an entry anew -/

/-- Whether an entry cannot be stored whole: a name in it cannot be counted, or it cannot be read back. -/
def Store.Breaks (s : Store) (e : FileEntry) : Prop :=
  (∃ name ∈ e.sightings, s.Unreadable name) ∨ e.embedding.modelType = .model ""

theorem unreadable_write (now : String) (e : FileEntry) (s : Store) (name : TypedName) :
    (s.write now e).Unreadable name ↔ s.Unreadable name := by
  rw [Store.Unreadable, Store.write_eq]
  exact Iff.rfl

/-- Writing an entry and counting its names fails on an unreadable row only, and otherwise leaves the rows
of the entry. -/
theorem persist_cases (now : String) (e : FileEntry) (hstrong : e.hasStrengths = true) (s : Store)
    (stored : Option String) (hs : s.contentHash e.path = .ok stored) (hne : stored ≠ some e.contentHash) :
    ((∃ name ∈ e.sightings, s.Unreadable name) ∧
        ∃ error s', persist now e s = (.error error, s') ∧ s'.Holds now e) ∨
      ((∀ name ∈ e.sightings, ¬s.Unreadable name) ∧
        ∃ s', persist now e s = (.ok (), s') ∧ s'.Holds now e) := by
  rw [persist_of_miss now e hstrong s stored hs hne]
  obtain ⟨hf, ht, -⟩ := recordAll_frame now e.path e.sightings (s.write now e)
  have hholds := Store.holds_of_tables _ _ now e (Store.write_holds now e s) hf ht
  rcases recordAll_cases now e.path e.sightings (s.write now e) with
    ⟨⟨name, hn, hu⟩, error, he⟩ | ⟨hall, hr⟩
  · refine Or.inl ⟨⟨name, hn, (unreadable_write now e s name).mp hu⟩, .store error, _, ?_, hholds⟩
    exact Prod.ext he rfl
  · refine Or.inr ⟨fun name hn hu => ?_, _, Prod.ext hr rfl, hholds⟩
    exact hall name hn ((unreadable_write now e s name).mpr hu)

namespace Indexer

/-- Computing an entry anew fails when it breaks, and otherwise answers the entry; its rows are there in
any case. -/
theorem refresh_cases (x : Indexer) (now key : String) (language : Language) (t : Text) (s : Store)
    (stored : Option String) (hs : s.contentHash key = .ok stored)
    (hne : stored ≠ some (CodeIndex.contentHash t)) :
    (s.Breaks (x.entryOf key language t) ∧ ∃ error s',
        x.refresh now key language t s = (.error error, s') ∧
          s'.Holds now (x.entryOf key language t)) ∨
      (¬s.Breaks (x.entryOf key language t) ∧ ∃ s',
        x.refresh now key language t s =
          (.ok ⟨(x.entryOf key language t).recordAt now, false⟩, s') ∧
          s'.Holds now (x.entryOf key language t)) := by
  have hpath : (x.entryOf key language t).path = key := rfl
  have hfinite := x.entryOf_isFinite key language t
  have hp := persist_cases now (x.entryOf key language t) (x.entryOf_hasStrengths key language t) s stored
    hs hne
  simp only [refresh, Store.Breaks]
  generalize x.entryOf key language t = e at hpath hfinite hp ⊢
  subst hpath
  rcases hp with ⟨hu, error, s', hw, hholds⟩ | ⟨hall, s', hw, hholds⟩
  · exact Or.inl ⟨Or.inl hu, error, s', by simp only [hw], hholds⟩
  · by_cases hm : e.embedding.modelType = .model ""
    · have hg := Store.get_unnamed s' now e hholds hm
      exact Or.inl ⟨Or.inr hm, .store e.unnamedModel, s', by simp only [hw, hg], hholds⟩
    · have hg := Store.get_holds s' now e hholds hm hfinite
      refine Or.inr ⟨?_, s', by simp only [hw, hg], hholds⟩
      rintro (⟨name, hn, hu⟩ | hb)
      · exact hall name hn hu
      · exact hm hb

theorem contentHash_holds (s : Store) (now : String) (e : FileEntry) (h : s.Holds now e) :
    s.contentHash e.path = .ok (some e.contentHash) := by
  simp only [Store.contentHash, h.file]
  rfl

/-- A failed analysis that changed the store computed an entry that breaks, and its rows are there. -/
theorem broken_of_analyze (x : Indexer) (now : String) (p : Path) (t : Text) (s s' : Store)
    (error : IndexError) (h : x.analyze now p t s = (.error error, s')) (hne : s' ≠ s) :
    ∃ language stored, Language.ofPath? p = some language ∧ s.contentHash (x.keyOf p) = .ok stored ∧
      stored ≠ some (CodeIndex.contentHash t) ∧ s.Breaks (x.entryOf (x.keyOf p) language t) ∧
      s'.Holds now (x.entryOf (x.keyOf p) language t) := by
  rcases x.analyze_cases now p t s with hsame | ⟨language, stored, hl, hs, hc, ha⟩
  · rw [h] at hsame
    exact absurd hsame hne
  · rw [ha] at h
    refine ⟨language, stored, hl, hs, hc, ?_⟩
    rcases x.refresh_cases now (x.keyOf p) language t s stored hs hc with
      ⟨hb, e, r, hr, hholds⟩ | ⟨-, r, hr, -⟩
    · have hs' : r = s' := congrArg Prod.snd (hr.symm.trans h)
      exact ⟨hb, hs' ▸ hholds⟩
    · have hres := congrArg Prod.fst (hr.symm.trans h)
      cases hres

theorem analyze_of_breaks (x : Indexer) (now : String) (p : Path) (t : Text) (s : Store)
    (language : Language) (hl : Language.ofPath? p = some language) (stored : Option String)
    (hs : s.contentHash (x.keyOf p) = .ok stored)
    (hne : stored ≠ some (CodeIndex.contentHash t))
    (hb : s.Breaks (x.entryOf (x.keyOf p) language t)) :
    ∃ error s', x.analyze now p t s = (.error error, s') ∧ s' ≠ s := by
  rw [x.analyze_of_miss now p t s language hl stored hs hne]
  rcases x.refresh_cases now (x.keyOf p) language t s stored hs hne with
    ⟨-, error, s', hr, hholds⟩ | ⟨hn, -⟩
  · refine ⟨error, s', hr, fun he => hne ?_⟩
    have hh := contentHash_holds s' now _ hholds
    rw [he, show (x.entryOf (x.keyOf p) language t).path = x.keyOf p from rfl, hs] at hh
    exact Except.ok.inj hh
  · exact absurd hb hn

/-- An analysis fails and leaves something behind exactly when it computes an entry anew that breaks; the
next call for the same text then takes the file for stored and writes nothing, even on a store whose
other tables were repaired. -/
theorem analyze_leaves_rows_iff (x : Indexer) (now : String) (p : Path) (t : Text) (s : Store) :
    ((∃ error s', x.analyze now p t s = (.error error, s') ∧ s' ≠ s) ↔
      ∃ language stored, Language.ofPath? p = some language ∧
        s.contentHash (x.keyOf p) = .ok stored ∧ stored ≠ some (CodeIndex.contentHash t) ∧
        ((∃ name ∈ (x.entryOf (x.keyOf p) language t).sightings, s.Unreadable name) ∨
          (x.embedText t).modelType = .model "")) ∧
    ∀ error s', x.analyze now p t s = (.error error, s') → s' ≠ s →
      ∀ later repaired, repaired.files = s'.files → (x.analyze later p t repaired).2 = repaired := by
  refine ⟨⟨?_, ?_⟩, ?_⟩
  · rintro ⟨error, s', h, hne⟩
    obtain ⟨language, stored, hl, hs, hc, hb, -⟩ := x.broken_of_analyze now p t s s' error h hne
    exact ⟨language, stored, hl, hs, hc, hb⟩
  · rintro ⟨language, stored, hl, hs, hc, hb⟩
    exact x.analyze_of_breaks now p t s language hl stored hs hc hb
  · intro error s' h hne later repaired hf
    obtain ⟨language, stored, hl, -, -, -, hholds⟩ := x.broken_of_analyze now p t s s' error h hne
    have hh : repaired.contentHash (x.keyOf p) = .ok (some (CodeIndex.contentHash t)) :=
      (contentHash_of_files repaired s' _ hf).trans (contentHash_holds s' now _ hholds)
    exact x.analyze_store_of_hit later p t repaired language hl hh

/-- A store with one name that cannot be counted. -/
def damagedStore : Store :=
  { patterns :=
      [{ patternType := .plain "design-pattern"
         content := .plain "singleton"
         files := .plain "oops"
         frequency := .integer 1
         createdAt := .plain "t0" }] }

theorem entryOf_patterns (x : Indexer) (key : String) (language : Language) (t : Text) :
    (x.entryOf key language t).metadata.patterns = patternTags t := by
  simp only [entryOf]
  cases Registry.standard.extract language t <;> rfl

theorem damagedStore_unreadable : damagedStore.Unreadable ("design-pattern", "singleton") := by
  refine ⟨_, .unreadable "pattern file paths" none, rfl, ?_⟩
  rfl

theorem analyze_not_atomic :
    ¬∀ (x : Indexer) (now : String) (p : Path) (t : Text) (s s' : Store) (error : IndexError),
      x.analyze now p t s = (.error error, s') → s' = s := by
  intro h
  have hmem : ("design-pattern", "singleton") ∈
      (plain.entryOf (plain.keyOf (.ofString "a.go")) .go "getInstance".toList).sightings := by
    refine List.mem_append_left _ (List.mem_map.mpr ⟨"singleton", ?_, rfl⟩)
    rw [entryOf_patterns]
    decide
  obtain ⟨error, s', ha, hne⟩ := plain.analyze_of_breaks "t1" (.ofString "a.go")
    "getInstance".toList damagedStore .go (by decide) none rfl (by simp)
    (Or.inl ⟨_, hmem, damagedStore_unreadable⟩)
  exact hne (h _ _ _ _ _ _ _ ha)

end Indexer

end CodeIndex
