import CodeIndex.Indexer.Basic

/-!
# Single analyses

An analysis of a file in a known language reads what is stored when the stored hash is that of the text,
and computes the entry anew otherwise. Only the second writes, and it writes what persisting the entry
writes, whatever it answers.
-/

namespace CodeIndex.Indexer

/-- An indexer with the default settings of a machine with one processor, and without a model. -/
def plain : Indexer := ⟨.ofProcessors 1, .heuristic⟩

theorem refresh_store (x : Indexer) (now key : String) (language : Language) (t : Text) (s : Store) :
    (x.refresh now key language t s).2 = (persist now (x.entryOf key language t) s).2 := by
  simp only [refresh]
  cases hp : persist now (x.entryOf key language t) s with
  | mk result s' =>
    cases result with
    | error e => rfl
    | ok u =>
      cases hg : s'.get key with
      | error e => simp only [hg]
      | ok found => cases found <;> simp only [hg]

theorem get_of_contentHash (s : Store) (key hash : String)
    (h : s.contentHash key = .ok (some hash)) : s.get key ≠ .ok none := by
  intro hn
  cases hr : s.fileRow? key with
  | none =>
    simp only [Store.contentHash, hr] at h
    cases h
  | some row =>
    simp only [Store.get, hr, bind, Except.bind] at hn
    repeat' split at hn
    all_goals cases hn

theorem analyze_of_miss (x : Indexer) (now : String) (p : Path) (t : Text) (s : Store)
    (language : Language) (hl : Language.ofPath? p = some language) (stored : Option String)
    (hs : s.contentHash (x.keyOf p) = .ok stored)
    (hne : stored ≠ some (CodeIndex.contentHash t)) :
    x.analyze now p t s = x.refresh now (x.keyOf p) language t s := by
  have hm : cached? (x.keyOf p) (CodeIndex.contentHash t) s = .ok none := by
    cases stored with
    | none => simp only [cached?, hs, bind, Except.bind]; rfl
    | some hash =>
      have hne : hash ≠ CodeIndex.contentHash t := fun he => hne (congrArg some he)
      simp only [cached?, hs, bind, Except.bind, hne, ite_false]
      rfl
  simp only [analyze, hl, hm]

theorem analyze_of_hit (x : Indexer) (now : String) (p : Path) (t : Text) (s : Store)
    (language : Language) (hl : Language.ofPath? p = some language)
    (hs : s.contentHash (x.keyOf p) = .ok (some (CodeIndex.contentHash t))) :
    (∃ error, s.get (x.keyOf p) = .error error ∧
        x.analyze now p t s = (.error (.store error), s)) ∨
      ∃ record, s.get (x.keyOf p) = .ok (some record) ∧
        x.analyze now p t s = (.ok ⟨record, true⟩, s) := by
  have hn := get_of_contentHash s _ _ hs
  have hc : cached? (x.keyOf p) (CodeIndex.contentHash t) s = s.get (x.keyOf p) := by
    simp only [cached?, hs, bind, Except.bind, ite_true]
  simp only [analyze, hl, hc]
  cases hg : s.get (x.keyOf p) with
  | error error => exact Or.inl ⟨error, rfl, rfl⟩
  | ok found =>
    cases found with
    | none => exact absurd hg hn
    | some record => exact Or.inr ⟨record, rfl, rfl⟩

theorem analyze_store_of_hit (x : Indexer) (now : String) (p : Path) (t : Text) (s : Store)
    (language : Language) (hl : Language.ofPath? p = some language)
    (hs : s.contentHash (x.keyOf p) = .ok (some (CodeIndex.contentHash t))) :
    (x.analyze now p t s).2 = s := by
  rcases x.analyze_of_hit now p t s language hl hs with ⟨error, -, ha⟩ | ⟨record, -, ha⟩
  · rw [ha]
  · rw [ha]

/-- An analysis leaves the store alone or computes the entry anew. -/
theorem analyze_cases (x : Indexer) (now : String) (p : Path) (t : Text) (s : Store) :
    (x.analyze now p t s).2 = s ∨
      ∃ language stored, Language.ofPath? p = some language ∧
        s.contentHash (x.keyOf p) = .ok stored ∧ stored ≠ some (CodeIndex.contentHash t) ∧
        x.analyze now p t s = x.refresh now (x.keyOf p) language t s := by
  cases hl : Language.ofPath? p with
  | none => exact Or.inl (by simp only [analyze, hl])
  | some language =>
    cases hs : s.contentHash (x.keyOf p) with
    | error e => exact Or.inl (by simp only [analyze, hl, cached?, hs, bind, Except.bind])
    | ok stored =>
      by_cases hc : stored = some (CodeIndex.contentHash t)
      · exact Or.inl (x.analyze_store_of_hit now p t s language hl (hc ▸ hs))
      · exact Or.inr ⟨language, stored, rfl, rfl, hc,
          x.analyze_of_miss now p t s language hl stored hs hc⟩

/-- The store behind an analysis depends on stored hashes only, and not on what is read of other cells. -/
theorem analyze_store (x : Indexer) (now : String) (p : Path) (t : Text) (s : Store) :
    (x.analyze now p t s).2 =
      match Language.ofPath? p, s.contentHash (x.keyOf p) with
      | some language, .ok stored =>
        if stored = some (CodeIndex.contentHash t) then s
        else (persist now (x.entryOf (x.keyOf p) language t) s).2
      | _, _ => s := by
  cases hl : Language.ofPath? p with
  | none => simp only [analyze, hl]
  | some language =>
    cases hs : s.contentHash (x.keyOf p) with
    | error e => simp only [analyze, hl, cached?, hs, bind, Except.bind]
    | ok stored =>
      by_cases hc : stored = some (CodeIndex.contentHash t)
      · simp only [hc, ite_true]
        exact x.analyze_store_of_hit now p t s language hl (hc ▸ hs)
      · simp only [hc, ite_false]
        rw [x.analyze_of_miss now p t s language hl stored hs hc, refresh_store]

end CodeIndex.Indexer
