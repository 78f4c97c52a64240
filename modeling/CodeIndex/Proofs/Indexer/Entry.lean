import CodeIndex.Indexer.Basic
import CodeIndex.Proofs.Path.Relative
import CodeIndex.Proofs.Store.Entries

/-!
# Computed entries

The entry of a text under a key depends on nothing but the text, the language and the key, and paths with
one key are in one language. Its edges start at the key, and all reals in it are finite.
-/

namespace CodeIndex

open CodeIndex.Path

/-! ### Keys -/

theorem ofPath_of_fileName (p q : Path) (h : p.fileName? = q.fileName?) :
    Language.ofPath? p = Language.ofPath? q := by
  simp only [Language.ofPath?, extension?, h]

theorem fileName_of_ofPath (p : Path) (language : Language) (h : Language.ofPath? p = some language) :
    p.fileName?.isSome := by
  cases hn : p.fileName? with
  | none =>
    simp only [Language.ofPath?, extension?, hn] at h
    cases h
  | some name => rfl

namespace Indexer

/-- The spelling that the key of a path is. -/
def spellingOf (x : Indexer) (p : Path) : Path :=
  (x.settings.workspaceRoot.bind fun root => p.relativeTo? (Path.ofString root)).getD p

theorem spellingOf_of_keyOf (x : Indexer) (p q : Path) (h : x.keyOf p = x.keyOf q) :
    x.spellingOf p = x.spellingOf q := by
  have ht : (x.spellingOf p).text = (x.spellingOf q).text := String.ofList_injective h
  cases hp : x.spellingOf p
  cases hq : x.spellingOf q
  rw [hp, hq] at ht
  exact congrArg Path.mk ht

theorem spellingOf_cases (x : Indexer) (p : Path) :
    (∃ root, x.settings.workspaceRoot = some root ∧ namedPieces p.text =
        namedPieces (Path.ofString root).text ++ namedPieces (x.spellingOf p).text) ∨
      x.spellingOf p = p := by
  cases hr : x.settings.workspaceRoot with
  | none => exact Or.inr (by simp only [spellingOf, hr, Option.bind_none, Option.getD_none])
  | some root =>
    cases hp : p.relativeTo? (Path.ofString root) with
    | none => exact Or.inr (by simp only [spellingOf, hr, Option.bind_some, hp, Option.getD_none])
    | some r =>
      refine Or.inl ⟨root, rfl, ?_⟩
      simp only [spellingOf, hr, Option.bind_some, hp, Option.getD_some]
      exact relativeTo_pieces p _ r hp

/-- Paths with one key have one file name, if they have any. -/
theorem fileName_of_keyOf (x : Indexer) (p q : Path) (h : x.keyOf p = x.keyOf q)
    (hp : p.fileName?.isSome) (hq : q.fileName?.isSome) : p.fileName? = q.fileName? := by
  have hs := x.spellingOf_of_keyOf p q h
  rcases x.spellingOf_cases p with ⟨root, hr, hpp⟩ | hpp
  · rcases x.spellingOf_cases q with ⟨root', hr', hqq⟩ | hqq
    · have hroot : root = root' := Option.some.inj (hr.symm.trans hr')
      rw [fileName_eq, fileName_eq, hpp, hqq, hroot, hs]
    · rw [hs, hqq] at hpp
      exact fileName_of_pieces p q _ _ hpp rfl hq
  · rcases x.spellingOf_cases q with ⟨root', -, hqq⟩ | hqq
    · rw [← hs, hpp] at hqq
      exact (fileName_of_pieces q p _ _ hqq rfl hp).symm
    · rw [← hpp, hs, hqq]

theorem entryOf_ownsEdges (x : Indexer) (key : String) (language : Language) (t : Text) :
    (x.entryOf key language t).OwnsEdges := by
  intro a ha r hr
  obtain ⟨d, -, rfl⟩ := Option.map_eq_some_iff.mp ha
  exact (relationsOf_declared key d r hr).source

theorem entryOf_isFinite (x : Indexer) (key : String) (language : Language) (t : Text) :
    (x.entryOf key language t).IsFinite := by
  constructor
  · simp only [entryOf]
    cases Registry.standard.extract language t with
    | error e => rfl
    | ok d =>
      have ha := FileAnalysis.of_isFinite key t d
      exact (Bool.and_eq_true ..).mpr ⟨ha.patterns, ha.metrics⟩
  · intro a ha
    obtain ⟨d, -, rfl⟩ := Option.map_eq_some_iff.mp ha
    exact FileAnalysis.of_isFinite key t d

theorem entryOf_hasStrengths (x : Indexer) (key : String) (language : Language) (t : Text) :
    (x.entryOf key language t).hasStrengths = true :=
  FileEntry.hasStrengths_of_isFinite _ (x.entryOf_isFinite key language t)

/-- Whether an entry is computed by an indexer from one of some texts, for a path in a known language. -/
def Computes (x : Indexer) (read : Text → Prop) (e : FileEntry) : Prop :=
  ∃ p language t, Language.ofPath? p = some language ∧ read t ∧
    e = x.entryOf (x.keyOf p) language t

theorem computes_ownsEdges (x : Indexer) (read : Text → Prop) (e : FileEntry)
    (h : x.Computes read e) : e.OwnsEdges := by
  obtain ⟨p, language, t, -, -, rfl⟩ := h
  exact x.entryOf_ownsEdges _ language t

theorem computes_isFinite (x : Indexer) (read : Text → Prop) (e : FileEntry)
    (h : x.Computes read e) : e.IsFinite := by
  obtain ⟨p, language, t, -, -, rfl⟩ := h
  exact x.entryOf_isFinite _ language t

end Indexer

end CodeIndex
