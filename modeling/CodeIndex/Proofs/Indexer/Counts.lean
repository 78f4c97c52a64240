import CodeIndex.Proofs.Indexer.Failure
import CodeIndex.Proofs.Indexer.Trace

/-!
# Counts of names

How often a name was counted is how often it occurs in the entries that were written: among the functions
and methods, among the classes, or once for a tag. What is not written is not counted, and nothing is ever
counted down.
-/

namespace CodeIndex

/-! ### Occurrences in an entry -/

/-- How often an entry holds a name of a type. -/
def FileEntry.occurrences (e : FileEntry) (patternType content : String) : Nat :=
  let among (names : FileAnalysis → List String) : Nat := ((e.analysis.map names).getD []).count content
  if patternType = "function" then
    among fun a => a.description.functionNames ++ a.description.methods.map (·.name)
  else if patternType = "class" then among fun a => a.description.classes.map (·.name)
  else if patternType = "design-pattern" ∧ content ∈ e.metadata.patterns then 1
  else 0

theorem count_typed (kind patternType content : String) (names : List String) :
    (names.map (kind, ·)).count (patternType, content) =
      if kind = patternType then names.count content else 0 := by
  induction names with
  | nil => simp
  | cons name rest ih =>
    rw [List.map_cons, List.count_cons, List.count_cons, ih]
    by_cases hk : kind = patternType
    · by_cases hn : name = content <;> simp [hk, hn]
    · simp [hk]

theorem count_sightings (e : FileEntry) (h : e.metadata.patterns.Nodup) (patternType content : String) :
    e.sightings.count (patternType, content) = e.occurrences patternType content := by
  have htags : (e.metadata.patterns.map ("design-pattern", ·)).count (patternType, content) =
      if "design-pattern" = patternType then if content ∈ e.metadata.patterns then 1 else 0 else 0 := by
    rw [count_typed, h.count]
  have hclasses : ∀ a : FileAnalysis, a.description.classes.map (fun c => ("class", c.name)) =
      (a.description.classes.map (·.name)).map ("class", ·) := fun a => (List.map_map ..).symm
  unfold FileEntry.sightings FileEntry.occurrences
  rw [List.count_append, htags]
  cases e.analysis with
  | none =>
    by_cases hd : patternType = "design-pattern"
    · subst hd
      simp
    · simp [hd, Ne.symm hd]
  | some a =>
    simp only [List.count_append, hclasses, count_typed]
    by_cases hf : patternType = "function"
    · subst hf
      simp
    · by_cases hc : patternType = "class"
      · subst hc
        simp
      · by_cases hd : patternType = "design-pattern"
        · subst hd
          simp
        · simp [hf, hc, hd, Ne.symm hf, Ne.symm hc, Ne.symm hd]

/-! ### Occurrences in written entries -/

/-- How often entries hold a name of a type. -/
def occurrencesIn (written : List Stamped) (patternType content : String) : Nat :=
  total (written.map (·.entry.occurrences patternType content))

/-- The entries that hold a name of a type. -/
def holdersIn (written : List Stamped) (patternType content : String) : List Stamped :=
  written.filter (0 < ·.entry.occurrences patternType content)

theorem sightings_filter (w : Stamped) (name : TypedName) :
    w.sightings.filter (·.name == name) =
      List.replicate (w.entry.sightings.count name) ⟨w.now, w.path, name⟩ := by
  have hnames : w.entry.sightings.filter ((fun g : Sighting => g.name == name) ∘
      fun other => ⟨w.now, w.path, other⟩) = List.replicate (w.entry.sightings.count name) name :=
    List.filter_beq name
  rw [Stamped.sightings, List.filter_map, hnames, List.map_replicate]

/-- The rows of a name in the tally of entries with different tags. -/
theorem tallied_sightings (written : List Stamped)
    (h : ∀ w ∈ written, w.entry.metadata.patterns.Nodup) (patternType content : String) :
    (tallied (written.flatMap Stamped.sightings)).filter (Store.isPattern patternType content) =
      (holdersIn written patternType content).head?.toList.map fun first =>
        { patternType := .plain patternType
          content := .plain content
          files := .document (.strings ((holdersIn written patternType content).map (·.path)).eraseDups)
          frequency := .counted (occurrencesIn written patternType content)
          createdAt := .plain first.now } := by
  have hown : (written.flatMap Stamped.sightings).filter (·.name == (patternType, content)) =
      written.flatMap fun w => List.replicate (w.entry.occurrences patternType content)
        ⟨w.now, w.path, (patternType, content)⟩ := by
    rw [List.filter_flatMap]
    apply List.flatMap_congr
    intro w hw
    rw [sightings_filter, count_sightings w.entry (h w hw)]
  have hpaths := eraseDups_flatMap_replicate written
    (fun w => w.entry.occurrences patternType content) (·.path)
  have hhead := head_flatMap_replicate written (fun w => w.entry.occurrences patternType content)
    fun w => (⟨w.now, w.path, (patternType, content)⟩ : Sighting)
  rw [Store.tallied_filter _ (patternType, content)]
  simp only [rowOf, hown, hhead, List.map_flatMap, List.map_replicate, hpaths, length_flatMap_replicate]
  change List.map _ ((holdersIn written patternType content).head?.map _).toList = _
  cases (holdersIn written patternType content).head? with
  | none => rfl
  | some first => rfl

/-! ### Runs -/

theorem patternTags_nodup (t : Text) : (patternTags t).Nodup := by
  have hone : ∀ (b : Bool) (tag : String), (if b then [tag] else []).Sublist [tag] := by
    intro b tag
    cases b
    · exact List.nil_sublist _
    · exact List.Sublist.refl _
  have hall : (patternTags t).Sublist ["inheritance", "async", "event-driven", "factory", "singleton"] :=
    ((((hone _ _).append (hone _ _)).append (hone _ _)).append (hone _ _)).append (hone _ _)
  exact hall.nodup (by decide)

theorem computes_tags (x : Indexer) (read : Text → Prop) (e : FileEntry) (h : x.Computes read e) :
    e.metadata.patterns.Nodup := by
  obtain ⟨p, language, t, -, -, rfl⟩ := h
  rw [Indexer.entryOf_patterns]
  exact patternTags_nodup t

namespace Indexer

/-- The calls of the store in a run succeed and tell which entries were written. Each name has one row if any of these
entries holds it: with the number of its occurrences in them, and with the paths of those that hold it in
the order of their writing. A call that writes no entry leaves these rows alone. -/
theorem run_counts (x : Indexer) (calls : List IndexerCall) :
    ∃ history, Store.empty.run (x.trace calls .empty) = (history, x.run calls .empty) ∧
      (∀ event ∈ history, event.Succeeded) ∧
      (∀ patternType content,
        (x.run calls .empty).patterns.filter (Store.isPattern patternType content) =
          (holdersIn (writtenIn history) patternType content).head?.toList.map fun first =>
            { patternType := .plain patternType
              content := .plain content
              files := .document (.strings
                ((holdersIn (writtenIn history) patternType content).map (·.path)).eraseDups)
              frequency :=
                let n := occurrencesIn (writtenIn history) patternType content
                if n < bound63 then .integer n else .counted n
              createdAt := .plain first.now }) ∧
      ∀ c, ∃ later,
        (x.run calls .empty).run (x.callsOf (x.run calls .empty) c) =
            (later, x.perform (x.run calls .empty) c) ∧
          (∀ event ∈ later, event.Succeeded) ∧
          (writtenIn later = [] →
            (x.perform (x.run calls .empty) c).patterns = (x.run calls .empty).patterns) := by
  obtain ⟨history, hr, hok, hs, hw⟩ := x.trace_replays calls .empty Store.empty_legible
  have htally := Store.run_tallied [] (x.trace calls .empty) history .empty _ rfl hr
  rw [hs, List.nil_append] at htally
  refine ⟨history, hr, hok, fun patternType content => ?_, fun c => ?_⟩
  · have htags := fun w hm => computes_tags x _ w.entry (hw w hm)
    rw [htally, tallied_sightings _ htags patternType content]
    simp only [← Cell.counted_eq]
  · have hlegible := (x.trace_replays calls .empty Store.empty_legible).legible Store.empty_legible
    obtain ⟨later, hr', hok', hs', -⟩ := x.perform_replays _ hlegible c
    refine ⟨later, hr', hok', fun hnone => ?_⟩
    have hafter := Store.run_tallied _ _ later _ _ htally hr'
    rw [hs', hnone, List.flatMap_nil, List.append_nil] at hafter
    rw [hafter, htally]

/-- Two analyses of a file with a change of it between them, and one of the stored file. -/
def again : List IndexerCall :=
  [.analyze "t0" (.ofString "a.py") "def f(): pass".toList, .event ⟨.changed, .ofString "a.py"⟩,
    .analyze "t1" (.ofString "a.py") "def f(): pass".toList,
    .analyze "t2" (.ofString "a.py") "def f(): pass".toList]

theorem run_counts_again :
    (plain.run again .empty).patterns.filter (Store.isPattern "function" "f") =
      [{ patternType := .plain "function"
         content := .plain "f"
         files := .document (.strings ["a.py"])
         frequency := .integer 2
         createdAt := .plain "t0" }] := by
  obtain ⟨history, hr, -, hrows, -⟩ := plain.run_counts again
  have hhistory : history = (Store.empty.run (plain.trace again .empty)).1 := by rw [hr]
  -- what the analyses read back is not computed, as it changes no store
  simp only [again, trace, perform, analyze_store] at hhistory
  have htotal : occurrencesIn (writtenIn history) "function" "f" = 2 := by
    rw [hhistory]
    decide +kernel
  have hholders : (holdersIn (writtenIn history) "function" "f").map (fun w => (w.now, w.path)) =
      [("t0", "a.py"), ("t1", "a.py")] := by
    rw [hhistory]
    decide +kernel
  have hpaths : (holdersIn (writtenIn history) "function" "f").map (·.path) = ["a.py", "a.py"] := by
    have hsnd := congrArg (List.map Prod.snd) hholders
    rwa [List.map_map] at hsnd
  obtain ⟨first, rest, hheld, hfirst, -⟩ := List.map_eq_cons_iff.mp hholders
  have hnow : first.now = "t0" := congrArg Prod.fst hfirst
  rw [hrows, hpaths, htotal, hheld]
  simp only [List.head?_cons, Option.toList_some, List.map_cons, List.map_nil, hnow]
  rfl

end Indexer

end CodeIndex
