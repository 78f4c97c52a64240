import CodeIndex.Proofs.Store.Tally
import Mathlib.Data.List.Forall2
import Mathlib.Data.List.Perm.Subperm

/-!
# Recorded names

Behind a run from the empty store, each name that the run recorded has one row, and there are no other
rows of names. The row holds the number of the calls that recorded the name, and their paths without
repetitions, in the order in which they came up. The order of the calls shows in the order of rows and
paths only, and calls that record nothing leave the rows alone.
-/

namespace CodeIndex

/-! ### What calls record -/

/-- The names that calls record, each with the path of its call. -/
def recorded (calls : List StoreCall) : List (TypedName × String) :=
  calls.flatMap fun
    | .recordPattern _ patternType content path => [((patternType, content), path)]
    | _ => []

/-- The paths that a name was recorded with. -/
def pathsOf (list : List (TypedName × String)) (name : TypedName) : List String :=
  (list.filter (·.1 == name)).map (·.2)

theorem recorded_eq (calls : List StoreCall) :
    recorded calls = (Store.sightingsOf calls).map fun g => (g.name, g.path) := by
  induction calls with
  | nil => rfl
  | cons c rest ih =>
    cases c with
    | upsert now e => exact ih
    | remove path => exact ih
    | recordPattern now patternType content path => exact congrArg (List.cons _) ih

theorem pathsOf_sightings (list : List Sighting) (name : TypedName) :
    pathsOf (list.map fun g => (g.name, g.path)) name = (list.filter (·.name == name)).map (·.path) := by
  rw [pathsOf, List.filter_map, List.map_map]
  rfl

theorem pathsOf_ne_nil (list : List (TypedName × String)) (name : TypedName) :
    pathsOf list name ≠ [] ↔ name ∈ list.map (·.1) := by
  rw [pathsOf, ne_eq, List.map_eq_nil_iff, List.filter_eq_nil_iff, List.mem_map]
  constructor
  · intro h
    by_contra hnone
    exact h fun g hg he => hnone ⟨g, hg, beq_iff_eq.mp he⟩
  · rintro ⟨g, hg, rfl⟩ h
    exact h g hg (beq_self_eq_true g.1)

theorem pathsOf_perm {list other : List (TypedName × String)} (h : list.Perm other)
    (name : TypedName) : (pathsOf list name).Perm (pathsOf other name) :=
  (h.filter _).map _

/-! ### Lists without repetitions -/

theorem eraseDups_length_le {α : Type} [BEq α] [LawfulBEq α] (list : List α) :
    list.eraseDups.length ≤ list.length :=
  (List.subperm_of_subset (nodup_eraseDups list) fun _ ha => List.mem_eraseDups.mp ha).length_le

theorem eraseDups_length_pos {α : Type} [BEq α] [LawfulBEq α] (list : List α) (h : list ≠ []) :
    0 < list.eraseDups.length := by
  obtain ⟨a, ha⟩ := List.exists_mem_of_ne_nil list h
  exact List.length_pos_of_mem (List.mem_eraseDups.mpr ha)

theorem eraseDups_perm {α : Type} [BEq α] [LawfulBEq α] {list other : List α} (h : list.Perm other) :
    list.eraseDups.Perm other.eraseDups :=
  (List.perm_ext_iff_of_nodup (nodup_eraseDups list) (nodup_eraseDups other)).mpr fun a => by
    rw [List.mem_eraseDups, List.mem_eraseDups, h.mem_iff]

/-! ### Rows that count -/

/-- A row that counts the recordings of a name with some paths. A count of 2^63 or more does not fit into
the column of whole numbers and is kept as it comes out. -/
structure PatternRow.Counts (r : PatternRow) (name : TypedName) (paths : List String) : Prop where
  patternType : r.patternType = .plain name.1
  content : r.content = .plain name.2
  files : r.files = .document (.strings paths.eraseDups)
  frequency : r.frequency =
    if paths.length < bound63 then .integer paths.length else .counted paths.length

/-- Whether two rows differ in the order of their files and in their times only. -/
def PatternRow.SameCount (a b : PatternRow) : Prop :=
  a.patternType = b.patternType ∧ a.content = b.content ∧ a.frequency = b.frequency ∧
    ∃ files others, a.files = .document (.strings files) ∧ b.files = .document (.strings others) ∧
      files.Perm others

namespace Store

theorem rowOf_counts (list : List Sighting) (name : TypedName) :
    (rowOf list name).Counts name (pathsOf (list.map fun g => (g.name, g.path)) name) := by
  have hpaths := pathsOf_sightings list name
  have hlength : (list.filter (·.name == name)).length =
      (pathsOf (list.map fun g => (g.name, g.path)) name).length := by rw [hpaths, List.length_map]
  refine ⟨rfl, rfl, ?_, ?_⟩
  · rw [hpaths]
    rfl
  · rw [← hlength, ← Cell.counted_eq]
    rfl

/-- Whether the rows of names count what was recorded: one row for each recorded name, and no other. -/
structure CountsRecorded (s : Store) (list : List (TypedName × String)) : Prop where
  one : ∀ name ∈ list.map (·.1), ∃ r, s.patterns.filter (isPattern name.1 name.2) = [r] ∧
    r.Counts name (pathsOf list name)
  only : ∀ r ∈ s.patterns, ∃ name ∈ list.map (·.1), r.Counts name (pathsOf list name)
  files : ∀ name ∈ list.map (·.1), 1 ≤ (pathsOf list name).eraseDups.length ∧
    (pathsOf list name).eraseDups.length ≤ (pathsOf list name).length

theorem tallied_countsRecorded (s : Store) (list : List Sighting) (h : s.patterns = tallied list) :
    s.CountsRecorded (list.map fun g => (g.name, g.path)) := by
  have hnames : (list.map fun g => (g.name, g.path)).map (·.1) = list.map (·.name) := List.map_map ..
  refine ⟨fun name hn => ?_, fun r hr => ?_, fun name hn => ?_⟩
  · rw [hnames] at hn
    exact ⟨rowOf list name, by rw [h, tallied_rows, if_pos hn], rowOf_counts list name⟩
  · rw [h] at hr
    obtain ⟨name, hn, rfl⟩ := List.mem_map.mp hr
    exact ⟨name, hnames ▸ List.mem_eraseDups.mp hn, rowOf_counts list name⟩
  · exact ⟨eraseDups_length_pos _ ((pathsOf_ne_nil _ name).mpr hn), eraseDups_length_le _⟩

/-! ### Other orders of calls -/

/-- Whether two stores count the same names the same number of times, with the same sets of files. -/
def SameCounts (s t : Store) : Prop :=
  ∃ rows, rows.Perm t.patterns ∧ List.Forall₂ PatternRow.SameCount s.patterns rows

theorem Counts.same {a b : PatternRow} {name : TypedName} {paths others : List String}
    (ha : a.Counts name paths) (hb : b.Counts name others) (h : paths.Perm others) :
    a.SameCount b :=
  ⟨ha.patternType.trans hb.patternType.symm, ha.content.trans hb.content.symm, by
    rw [ha.frequency, hb.frequency, h.length_eq], _, _, ha.files, hb.files, eraseDups_perm h⟩

theorem tallied_sameCounts (s t : Store) (list other : List Sighting) (hs : s.patterns = tallied list)
    (ht : t.patterns = tallied other)
    (h : (list.map fun g => (g.name, g.path)).Perm (other.map fun g => (g.name, g.path))) :
    s.SameCounts t := by
  have hnames := h.map (·.1)
  rw [List.map_map, List.map_map] at hnames
  -- the rows of the other tally, in the order of this one
  refine ⟨(list.map (·.name)).eraseDups.map (rowOf other), ?_, ?_⟩
  · rw [ht]
    exact (eraseDups_perm hnames).map _
  · rw [hs, tallied, List.forall₂_map_left_iff, List.forall₂_map_right_iff, List.forall₂_same]
    exact fun name _ =>
      Counts.same (rowOf_counts list name) (rowOf_counts other name) (pathsOf_perm h name)

/-! ### Runs -/

theorem run_recorded (calls : List StoreCall) :
    ∃ history s, Store.empty.run calls = (history, s) ∧ s.patterns = tallied (sightingsOf calls) :=
  ⟨_, _, rfl, run_tallied [] calls _ .empty _ rfl rfl⟩

/-- In every run from the empty store all calls succeed but upserts of edges without a strength, and the rows
of names count what was recorded. A call that records nothing leaves the rows alone, and a run that records
the same in another order counts the same. -/
theorem run_counts_recorded (calls : List StoreCall) :
    ∃ history s, Store.empty.run calls = (history, s) ∧
      (∀ event ∈ history, event.call.HasStrengths → event.Succeeded) ∧ s.CountsRecorded (recorded calls) ∧
      (∀ c answer t, recorded [c] = [] → s.perform c = (answer, t) → t.patterns = s.patterns) ∧
      ∀ other, (recorded calls).Perm (recorded other) →
        ∃ history' t, Store.empty.run other = (history', t) ∧ s.SameCounts t := by
  obtain ⟨history, s, hr, hs⟩ := run_recorded calls
  refine ⟨history, s, hr, run_succeeds calls .empty s history empty_legible hr, ?_,
    fun c answer t hc hp => ?_, fun other h => ?_⟩
  · rw [recorded_eq]
    exact s.tallied_countsRecorded _ hs
  · rw [recorded_eq, List.map_eq_nil_iff] at hc
    rw [perform_tallied _ c s t answer hs hp, hc, List.append_nil, hs]
  · obtain ⟨history', t, hr', ht⟩ := run_recorded other
    rw [recorded_eq, recorded_eq] at h
    exact ⟨history', t, hr', s.tallied_sameCounts t _ _ hs ht h⟩

/-- Three sightings of a class in two files, and one of a function between them. -/
def cacheCalls : List StoreCall :=
  [.recordPattern "t0" "class" "Cache" "a.py", .recordPattern "t1" "function" "Cache" "a.py",
    .remove "a.py", .recordPattern "t2" "class" "Cache" "b.py",
    .recordPattern "t3" "class" "Cache" "a.py"]

/-- The same sightings, the last one first. -/
def cacheCallsReversed : List StoreCall :=
  cacheCalls.reverse

theorem run_counts_recorded_reversed :
    (recorded cacheCalls).Perm (recorded cacheCallsReversed) ∧
      ∃ history s history' t, Store.empty.run cacheCalls = (history, s) ∧
        (∀ event ∈ history, event.call.HasStrengths → event.Succeeded) ∧
        Store.empty.run cacheCallsReversed = (history', t) ∧
        s.CountsRecorded (recorded cacheCalls) ∧ s.SameCounts t ∧
        s.patterns.map (·.frequency) = [.integer 3, .integer 1] := by
  have hperm : (recorded cacheCalls).Perm (recorded cacheCallsReversed) := by decide
  obtain ⟨history, s, hr, hsucceeds, hcounts, -, hother⟩ := run_counts_recorded cacheCalls
  obtain ⟨history', t, hr', hsame⟩ := hother cacheCallsReversed hperm
  refine ⟨hperm, history, s, history', t, hr, hsucceeds, hr', hcounts, hsame, ?_⟩
  have hrows : (Store.empty.run cacheCalls).2.patterns.map (·.frequency) =
      [.integer 3, .integer 1] := rfl
  rwa [hr] at hrows

end Store

end CodeIndex
