import CodeIndex.Proofs.Store.Frame
import CodeIndex.Proofs.Store.Run
import Mathlib.Data.List.Induction

/-!
# Sightings and their tallies

A sighting fails when the first row of its name has unreadable files, and for no other reason. Counting
one name leaves every other name as countable as it was, and makes its own row readable.

The table of sighted names is a tally: a row for each name, in the order in which the names came up, with
the number of its sightings and the files of them. One more sighting of a tally gives the tally with it, so
the table behind a run is the tally of what the run recorded.
-/

namespace CodeIndex

abbrev TypedName := String × String

/-- Whether the first row of a name has files that cannot be read. -/
def unreadableIn (rows : List PatternRow) (name : TypedName) : Prop :=
  ∃ r e, rows.find? (Store.isPattern name.1 name.2) = some r ∧ r.files? = .error e

/-- Whether a store cannot count a sighting of a name. -/
def Store.Unreadable (s : Store) (name : TypedName) : Prop := unreadableIn s.patterns name

namespace Store

theorem unreadable_cons (name : TypedName) (r : PatternRow) (rest : List PatternRow) :
    unreadableIn (r :: rest) name ↔
      if isPattern name.1 name.2 r then ∃ e, r.files? = .error e else unreadableIn rest name := by
  by_cases h : isPattern name.1 name.2 r = true
  · simp [unreadableIn, h]
  · simp only [unreadableIn, List.find?_cons_of_neg h, h, Bool.false_eq_true, ite_false]

theorem unreadable_first (now path : String) (name other : TypedName) :
    ¬unreadableIn [.first now name.1 name.2 path] other := by
  rintro ⟨r, e, hf, he⟩
  obtain ⟨files, hr⟩ := files_legible r
    (List.mem_singleton.mp (List.mem_of_find?_eq_some hf) ▸ PatternRow.first_legible ..)
  rw [hr] at he
  cases he

theorem unreadable_counted (r row : PatternRow) (rest : List PatternRow) (files : List String)
    (hf : r.files? = .ok files) (ht : row.patternType = r.patternType)
    (hc : row.content = r.content) (hl : row.Legible) (other : TypedName) :
    unreadableIn (row :: rest) other ↔ unreadableIn (r :: rest) other := by
  have hsame : isPattern other.1 other.2 row = isPattern other.1 other.2 r := by
    simp only [isPattern, ht, hc]
  rw [unreadable_cons, unreadable_cons, hsame]
  by_cases ho : isPattern other.1 other.2 r = true
  · obtain ⟨held, hr⟩ := files_legible row hl
    simp [ho, hr, hf]
  · simp only [ho, Bool.false_eq_true, ite_false]

/-- Counting fails on an unreadable row only, and leaves every name as readable as it was. -/
theorem countSighting_cases (now path : String) (name : TypedName) (rows : List PatternRow) :
    (unreadableIn rows name ∧ ∃ e, countSighting now name.1 name.2 path rows = .error e) ∨
      (¬unreadableIn rows name ∧
        ∃ counted, countSighting now name.1 name.2 path rows = .ok counted ∧
          ∀ other, unreadableIn counted other ↔ unreadableIn rows other) := by
  induction rows with
  | nil =>
    refine Or.inr ⟨?_, _, rfl, ?_⟩
    · rintro ⟨r, e, hf, -⟩
      cases hf
    · intro other
      refine iff_of_false (unreadable_first now path name other) ?_
      rintro ⟨r, e, hf, -⟩
      cases hf
  | cons r rest ih =>
    rw [unreadable_cons]
    by_cases hp : isPattern name.1 name.2 r = true
    · simp only [countSighting, hp, ite_true]
      cases hf : r.files? with
      | error e =>
        refine Or.inl ⟨⟨e, rfl⟩, e, ?_⟩
        rw [sighted_of_error path r e hf]
        rfl
      | ok files =>
        obtain ⟨row, hs, ht, hc, hl⟩ := sighted_of_files path r files hf
        refine Or.inr ⟨?_, row :: rest, by rw [hs]; rfl,
          unreadable_counted r row rest files hf ht hc hl⟩
        rintro ⟨e, he⟩
        cases he
    · simp only [countSighting, hp, Bool.false_eq_true, ite_false]
      rcases ih with ⟨hu, e, he⟩ | ⟨hu, counted, hc, hkeep⟩
      · exact Or.inl ⟨hu, e, by rw [he]; rfl⟩
      · refine Or.inr ⟨hu, r :: counted, by rw [hc]; rfl, ?_⟩
        intro other
        rw [unreadable_cons, unreadable_cons]
        split
        · exact Iff.rfl
        · exact hkeep other

theorem recordPattern_cases (now path : String) (name : TypedName) (s : Store) :
    (s.Unreadable name ∧ ∃ e, s.recordPattern now name.1 name.2 path = .error e) ∨
      (¬s.Unreadable name ∧ ∃ s', s.recordPattern now name.1 name.2 path = .ok s' ∧
        ∀ other, s'.Unreadable other ↔ s.Unreadable other) := by
  rcases countSighting_cases now path name s.patterns with ⟨hu, e, he⟩ | ⟨hu, counted, hc, hkeep⟩
  · exact Or.inl ⟨hu, e, by simp only [recordPattern, he]; rfl⟩
  · exact Or.inr ⟨hu, { s with patterns := counted }, by simp only [recordPattern, hc]; rfl, hkeep⟩

end Store

/-! ### Lists without repetitions -/

section

variable {α : Type} [BEq α] [LawfulBEq α]

theorem contains_eraseDups (list : List α) (a : α) : list.eraseDups.contains a = list.contains a := by
  rw [Bool.eq_iff_iff, List.contains_iff_mem, List.contains_iff_mem, List.mem_eraseDups]

theorem eraseDups_snoc (list : List α) (a : α) :
    (list ++ [a]).eraseDups = if list.contains a then list.eraseDups else list.eraseDups ++ [a] := by
  rw [List.eraseDups_append]
  by_cases ha : list.contains a = true
  · simp only [List.removeAll, List.filter_cons, List.filter_nil, ha, List.elem_eq_contains,
      Bool.not_true, Bool.false_eq_true, ite_false, ite_true, List.eraseDups_nil, List.append_nil]
  · simp only [List.removeAll, List.filter_cons, List.filter_nil, ha, List.elem_eq_contains,
      Bool.not_false, ite_true, Bool.false_eq_true, ite_false]
    rfl

theorem nodup_eraseDups (list : List α) : list.eraseDups.Nodup := by
  induction list using List.reverseRecOn with
  | nil => exact List.nodup_nil
  | append_singleton list a ih =>
    rw [eraseDups_snoc]
    split
    · exact ih
    · next ha =>
      have hne : a ∉ list.eraseDups := fun hm => ha (List.contains_iff_mem.mpr (List.mem_eraseDups.mp hm))
      exact List.nodup_append.mpr ⟨ih, List.pairwise_singleton _ a, by
        rintro b hb c hc rfl
        exact hne (List.mem_singleton.mp hc ▸ hb)⟩

theorem eraseDups_snoc_congr (list other : List α) (h : list.eraseDups = other.eraseDups) (a : α) :
    (list ++ [a]).eraseDups = (other ++ [a]).eraseDups := by
  rw [eraseDups_snoc, eraseDups_snoc, ← contains_eraseDups, h, contains_eraseDups]

theorem eraseDups_append_replicate (list : List α) (n : Nat) (a : α) :
    (list ++ List.replicate (n + 1) a).eraseDups = (list ++ [a]).eraseDups := by
  induction n with
  | zero => rfl
  | succ n ih =>
    have hmem : (list ++ List.replicate (n + 1) a).contains a = true := by simp
    rw [List.replicate_succ', ← List.append_assoc, eraseDups_snoc, if_pos hmem, ih]

/-- Repetitions of some items make no difference. -/
theorem eraseDups_flatMap_replicate {β : Type} (list : List β) (times : β → Nat) (item : β → α) :
    (list.flatMap fun b => List.replicate (times b) (item b)).eraseDups =
      ((list.filter (0 < times ·)).map item).eraseDups := by
  induction list using List.reverseRecOn with
  | nil => rfl
  | append_singleton list b ih =>
    rw [List.flatMap_append, List.flatMap_singleton, List.filter_append, List.map_append]
    cases ht : times b with
    | zero =>
      have hnone : [b].filter (0 < times ·) = [] := by simp [ht]
      rw [hnone, List.replicate_zero, List.append_nil, List.map_nil, List.append_nil, ih]
    | succ n =>
      have hone : [b].filter (0 < times ·) = [b] := by simp [ht]
      rw [hone, eraseDups_append_replicate, eraseDups_snoc_congr _ _ ih]
      rfl

end

theorem length_flatMap_replicate {α β : Type} (list : List β) (times : β → Nat) (item : β → α) :
    (list.flatMap fun b => List.replicate (times b) (item b)).length = total (list.map times) := by
  induction list with
  | nil => rfl
  | cons b rest ih =>
    rw [List.flatMap_cons, List.length_append, List.length_replicate, ih]
    rfl

theorem head_flatMap_replicate {α β : Type} (list : List β) (times : β → Nat) (item : β → α) :
    (list.flatMap fun b => List.replicate (times b) (item b)).head? =
      (list.filter (0 < times ·)).head?.map item := by
  induction list with
  | nil => rfl
  | cons b rest ih =>
    cases ht : times b with
    | zero => simp [ht, ih]
    | succ n => simp [ht, List.replicate_succ]

/-! ### Rows of a tally -/

/-- A cell that was counted up from 0. -/
def Cell.counted : Nat → Cell
  | 0 => .integer 0
  | n + 1 => (counted n).successor

theorem Cell.counted_of_lt (n : Nat) (h : n < bound63) : Cell.counted n = .integer n := by
  induction n with
  | zero => rfl
  | succ n ih =>
    have hlow : -(bound63 : Int) ≤ n + 1 := by omega
    have hhigh : (n : Int) + 1 < bound63 := by omega
    rw [counted, ih (Nat.lt_of_succ_lt h), successor, ofWhole, if_pos ⟨hlow, hhigh⟩]
    rfl

theorem Cell.counted_eq (n : Nat) :
    Cell.counted n = if n < bound63 then .integer n else .counted n := by
  split
  · next h => exact counted_of_lt n h
  · rfl

/-- A sighting of a name in a file. -/
structure Sighting where
  now : String
  path : String
  name : TypedName

/-- The row of a name after some sightings. -/
def rowOf (list : List Sighting) (name : TypedName) : PatternRow :=
  let own := list.filter (·.name == name)
  { patternType := .plain name.1
    content := .plain name.2
    files := .document (.strings (own.map (·.path)).eraseDups)
    frequency := .counted own.length
    createdAt := .plain ((own.head?.map (·.now)).getD "") }

def tallied (list : List Sighting) : List PatternRow :=
  (list.map (·.name)).eraseDups.map (rowOf list)

namespace Store

theorem isPattern_rowOf (list : List Sighting) (name other : TypedName) :
    isPattern other.1 other.2 (rowOf list name) = (name == other) :=
  rfl

theorem rowOf_other (list : List Sighting) (g : Sighting) (name : TypedName) (h : g.name ≠ name) :
    rowOf (list ++ [g]) name = rowOf list name := by
  have hnone : [g].filter (·.name == name) = [] := by simp [h]
  simp only [rowOf, List.filter_append, hnone, List.append_nil]

theorem rowOf_own (list : List Sighting) (g : Sighting) :
    (list ++ [g]).filter (·.name == g.name) = list.filter (·.name == g.name) ++ [g] := by
  simp [List.filter_append]

theorem rowOf_first (list : List Sighting) (g : Sighting) (h : g.name ∉ list.map (·.name)) :
    rowOf (list ++ [g]) g.name = .first g.now g.name.1 g.name.2 g.path := by
  have hnone : list.filter (·.name == g.name) = [] := by
    rw [List.filter_eq_nil_iff]
    intro f hf he
    exact h (List.mem_map.mpr ⟨f, hf, beq_iff_eq.mp he⟩)
  simp only [rowOf, rowOf_own, hnone]
  rfl

theorem sighted_rowOf (list : List Sighting) (g : Sighting) (h : g.name ∈ list.map (·.name)) :
    sighted g.path (rowOf list g.name) = .ok (rowOf (list ++ [g]) g.name) := by
  obtain ⟨f, hf, hname⟩ := List.mem_map.mp h
  have hown : f ∈ list.filter (·.name == g.name) := List.mem_filter.mpr ⟨hf, beq_iff_eq.mpr hname⟩
  simp only [rowOf, rowOf_own]
  generalize list.filter (·.name == g.name) = own at hown
  have hhead : (own ++ [g]).head? = own.head? := by
    cases own with
    | nil => cases hown
    | cons o rest => rfl
  simp only [sighted, Cell.readWritten_document, bind, Except.bind, decodePaths_strings,
    contains_eraseDups, hhead, List.map_append, List.map_cons, List.map_nil, eraseDups_snoc,
    List.length_append, List.length_cons, List.length_nil]
  rfl

/-- A name has one row in a tally if it was sighted, and none otherwise. -/
theorem tallied_rows (list : List Sighting) (name : TypedName) :
    (tallied list).filter (isPattern name.1 name.2) =
      if name ∈ list.map (·.name) then [rowOf list name] else [] := by
  have hnames : (list.map (·.name)).eraseDups.filter (isPattern name.1 name.2 ∘ rowOf list) =
      List.replicate ((list.map (·.name)).eraseDups.count name) name := List.filter_beq name
  rw [tallied, List.filter_map, hnames, (nodup_eraseDups _).count]
  simp only [List.mem_eraseDups]
  split <;> rfl

/-- The row of a name in a tally holds the time of its first sighting. -/
theorem tallied_filter (list : List Sighting) (name : TypedName) :
    (tallied list).filter (isPattern name.1 name.2) =
      (list.filter (·.name == name)).head?.toList.map fun first =>
        { rowOf list name with createdAt := .plain first.now } := by
  rw [tallied_rows]
  cases hown : list.filter (·.name == name) with
  | nil =>
    have hnone : name ∉ list.map (·.name) := by
      intro hm
      obtain ⟨g, hg, he⟩ := List.mem_map.mp hm
      have hmem : g ∈ list.filter (·.name == name) := List.mem_filter.mpr ⟨hg, beq_iff_eq.mpr he⟩
      rw [hown] at hmem
      cases hmem
    rw [if_neg hnone]
    rfl
  | cons g rest =>
    obtain ⟨hg, he⟩ := List.mem_filter.mp (hown ▸ List.mem_cons_self : g ∈ list.filter (·.name == name))
    rw [if_pos (List.mem_map.mpr ⟨g, hg, beq_iff_eq.mp he⟩)]
    simp only [rowOf, hown]
    rfl

theorem countSighting_rows (list : List Sighting) (g : Sighting) (names : List TypedName)
    (hnames : ∀ name ∈ names, name ∈ list.map (·.name)) (hn : names.Nodup) :
    countSighting g.now g.name.1 g.name.2 g.path (names.map (rowOf list)) =
      .ok (names.map (rowOf (list ++ [g])) ++
        if names.contains g.name then [] else [.first g.now g.name.1 g.name.2 g.path]) := by
  induction names with
  | nil => rfl
  | cons name rest ih =>
    obtain ⟨hname, hrest⟩ := List.nodup_cons.mp hn
    have hr := ih (fun m hm => hnames m (List.mem_cons_of_mem name hm)) hrest
    rw [List.map_cons, countSighting, isPattern_rowOf]
    -- the row of the name is counted up, and no other row sees the sighting
    by_cases he : name = g.name
    · subst he
      have hother : rest.map (rowOf (list ++ [g])) = rest.map (rowOf list) :=
        List.map_congr_left fun m hm => rowOf_other list g m fun h => hname (h ▸ hm)
      simp only [BEq.rfl, ite_true, sighted_rowOf list g (hnames _ List.mem_cons_self), List.map_cons,
        hother, List.contains_cons, Bool.true_or, List.append_nil]
      rfl
    · have hbeq : (name == g.name) = false := beq_false_of_ne he
      have hcontains : (name :: rest).contains g.name = rest.contains g.name := by
        rw [List.contains_cons, BEq.comm, hbeq, Bool.false_or]
      simp only [hbeq, Bool.false_eq_true, ite_false, hr, hcontains, List.map_cons, List.cons_append,
        rowOf_other list g name (Ne.symm he)]
      rfl

/-- One more sighting of a tally. -/
theorem countSighting_tallied (list : List Sighting) (g : Sighting) :
    countSighting g.now g.name.1 g.name.2 g.path (tallied list) = .ok (tallied (list ++ [g])) := by
  have hcount := countSighting_rows list g (list.map (·.name)).eraseDups
    (fun name hm => List.mem_eraseDups.mp hm) (nodup_eraseDups _)
  rw [tallied, hcount, contains_eraseDups, tallied, List.map_append, List.map_cons, List.map_nil, eraseDups_snoc]
  by_cases hg : (list.map (·.name)).contains g.name = true
  · simp only [hg, ite_true, List.append_nil]
  · have hfirst := rowOf_first list g fun hm => hg (List.contains_iff_mem.mpr hm)
    simp only [hg, Bool.false_eq_true, ite_false, List.map_append, List.map_cons, List.map_nil, hfirst]

/-! ### Runs -/

/-- The sightings that calls record. -/
def sightingsOf (calls : List StoreCall) : List Sighting :=
  calls.flatMap fun
    | .recordPattern now patternType content path => [⟨now, path, (patternType, content)⟩]
    | _ => []

theorem sightingsOf_append (calls more : List StoreCall) :
    sightingsOf (calls ++ more) = sightingsOf calls ++ sightingsOf more :=
  List.flatMap_append

theorem write_patterns (now : String) (e : FileEntry) (s : Store) :
    (s.write now e).patterns = s.patterns := by
  rw [write_eq]

theorem upsert_patterns (now : String) (e : FileEntry) (s s' : Store) (outcome : UpsertOutcome)
    (h : s.upsert now e = .ok (outcome, s')) : s'.patterns = s.patterns := by
  cases hs : s.contentHash e.path with
  | error error =>
    simp only [upsert, hs] at h
    cases h
  | ok stored =>
    by_cases hc : stored = some e.contentHash
    · rw [upsert_of_hit now e s (hc ▸ hs)] at h
      cases h
      rfl
    · rw [upsert_of_other now e s stored hs hc, put] at h
      split at h
      · cases h
        exact write_patterns now e s
      · cases h

theorem perform_tallied (list : List Sighting) (c : StoreCall) (s s' : Store) (answer : StoreAnswer)
    (hs : s.patterns = tallied list) (h : s.perform c = (answer, s')) :
    s'.patterns = tallied (list ++ sightingsOf [c]) := by
  cases c with
  | upsert now e =>
    have hkeep : s'.patterns = s.patterns := by
      cases hu : s.upsert now e with
      | error error =>
        simp only [perform, hu] at h
        cases h
        rfl
      | ok r =>
        simp only [perform, hu] at h
        cases h
        exact s.upsert_patterns now e r.2 r.1 hu
    exact (hkeep.trans hs).trans (congrArg tallied (List.append_nil list).symm)
  | remove path =>
    cases h
    exact hs.trans (congrArg tallied (List.append_nil list).symm)
  | recordPattern now patternType content path =>
    simp only [perform, recordPattern, hs,
      countSighting_tallied list ⟨now, path, (patternType, content)⟩] at h
    cases h
    rfl

/-- The table of sighted names behind a run is the tally of what the run recorded. -/
theorem run_tallied (list : List Sighting) (calls : List StoreCall) (history : List StoreEvent)
    (s s' : Store) (hs : s.patterns = tallied list) (h : s.run calls = (history, s')) :
    s'.patterns = tallied (list ++ sightingsOf calls) := by
  induction calls generalizing list s history with
  | nil =>
    cases h
    exact hs.trans (congrArg tallied (List.append_nil list).symm)
  | cons c rest ih =>
    obtain ⟨answer, t, later, hp, hr, -⟩ := run_cons_cases s s' c rest history h
    have hlast := ih _ later t (perform_tallied list c s t answer hs hp) hr
    rwa [List.append_assoc, ← sightingsOf_append] at hlast

end Store

end CodeIndex
