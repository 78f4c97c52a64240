import CodeIndex.Proofs.Store.Queries
import CodeIndex.Proofs.Store.Recordings
import CodeIndex.Proofs.Text.ByteOrder
import CodeIndex.Proofs.Text.Places
import Mathlib.Data.Set.List

/-!
# Sighted names that a query finds

A query for sighted names answers those of a type that contain a text, the most frequent first and names
of one frequency in the order of their bytes, up to a limit. No name that it leaves out should have come
before one that it answers, and a larger limit goes on behind the same answer.
-/

namespace CodeIndex

/-! ### Names and their records -/

/-- A sighted name as a row holds it. -/
structure CountedName where
  patternType : String
  content : String
  files : List String
  frequency : Nat
  createdAt : String

namespace CountedName

def row (c : CountedName) : PatternRow :=
  ⟨.plain c.patternType, .plain c.content, .document (.strings c.files), .integer c.frequency,
    .plain c.createdAt⟩

def record (c : CountedName) : PatternRecord :=
  ⟨c.patternType, c.content, c.files, c.frequency, stampTime c.createdAt⟩

theorem decode_row (c : CountedName) : (c.row.read >>= PatternCells.decode) = .ok c.record := by
  have hread : c.row.read =
      .ok
        { patternType := c.patternType
          content := c.content
          files := .document (.strings c.files)
          frequency := c.frequency
          createdAt := c.createdAt } := rfl
  simp only [hread, bind, Except.bind, PatternCells.decode, decodePaths_strings]
  rfl

end CountedName

namespace PatternRecord

/-- Whether a record is of a type, if one is given, and its name contains a text. -/
def Matches (patternType : Option String) (needle : String) (r : PatternRecord) : Prop :=
  (∀ t ∈ patternType, r.patternType = t) ∧ needle.toList <:+: r.content.toList

instance (patternType : Option String) (needle : String) (r : PatternRecord) :
    Decidable (r.Matches patternType needle) :=
  inferInstanceAs (Decidable (_ ∧ _))

/-- Whether a record comes before another: it is more frequent, or as frequent and its name is smaller
in the order of bytes. -/
def Precedes (a b : PatternRecord) : Prop :=
  b.frequency < a.frequency ∨
    a.frequency = b.frequency ∧ Text.bytes a.content.toList < Text.bytes b.content.toList

instance (a b : PatternRecord) : Decidable (a.Precedes b) :=
  inferInstanceAs (Decidable (_ ∨ _))

/-- Whether a record may stand before another. -/
def mayPrecede (a b : PatternRecord) : Bool := ¬b.Precedes a

theorem mayPrecede_iff (a b : PatternRecord) :
    a.mayPrecede b = true ↔ b.frequency < a.frequency ∨
      a.frequency = b.frequency ∧ Text.bytes a.content.toList ≤ Text.bytes b.content.toList := by
  rw [mayPrecede, decide_eq_true_iff, Precedes, not_or, not_and, List.not_lt]
  constructor
  · rintro ⟨hle, hname⟩
    rcases Nat.lt_or_eq_of_le (Nat.le_of_not_lt hle) with hlt | heq
    · exact Or.inl hlt
    · exact Or.inr ⟨heq.symm, hname heq⟩
  · rintro (hlt | ⟨heq, hname⟩)
    · exact ⟨by omega, by omega⟩
    · exact ⟨by omega, fun _ => hname⟩

theorem mayPrecede_trans (a b c : PatternRecord) (hab : a.mayPrecede b = true)
    (hbc : b.mayPrecede c = true) : a.mayPrecede c = true := by
  rw [mayPrecede_iff] at *
  rcases hab with hab | ⟨hab, hn⟩ <;> rcases hbc with hbc | ⟨hbc, hm⟩
  · exact Or.inl (by omega)
  · exact Or.inl (by omega)
  · exact Or.inl (by omega)
  · exact Or.inr ⟨hab.trans hbc, List.le_trans hn hm⟩

theorem mayPrecede_total (a b : PatternRecord) : (a.mayPrecede b || b.mayPrecede a) = true := by
  rw [Bool.or_eq_true, mayPrecede_iff, mayPrecede_iff]
  rcases Nat.lt_trichotomy a.frequency b.frequency with h | h | h
  · exact Or.inr (Or.inl h)
  · exact (List.le_total _ _).imp (fun hn => Or.inr ⟨h, hn⟩) fun hn => Or.inr ⟨h.symm, hn⟩
  · exact Or.inl (Or.inl h)

end PatternRecord

/-! ### Rows and their records -/

theorem isFound_row (patternType : Option String) (needle : String) (c : CountedName) :
    Store.isFound patternType needle c.row = decide (c.record.Matches patternType needle) := by
  have hname : (needle.isEmpty || c.row.content.contains needle) = true ↔
      needle.toList <:+: c.content.toList := by
    have hpart : c.row.content.contains needle = Text.hasPart needle.toList c.content.toList := rfl
    rw [Bool.or_eq_true, hpart, hasPart_iff, or_iff_right_iff_imp, String.isEmpty_iff]
    rintro rfl
    exact List.nil_infix
  have htype : patternType.all (c.row.patternType.isText ·) = true ↔
      ∀ t ∈ patternType, c.patternType = t := by
    rw [Option.all_eq_true]
    exact forall₂_congr fun t _ => beq_iff_eq
  rw [Bool.eq_iff_iff, Store.isFound, Bool.and_eq_true, hname, htype, decide_eq_true_iff]
  rfl

theorem frequentFirst_row (a b : CountedName) :
    Store.frequentFirst a.row b.row = a.record.mayPrecede b.record := by
  have hfrequency : a.row.frequency.compare b.row.frequency =
      Ord.compare (a.frequency : Int) b.frequency := rfl
  have hname : (a.row.content.compare b.row.content != .gt) = true ↔
      Text.bytes a.content.toList ≤ Text.bytes b.content.toList := by
    have hcompare : a.row.content.compare b.row.content =
        Text.compare a.content.toList b.content.toList := rfl
    rw [hcompare, bne_iff_ne, ne_eq, compare_eq_gt_iff, List.not_lt]
  rw [Bool.eq_iff_iff, PatternRecord.mayPrecede_iff, Store.frequentFirst, hfrequency]
  have hrecord : ∀ c : CountedName, c.record.frequency = c.frequency ∧ c.record.content = c.content :=
    fun c => ⟨rfl, rfl⟩
  simp only [hrecord]
  split
  · next h =>
    rw [Int.compare_eq_gt] at h
    exact iff_of_true rfl (Or.inl (by omega))
  · next h =>
    rw [Int.compare_eq_lt] at h
    exact iff_of_false (by decide) (by omega)
  · next h =>
    rw [Int.compare_eq_eq] at h
    rw [hname]
    exact ⟨fun hn => Or.inr ⟨by omega, hn⟩, fun hor => hor.elim (by omega) And.right⟩

namespace Store

theorem limited_map {α β : Type} (limit : Nat) (f : α → β) (list : List α) :
    limited limit (list.map f) = (limited limit list).map f := by
  rw [limited, limited]
  split
  · exact List.map_take.symm
  · rfl

theorem limited_eq_take {α : Type} (limit : Nat) (list : List α) (h : list.length < bound63) :
    limited limit list = list.take limit := by
  rw [limited]
  split
  · rfl
  · exact (List.take_of_length_le (by omega)).symm

theorem findPatterns_rows (s : Store) (items : List CountedName) (h : s.patterns = items.map (·.row))
    (patternType : Option String) (needle : String) (limit : Nat) :
    s.findPatterns patternType needle limit = .ok (limited limit
      (((items.map (·.record)).filter (·.Matches patternType needle)).mergeSort
        PatternRecord.mayPrecede)) := by
  have hrows : s.patterns.filter (isFound patternType needle) =
      (items.filter (·.record.Matches patternType needle)).map (·.row) := by
    rw [h, List.filter_map]
    simp only [Function.comp_def, isFound_row]
  have hrecords : (items.map (·.record)).filter (·.Matches patternType needle) =
      (items.filter (·.record.Matches patternType needle)).map (·.record) := List.filter_map
  generalize items.filter (·.record.Matches patternType needle) = found at hrows hrecords
  have hsorted := List.map_mergeSort (r := fun a b => a.record.mayPrecede b.record)
    (s := frequentFirst) (f := CountedName.row) (l := found)
    fun a _ b _ => (frequentFirst_row a b).symm
  have hanswers := List.map_mergeSort (r := fun a b => a.record.mayPrecede b.record)
    (s := PatternRecord.mayPrecede) (f := CountedName.record) (l := found) fun _ _ _ _ => rfl
  rw [findPatterns, hrows, hrecords, ← hsorted, ← hanswers, limited_map, limited_map]
  exact readAll_ok PatternRow.read PatternCells.decode _ CountedName.row _ fun c _ => c.decode_row

/-! ### Reached stores -/

/-- Whether the rows of names and their counts are below 2^63, so that counts are whole numbers. -/
def CountsFit (s : Store) : Prop :=
  s.patterns.length < bound63 ∧ ∀ r ∈ s.patterns, ∃ n : Nat, r.frequency = .integer n

theorem Reached.countedNames {s : Store} (h : s.Reached) (hfit : s.CountsFit) :
    ∃ items : List CountedName, s.patterns = items.map (·.row) := by
  obtain ⟨calls, history, hr⟩ := h
  have hs : s.patterns = tallied (sightingsOf calls) := run_tallied [] calls history .empty s rfl hr
  have hrange : s.patterns ∈ Set.range (List.map CountedName.row) := by
    rw [Set.range_list_map]
    intro r hmem
    obtain ⟨n, hn⟩ := hfit.2 r hmem
    rw [hs] at hmem
    obtain ⟨name, -, rfl⟩ := List.mem_map.mp hmem
    exact ⟨⟨name.1, name.2, _, n, _⟩, by rw [CountedName.row, ← hn]; rfl⟩
  obtain ⟨items, hitems⟩ := hrange
  exact ⟨items, hitems.symm⟩

/-- Counts fit behind fewer than 2^63 recordings. -/
theorem countsFit_of_run (calls : List StoreCall) (history : List StoreEvent) (s : Store)
    (hr : Store.empty.run calls = (history, s)) (h : (sightingsOf calls).length < bound63) :
    s.CountsFit := by
  have hs : s.patterns = tallied (sightingsOf calls) := run_tallied [] calls history .empty s rfl hr
  refine ⟨?_, fun r hmem => ?_⟩
  · rw [hs, tallied, List.length_map]
    exact (eraseDups_length_le _).trans_lt (by rwa [List.length_map])
  · rw [hs] at hmem
    obtain ⟨name, -, rfl⟩ := List.mem_map.mp hmem
    exact ⟨_, Cell.counted_of_lt _ ((List.length_filter_le _ _).trans_lt h)⟩

/-! ### Answers -/

/-- What a query answers, of all records of a store: records that match, as many as there are up to the
limit, in order, such that no matching record that is left out comes before one of them. -/
structure Finds (all : List PatternRecord) (patternType : Option String) (needle : String) (limit : Nat)
    (found : List PatternRecord) : Prop where
  length : found.length = min limit (all.filter (·.Matches patternType needle)).length
  matching : ∀ r ∈ found, r.Matches patternType needle
  ordered : found.Pairwise fun a b => ¬b.Precedes a
  best : ∃ left, (found ++ left).Perm (all.filter (·.Matches patternType needle)) ∧
    ∀ a ∈ found, ∀ b ∈ left, ¬b.Precedes a

theorem finds_take (all : List PatternRecord) (patternType : Option String) (needle : String)
    (limit : Nat) :
    Finds all patternType needle limit
      (((all.filter (·.Matches patternType needle)).mergeSort PatternRecord.mayPrecede).take limit) := by
  generalize hmatching : all.filter (·.Matches patternType needle) = matching
  have hperm := List.mergeSort_perm matching PatternRecord.mayPrecede
  have hsorted := (List.pairwise_mergeSort PatternRecord.mayPrecede_trans
    PatternRecord.mayPrecede_total matching).imp fun h => of_decide_eq_true h
  generalize matching.mergeSort PatternRecord.mayPrecede = sorted at hperm hsorted
  have hsplit := sorted.take_append_drop limit
  have hparts := List.pairwise_append.mp (hsplit.symm ▸ hsorted)
  refine ⟨?_, fun r hr => ?_, hparts.1, sorted.drop limit, ?_, hparts.2.2⟩
  · rw [List.length_take, hperm.length_eq, hmatching]
  · have hmem := hperm.mem_iff.mp (List.mem_of_mem_take hr)
    rw [← hmatching] at hmem
    exact of_decide_eq_true (List.mem_filter.mp hmem).2
  · rw [hsplit, hmatching]
    exact hperm

/-- A query on a reached store succeeds for any limit and answers the records that come first among those
that match. A larger limit goes on behind the same answer. -/
theorem findPatterns_finds (s : Store) (h : s.Reached) (hfit : s.CountsFit) :
    ∃ all, List.Forall₂ (fun row r => (row.read >>= PatternCells.decode) = .ok r) s.patterns all ∧
      ∀ patternType needle limit, ∃ found, s.findPatterns patternType needle limit = .ok found ∧
        Finds all patternType needle limit found ∧
        ∀ more, limit ≤ more → ∃ longer, s.findPatterns patternType needle more = .ok longer ∧
          found <+: longer := by
  obtain ⟨items, hitems⟩ := h.countedNames hfit
  refine ⟨items.map (·.record), ?_, fun patternType needle limit => ?_⟩
  · rw [hitems, List.forall₂_map_left_iff, List.forall₂_map_right_iff, List.forall₂_same]
    exact fun c _ => c.decode_row
  · have hshort : (((items.map (·.record)).filter (·.Matches patternType needle)).mergeSort
        PatternRecord.mayPrecede).length < bound63 := by
      have hrows : items.length < bound63 := by
        have := hfit.1
        rwa [hitems, List.length_map] at this
      rw [List.length_mergeSort]
      exact (List.length_filter_le _ _).trans_lt (by rwa [List.length_map])
    have hanswer : ∀ limit, s.findPatterns patternType needle limit = .ok
        ((((items.map (·.record)).filter (·.Matches patternType needle)).mergeSort
          PatternRecord.mayPrecede).take limit) := fun limit => by
      rw [s.findPatterns_rows items hitems, limited_eq_take _ _ hshort]
    exact ⟨_, hanswer limit, finds_take _ _ _ _, fun more hle =>
      ⟨_, hanswer more, List.take_prefix_take_left hle⟩⟩

/-- Two names with an accent, one of them seen in two files, and one without. -/
def cafeCalls : List StoreCall :=
  [.recordPattern "t0" "class" "Cache" "a.py", .recordPattern "t1" "class" "Café" "a.py",
    .recordPattern "t2" "function" "café" "a.py", .recordPattern "t3" "function" "café" "b.py"]

theorem findPatterns_finds_accented :
    ∃ history s all found longer, Store.empty.run cafeCalls = (history, s) ∧ s.CountsFit ∧
      s.findPatterns none "é" 1 = .ok found ∧ Finds all none "é" 1 found ∧
      s.findPatterns none "é" (bound63 + 1) = .ok longer ∧ Finds all none "é" (bound63 + 1) longer ∧
      found <+: longer ∧ all.map (·.frequency) = [1, 1, 2] := by
  obtain ⟨history, s, hr, hs⟩ := run_recorded cafeCalls
  have hfit := countsFit_of_run cafeCalls history s hr (by decide)
  obtain ⟨all, hall, hfinds⟩ := findPatterns_finds s ⟨cafeCalls, history, hr⟩ hfit
  obtain ⟨found, hfound, hbest, hmore⟩ := hfinds none "é" 1
  obtain ⟨longer, hlonger, hprefix⟩ := hmore (bound63 + 1) (by decide)
  obtain ⟨again, hagain, hlongest, -⟩ := hfinds none "é" (bound63 + 1)
  obtain rfl : again = longer := Except.ok.inj (hagain.symm.trans hlonger)
  refine ⟨history, s, all, found, again, hr, hfit, hfound, hbest, hlonger, hlongest, hprefix, ?_⟩
  have hthree : tallied (sightingsOf cafeCalls) = [_, _, _] := rfl
  rw [hs, hthree] at hall
  obtain _ | ⟨ha, _ | ⟨hb, _ | ⟨hc, ⟨⟩⟩⟩⟩ := hall
  rw [← Except.ok.inj ha, ← Except.ok.inj hb, ← Except.ok.inj hc]
  rfl

end Store

end CodeIndex
