import CodeIndex.Insight.DesignPattern
import CodeIndex.Proofs.Store.Recordings
import CodeIndex.Proofs.Store.Summary

/-!
# Summaries of patterns

A summary has one occurrence for each pattern name of the files. It counts the name over all of them, lists
each file with the name where it is first seen, and is ordered strictly, by falling count and then by name.
The order of the files shows in the lists of files only.

The occurrences counted so far are in the order of their names; the sort by count is stable, so names of one
count stay in that order.
-/

namespace CodeIndex

/-! ### Sightings counted one by one -/

/-- The names of the patterns of some files with their files, in order. -/
def sightingsIn (files : List (String × List String)) : List (String × String) :=
  files.flatMap fun file => file.2.map (·, file.1)

/-- What some sightings say of a name. -/
def occurrenceOf (seen : List (String × String)) (name : String) : PatternOccurrence :=
  let own := seen.filter (·.1 == name)
  ⟨name, own.length, (own.map (·.2)).eraseDups⟩

/-- Whether occurrences are those of the names in some sightings, in the order of the names. -/
structure IsCounted (seen : List (String × String)) (counted : List PatternOccurrence) : Prop where
  ordered : counted.Pairwise fun a b => a.name < b.name
  names : ∀ name, name ∈ counted.map (·.name) ↔ name ∈ seen.map (·.1)
  exact : ∀ o ∈ counted, o = occurrenceOf seen o.name

theorem occurrenceOf_own (seen : List (String × String)) (name path : String) :
    occurrenceOf (seen ++ [(name, path)]) name = (occurrenceOf seen name).seenIn path := by
  simp only [occurrenceOf, PatternOccurrence.seenIn, List.filter_append, List.filter_cons, beq_self_eq_true,
    ite_true, List.filter_nil, List.length_append, List.length_singleton, List.map_append, List.map_cons,
    List.map_nil, eraseDups_snoc, contains_eraseDups]

theorem occurrenceOf_other (seen : List (String × String)) (name other path : String) (h : other ≠ name) :
    occurrenceOf (seen ++ [(name, path)]) other = occurrenceOf seen other := by
  have hnone : [(name, path)].filter (·.1 == other) = [] := by simpa using h.symm
  simp only [occurrenceOf, List.filter_append, hnone, List.append_nil]

theorem occurrenceOf_unseen (seen : List (String × String)) (name : String) (h : name ∉ seen.map (·.1)) :
    occurrenceOf seen name = ⟨name, 0, []⟩ := by
  have hnone : seen.filter (·.1 == name) = [] := by
    rw [List.filter_eq_nil_iff]
    intro s hs hname
    exact h (List.mem_map.mpr ⟨s, hs, beq_iff_eq.mp hname⟩)
  simp [occurrenceOf, hnone]

theorem names_countPattern (path name other : String) (counted : List PatternOccurrence) :
    other ∈ (countPattern path name counted).map (·.name) ↔ other = name ∨ other ∈ counted.map (·.name) := by
  fun_induction countPattern path name counted with
  | case1 => simp [PatternOccurrence.seenIn]
  | case2 o rest hlt => simp [PatternOccurrence.seenIn]
  | case3 o rest hlt heq => simp [PatternOccurrence.seenIn, heq]
  | case4 o rest hlt hne ih =>
    rw [List.map_cons, List.mem_cons, ih, List.map_cons, List.mem_cons]
    tauto

theorem countPattern_ordered (path name : String) (counted : List PatternOccurrence)
    (h : counted.Pairwise fun a b => a.name < b.name) :
    (countPattern path name counted).Pairwise fun a b => a.name < b.name := by
  fun_induction countPattern path name counted with
  | case1 => exact List.pairwise_singleton _ _
  | case2 o rest hlt =>
    refine List.pairwise_cons.mpr ⟨fun a ha => ?_, h⟩
    obtain rfl | ha := List.mem_cons.mp ha
    · exact hlt
    · exact hlt.trans ((List.pairwise_cons.mp h).1 a ha)
  | case3 o rest hlt heq => exact List.pairwise_cons.mpr (List.pairwise_cons.mp h)
  | case4 o rest hlt hne ih =>
    obtain ⟨hfirst, hrest⟩ := List.pairwise_cons.mp h
    refine List.pairwise_cons.mpr ⟨fun a ha => ?_, ih hrest⟩
    obtain hname | hname := (names_countPattern path name a.name rest).mp (List.mem_map_of_mem ha)
    · rw [hname]
      exact lt_of_le_of_ne (not_lt.mp hlt) (Ne.symm hne)
    · obtain ⟨b, hb, hab⟩ := List.mem_map.mp hname
      rw [← hab]
      exact hfirst b hb

/-- What counting a sighting makes of the occurrences: the other names keep theirs, and the name gets one more
sighting, or its first one. -/
theorem mem_countPattern (path name : String) (counted : List PatternOccurrence)
    (h : counted.Pairwise fun a b => a.name < b.name) (o : PatternOccurrence)
    (ho : o ∈ countPattern path name counted) :
    (o ∈ counted ∧ o.name ≠ name) ∨ (∃ own ∈ counted, own.name = name ∧ o = own.seenIn path) ∨
      (name ∉ counted.map (·.name) ∧ o = PatternOccurrence.seenIn ⟨name, 0, []⟩ path) := by
  fun_induction countPattern path name counted with
  | case1 => exact Or.inr (Or.inr ⟨List.not_mem_nil, List.mem_singleton.mp ho⟩)
  | case2 first rest hlt =>
    have hafter : ∀ a ∈ first :: rest, name < a.name := by
      intro a ha
      obtain rfl | ha := List.mem_cons.mp ha
      · exact hlt
      · exact hlt.trans ((List.pairwise_cons.mp h).1 a ha)
    obtain rfl | ho := List.mem_cons.mp ho
    · refine Or.inr (Or.inr ⟨fun hname => ?_, rfl⟩)
      obtain ⟨a, ha, rfl⟩ := List.mem_map.mp hname
      exact lt_irrefl _ (hafter a ha)
    · exact Or.inl ⟨ho, (hafter o ho).ne'⟩
  | case3 first rest hlt heq =>
    obtain rfl | ho := List.mem_cons.mp ho
    · exact Or.inr (Or.inl ⟨first, List.mem_cons_self, heq.symm, rfl⟩)
    · refine Or.inl ⟨List.mem_cons_of_mem _ ho, ?_⟩
      rw [heq]
      exact ((List.pairwise_cons.mp h).1 o ho).ne'
  | case4 first rest hlt hne ih =>
    obtain rfl | ho := List.mem_cons.mp ho
    · exact Or.inl ⟨List.mem_cons_self, Ne.symm hne⟩
    · obtain ⟨ho, hname⟩ | ⟨own, hown, hname⟩ | ⟨hnone, hfirst⟩ := ih (List.pairwise_cons.mp h).2 ho
      · exact Or.inl ⟨List.mem_cons_of_mem _ ho, hname⟩
      · exact Or.inr (Or.inl ⟨own, List.mem_cons_of_mem _ hown, hname⟩)
      · refine Or.inr (Or.inr ⟨?_, hfirst⟩)
        rw [List.map_cons, List.mem_cons, not_or]
        exact ⟨hne, hnone⟩

theorem IsCounted.step {seen : List (String × String)} {counted : List PatternOccurrence}
    (h : IsCounted seen counted) (name path : String) :
    IsCounted (seen ++ [(name, path)]) (countPattern path name counted) := by
  refine ⟨countPattern_ordered path name counted h.ordered, fun other => ?_, fun o ho => ?_⟩
  · rw [names_countPattern, h.names, List.map_append, List.mem_append, or_comm]
    simp
  · obtain ⟨ho, hname⟩ | ⟨own, hown, rfl, rfl⟩ | ⟨hnone, rfl⟩ := mem_countPattern path name counted h.ordered o ho
    · rw [occurrenceOf_other seen name o.name path hname]
      exact h.exact o ho
    · have hexact := h.exact own hown
      change own.seenIn path = occurrenceOf (seen ++ [(own.name, path)]) own.name
      rw [occurrenceOf_own, ← hexact]
    · change _ = occurrenceOf (seen ++ [(name, path)]) name
      rw [occurrenceOf_own, occurrenceOf_unseen seen name (mt (h.names name).mpr hnone)]

theorem IsCounted.names_of_file {seen : List (String × String)} {counted : List PatternOccurrence}
    (h : IsCounted seen counted) (path : String) (names : List String) :
    IsCounted (seen ++ names.map (·, path)) (countFile counted (path, names)) := by
  induction names generalizing seen counted with
  | nil =>
    rw [List.map_nil, List.append_nil]
    exact h
  | cons name names ih =>
    have hrest := ih (h.step name path)
    rwa [List.append_assoc] at hrest

theorem IsCounted.run {seen : List (String × String)} {counted : List PatternOccurrence}
    (h : IsCounted seen counted) (files : List (String × List String)) :
    IsCounted (seen ++ sightingsIn files) (files.foldl countFile counted) := by
  induction files generalizing seen counted with
  | nil =>
    rw [sightingsIn, List.flatMap_nil, List.append_nil]
    exact h
  | cons file files ih =>
    have hrest := ih (h.names_of_file file.1 file.2)
    rwa [List.append_assoc] at hrest

theorem counted_files (files : List (String × List String)) :
    IsCounted (sightingsIn files) (files.foldl countFile []) := by
  have hnone : IsCounted [] [] := ⟨List.Pairwise.nil, fun _ => Iff.rfl, fun _ ho => absurd ho List.not_mem_nil⟩
  simpa using hnone.run files

/-! ### Occurrences by file -/

/-- The sightings of a name come file by file, as often as the file has the name. -/
theorem sightingsIn_own (files : List (String × List String)) (name : String) :
    ((sightingsIn files).filter (·.1 == name)).map (·.2) =
      files.flatMap fun file => List.replicate (file.2.count name) file.1 := by
  induction files with
  | nil => rfl
  | cons file files ih =>
    have hfile : ((file.2.map (·, file.1)).filter (·.1 == name)).map (·.2) =
        List.replicate (file.2.count name) file.1 := by
      rw [List.filter_map, List.map_map, List.count, List.countP_eq_length_filter]
      exact List.map_const'
    rw [sightingsIn, List.flatMap_cons, List.filter_append, List.map_append, hfile, List.flatMap_cons, ← ih]
    rfl

theorem occurrenceOf_files (files : List (String × List String)) (name : String) :
    occurrenceOf (sightingsIn files) name =
      ⟨name, total (files.map (·.2.count name)), ((files.filter (name ∈ ·.2)).map (·.1)).eraseDups⟩ := by
  have hown := sightingsIn_own files name
  have hlength := congrArg List.length hown
  rw [List.length_map, length_flatMap_replicate] at hlength
  have hfiles := eraseDups_flatMap_replicate files (·.2.count name) (·.1)
  simp only [List.count_pos_iff] at hfiles
  simp only [occurrenceOf, hlength, hown, hfiles]

theorem names_sightingsIn (files : List (String × List String)) :
    (sightingsIn files).map (·.1) = files.flatMap (·.2) := by
  rw [sightingsIn, List.map_flatMap]
  congr 1
  funext file
  rw [List.map_map]
  exact List.map_id file.2

theorem IsCounted.count_total {seen : List (String × String)} {counted : List PatternOccurrence}
    (h : IsCounted seen counted) : total (counted.map (·.count)) = seen.length := by
  have hnodup : (counted.map (·.name)).Nodup := by
    rw [List.Nodup, List.pairwise_map]
    exact h.ordered.imp ne_of_lt
  have hnames : (counted.map (·.name)).Perm (seen.map (·.1)).dedup := by
    rw [List.perm_ext_iff_of_nodup hnodup (List.nodup_dedup _)]
    intro name
    rw [h.names, List.mem_dedup]
  have hcounts : counted.map (·.count) = (counted.map (·.name)).map (seen.map (·.1)).count := by
    rw [List.map_map]
    refine List.map_congr_left fun o ho => ?_
    have hexact := congrArg PatternOccurrence.count (h.exact o ho)
    rw [hexact, Function.comp, List.count, List.countP_map, List.countP_eq_length_filter]
    rfl
  calc total (counted.map (·.count))
      = ((counted.map (·.name)).map (seen.map (·.1)).count).sum := congrArg List.sum hcounts
    _ = ((seen.map (·.1)).dedup.map (seen.map (·.1)).count).sum := (hnames.map _).sum_eq
    _ = (seen.map (·.1)).length := List.sum_map_count_dedup_eq_length _
    _ = seen.length := List.length_map _

/-! ### The order of a summary -/

/-- By falling count, and by name for one count. -/
def PatternOccurrence.Precedes (a b : PatternOccurrence) : Prop :=
  b.count < a.count ∨ a.count = b.count ∧ a.name < b.name

theorem mergeSort_precedes (counted : List PatternOccurrence)
    (h : counted.Pairwise fun a b => a.name < b.name) :
    (counted.mergeSort fun a b => b.count ≤ a.count).Pairwise PatternOccurrence.Precedes := by
  have htrans : ∀ a b c : PatternOccurrence, decide (b.count ≤ a.count) = true →
      decide (c.count ≤ b.count) = true → decide (c.count ≤ a.count) = true := by
    intro a b c hab hbc
    simp only [decide_eq_true_eq] at *
    omega
  have htotal : ∀ a b : PatternOccurrence, (decide (b.count ≤ a.count) || decide (a.count ≤ b.count)) = true := by
    intro a b
    simp only [Bool.or_eq_true, decide_eq_true_eq]
    omega
  have hsorted := List.pairwise_mergeSort htrans htotal counted
  rw [List.pairwise_iff_forall_sublist] at *
  intro a b hab
  have hle := of_decide_eq_true (hsorted hab)
  obtain hlt | heq := Nat.lt_or_eq_of_le hle
  · exact Or.inl hlt
  · -- both are of one level, where the sort has kept the order of the names
    have hlevel := mergeSort_level (·.count) _ htrans htotal (fun a b h => decide_eq_true h.ge) counted a.count
    have hpair := hab.filter (·.count == a.count)
    rw [hlevel] at hpair
    simp only [List.filter_cons, heq, beq_self_eq_true, ite_true, List.filter_nil] at hpair
    exact Or.inr ⟨heq.symm, h (hpair.trans List.filter_sublist)⟩

/-! ### Summaries -/

/-- What a summary says of some files. -/
structure IsSummary (files : List (String × List String)) (summary : List PatternOccurrence) : Prop where
  once : (summary.map (·.name)).Nodup
  names : ∀ name, name ∈ summary.map (·.name) ↔ ∃ file ∈ files, name ∈ file.2
  count : ∀ o ∈ summary, o.count = (files.flatMap (·.2)).count o.name
  paths : ∀ o ∈ summary, o.files = ((files.filter (o.name ∈ ·.2)).map (·.1)).eraseDups
  sum : total (summary.map (·.count)) = total (files.map (·.2.length))
  ordered : summary.Pairwise PatternOccurrence.Precedes

theorem summarizePatterns_perm (files : List (String × List String)) :
    (summarizePatterns files).Perm (files.foldl countFile []) :=
  List.mergeSort_perm _ _

theorem summarizePatterns_isSummary (files : List (String × List String)) :
    IsSummary files (summarizePatterns files) := by
  have hcounted := counted_files files
  have hperm := summarizePatterns_perm files
  have hexact : ∀ o ∈ summarizePatterns files, o = occurrenceOf (sightingsIn files) o.name :=
    fun o ho => hcounted.exact o (hperm.mem_iff.mp ho)
  refine ⟨?_, fun name => ?_, fun o ho => ?_, fun o ho => ?_, ?_, mergeSort_precedes _ hcounted.ordered⟩
  · refine (hperm.map (·.name)).nodup_iff.mpr ?_
    rw [List.Nodup, List.pairwise_map]
    exact hcounted.ordered.imp ne_of_lt
  · rw [(hperm.map (·.name)).mem_iff, hcounted.names, names_sightingsIn, List.mem_flatMap]
  · have hcount := congrArg PatternOccurrence.count (hexact o ho)
    rw [hcount, ← names_sightingsIn, List.count, List.countP_map, List.countP_eq_length_filter]
    rfl
  · have hfiles := congrArg PatternOccurrence.files (hexact o ho)
    rw [occurrenceOf_files] at hfiles
    exact hfiles
  · have hlength := congrArg List.length (names_sightingsIn files)
    rw [List.length_map, List.length_flatMap] at hlength
    have hsum := (hperm.map PatternOccurrence.count).sum_eq
    calc total ((summarizePatterns files).map (·.count))
        = total ((files.foldl countFile []).map (·.count)) := hsum
      _ = (sightingsIn files).length := hcounted.count_total
      _ = total (files.map (·.2.length)) := hlength

/-! ### Files in another order -/

/-- Occurrences of one name, as many, in the same files. -/
structure PatternOccurrence.Agrees (a b : PatternOccurrence) : Prop where
  name : a.name = b.name
  count : a.count = b.count
  files : a.files.Perm b.files

/-- The part of an occurrence that the order of the files does not show in. -/
def PatternOccurrence.counted (o : PatternOccurrence) : String × Nat := (o.name, o.count)

theorem IsSummary.mem_counted {files : List (String × List String)} {summary : List PatternOccurrence}
    (h : IsSummary files summary) (name : String) (n : Nat) :
    (name, n) ∈ summary.map PatternOccurrence.counted ↔
      (∃ file ∈ files, name ∈ file.2) ∧ n = (files.flatMap (·.2)).count name := by
  rw [← h.names, List.mem_map, List.mem_map]
  constructor
  · rintro ⟨o, ho, he⟩
    cases he
    exact ⟨⟨o, ho, rfl⟩, h.count o ho⟩
  · rintro ⟨⟨o, ho, rfl⟩, rfl⟩
    exact ⟨o, ho, congrArg (Prod.mk o.name) (h.count o ho)⟩

theorem IsSummary.counted_eq {files other : List (String × List String)}
    {summary summary' : List PatternOccurrence} (h : IsSummary files summary) (h' : IsSummary other summary')
    (hperm : files.Perm other) :
    summary.map PatternOccurrence.counted = summary'.map PatternOccurrence.counted := by
  have hnodup : ∀ list : List PatternOccurrence, (list.map (·.name)).Nodup →
      (list.map PatternOccurrence.counted).Nodup := by
    intro list hlist
    apply List.Nodup.of_map Prod.fst
    rwa [List.map_map]
  have hordered : ∀ list : List PatternOccurrence, list.Pairwise PatternOccurrence.Precedes →
      (list.map PatternOccurrence.counted).Pairwise fun a b => b.2 < a.2 ∨ a.2 = b.2 ∧ a.1 < b.1 := by
    intro list hlist
    rw [List.pairwise_map]
    exact hlist
  -- both are strictly ordered, so it is enough that they have the same names with the same counts
  refine List.Perm.eq_of_pairwise ?_ (hordered _ h.ordered) (hordered _ h'.ordered) ?_
  · rintro a b - - (hab | ⟨hab, hname⟩) (hba | ⟨hba, hname'⟩)
    · omega
    · omega
    · omega
    · exact absurd hname hname'.not_gt
  · rw [List.perm_ext_iff_of_nodup (hnodup _ h.once) (hnodup _ h'.once)]
    rintro ⟨name, n⟩
    have hnames : (∃ file ∈ files, name ∈ file.2) ↔ ∃ file ∈ other, name ∈ file.2 := by
      simp only [hperm.mem_iff]
    rw [h.mem_counted, h'.mem_counted, hnames, (hperm.flatMap_right (·.2)).count_eq]

theorem IsSummary.permuted {files other : List (String × List String)}
    {summary summary' : List PatternOccurrence} (h : IsSummary files summary) (h' : IsSummary other summary')
    (hperm : files.Perm other) :
    List.Forall₂ PatternOccurrence.Agrees summary summary' := by
  have hcounts : List.Forall₂ Eq (summary.map PatternOccurrence.counted)
      (summary'.map PatternOccurrence.counted) := by
    rw [h.counted_eq h' hperm]
    exact List.forall₂_refl _
  rw [List.forall₂_map_left_iff, List.forall₂_map_right_iff] at hcounts
  rw [List.forall₂_iff_zip] at *
  refine ⟨hcounts.1, fun {a b} hab => ?_⟩
  obtain ⟨ha, hb⟩ := List.of_mem_zip hab
  obtain ⟨hname, hcount⟩ := Prod.mk.inj (hcounts.2 hab)
  refine ⟨hname, hcount, ?_⟩
  rw [h.paths a ha, h'.paths b hb, hname]
  exact eraseDups_perm ((hperm.filter _).map _)

/-- A summary has one occurrence for each name, with the number of its occurrences over all files and the
files that have it in the order in which they are first seen; the counts make up the number of all patterns,
and the occurrences are ordered strictly, by falling count and by name. In whatever order the files come, the
names and counts are the same, one by one, and each occurrence has the same files. -/
theorem summarizePatterns_aggregates (files : List (String × List String)) :
    IsSummary files (summarizePatterns files) ∧
    ∀ other : List (String × List String), files.Perm other →
      List.Forall₂ PatternOccurrence.Agrees (summarizePatterns files) (summarizePatterns other) :=
  ⟨summarizePatterns_isSummary files, fun other hperm =>
    (summarizePatterns_isSummary files).permuted (summarizePatterns_isSummary other) hperm⟩

def twoSummarized : List (String × List String) :=
  [("b.js", ["Singleton", "Factory", "Singleton"]), ("a.js", ["Factory", "Observer", "Factory"])]

theorem summarizePatterns_aggregates_reversed :
    twoSummarized.Perm twoSummarized.reverse ∧
    summarizePatterns twoSummarized =
      [⟨"Factory", 3, ["b.js", "a.js"]⟩, ⟨"Singleton", 2, ["b.js"]⟩, ⟨"Observer", 1, ["a.js"]⟩] ∧
    List.Forall₂ PatternOccurrence.Agrees
      [⟨"Factory", 3, ["b.js", "a.js"]⟩, ⟨"Singleton", 2, ["b.js"]⟩, ⟨"Observer", 1, ["a.js"]⟩]
      (summarizePatterns twoSummarized.reverse) := by
  have hperm : twoSummarized.Perm twoSummarized.reverse := (List.reverse_perm _).symm
  have hcounted : twoSummarized.foldl countFile [] =
      [⟨"Factory", 3, ["b.js", "a.js"]⟩, ⟨"Observer", 1, ["a.js"]⟩, ⟨"Singleton", 2, ["b.js"]⟩] := by
    decide +kernel
  have hsummary : summarizePatterns twoSummarized =
      [⟨"Factory", 3, ["b.js", "a.js"]⟩, ⟨"Singleton", 2, ["b.js"]⟩, ⟨"Observer", 1, ["a.js"]⟩] := by
    rw [summarizePatterns, hcounted]
    simp [List.mergeSort]
  refine ⟨hperm, hsummary, ?_⟩
  rw [← hsummary]
  exact (summarizePatterns_aggregates twoSummarized).2 _ hperm

end CodeIndex
