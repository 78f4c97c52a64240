import CodeIndex.Proofs.Indexer.Batches

/-!
# Interrupted scans

A scan that is stopped before a batch has written the files of the batches before it and nothing else.
Another scan finds those files and writes the rest, so that an interrupted scan and its resumption leave
what one scan leaves.
-/

namespace CodeIndex

/-! ### Batches before a place -/

theorem progressOf_length (total done : Nat) (list : List (List Path)) :
    (Indexer.progressOf total done list).length = list.length := by
  induction list generalizing done with
  | nil => rfl
  | cons batch rest ih => rw [Indexer.progressOf, List.length_cons, List.length_cons, ih]

theorem batches_length (size fuel : Nat) (hs : 1 ≤ size) (list : List Path) (h : list.length ≤ fuel) :
    (batches size fuel list).length = (list.length + size - 1) / size := by
  rw [← progressOf_length 0 0, progressOf_batches size fuel hs 0 0 list h, List.length_map,
    List.length_range]

/-- There is a batch number `k` exactly when the batches before it do not take all items. -/
theorem lt_batches_length (size fuel k : Nat) (hs : 1 ≤ size) (list : List Path)
    (h : list.length ≤ fuel) : k < (batches size fuel list).length ↔ k * size < list.length := by
  rw [batches_length size fuel hs list h, Nat.lt_iff_add_one_le, Nat.le_div_iff_mul_le (by omega),
    Nat.add_mul, Nat.one_mul]
  omega

theorem batches_take {α : Type} (size fuel k : Nat) (hs : 1 ≤ size) (list : List α) :
    (batches size fuel list).take k = batches size fuel (list.take (k * size)) := by
  induction fuel generalizing k list with
  | zero => rw [batches, batches, List.take_nil]
  | succ fuel ih =>
    cases k with
    | zero =>
      rw [Nat.zero_mul, List.take_zero, List.take_zero]
      rfl
    | succ k =>
      have hle : size ≤ (k + 1) * size := Nat.le_mul_of_pos_left size (by omega)
      have htake : (list.take ((k + 1) * size)).take size = list.take size := by
        rw [List.take_take, Nat.min_eq_left hle]
      have hdrop : (list.take ((k + 1) * size)).drop size = (list.drop size).take (k * size) := by
        rw [List.drop_take, Nat.succ_mul, Nat.add_sub_cancel]
      have hempty : (list.take ((k + 1) * size)).isEmpty = list.isEmpty := by
        rw [Bool.eq_iff_iff, List.isEmpty_iff, List.isEmpty_iff, List.take_eq_nil_iff]
        exact or_iff_right (by omega)
      simp only [batches, hempty, htake, hdrop, ← ih]
      split
      · rfl
      · rw [List.take_succ_cons]

theorem progressOf_batches_take (size fuel k : Nat) (hs : 1 ≤ size) (list : List Path)
    (hk : k * size ≤ list.length) (h : list.length ≤ fuel) :
    Indexer.progressOf list.length 0 ((batches size fuel list).take k) =
      (List.range k).map fun i => ((i + 1) * size, list.length) := by
  have hlen : (list.take (k * size)).length = k * size := by
    rw [List.length_take, Nat.min_eq_left hk]
  have hcount : (k * size + size - 1) / size = k := by
    rw [Nat.add_sub_assoc hs, Nat.mul_comm, Nat.mul_add_div hs, Nat.div_eq_of_lt (by omega),
      Nat.add_zero]
  rw [batches_take size fuel k hs,
    progressOf_batches size fuel hs list.length 0 _ (by omega), hlen, hcount]
  apply List.map_congr_left
  intro i hi
  have hle : (i + 1) * size ≤ k * size := Nat.mul_le_mul_right size (List.mem_range.mp hi)
  rw [Nat.min_eq_left hle, Nat.zero_add]

namespace Indexer

/-! ### Stopping -/

theorem scanBatches_congr (x : Indexer) (now : String) (root : Tree) (f g : Nat → Bool)
    (list : List (List Path)) (done : Nat) (stats : ScanStats) (s : Store)
    (h : ∀ i < list.length, f (done + i) = g (done + i)) :
    x.scanBatches now root f done list stats s = x.scanBatches now root g done list stats s := by
  induction list generalizing done stats s with
  | nil => rfl
  | cons batch rest ih =>
    have hf : f done = g done := h 0 (Nat.zero_lt_succ _)
    have hrest : ∀ i < rest.length, f (done + 1 + i) = g (done + 1 + i) := by
      intro i hi
      have hstep := h (i + 1) (Nat.succ_lt_succ hi)
      rwa [Nat.add_comm i 1, ← Nat.add_assoc] at hstep
    simp only [scanBatches, hf, ih _ _ _ hrest]

/-- A scan that is stopped before batch `k` has taken the files of the batches before it, one by one. -/
theorem scanBatches_stopped (x : Indexer) (now : String) (root : Tree) (isCancelled : Nat → Bool)
    (k : Nat) (list : List (List Path)) (hk : (list.flatten.map x.keyOf).Nodup) (done : Nat)
    (hgo : ∀ i < k, isCancelled (done + i) = false) (hstop : isCancelled (done + k) = true)
    (hlt : k < list.length) (stats : ScanStats) (s : Store) (h : s.Legible) :
    x.scanBatches now root isCancelled done list stats s =
      (.error (.cancelled (stats.processed + (list.take k).flatten.length) stats.scanned),
        progressOf stats.scanned stats.processed (list.take k),
        ((list.take k).flatten.foldl (x.step now root) (stats, s)).2) := by
  induction k generalizing list done stats s with
  | zero =>
    cases list with
    | nil => cases hlt
    | cons batch rest =>
      have hc : isCancelled done = true := hstop
      simp only [scanBatches, hc, ite_true]
      rfl
  | succ k ih =>
    cases list with
    | nil => cases hlt
    | cons batch rest =>
      rw [List.flatten_cons, List.map_append] at hk
      obtain ⟨hb, hr, -⟩ := List.nodup_append.mp hk
      have hc : isCancelled done = false := hgo 0 (Nat.zero_lt_succ k)
      have hsettle := x.settle_prepared now root batch hb s stats s h fun _ _ => rfl
      obtain ⟨hl, -⟩ := x.foldl_step_legible now root batch stats s h
      obtain ⟨hp, hn⟩ := x.foldl_step_processed now root batch stats s
      have hrest := ih rest hr (done + 1)
        (fun i hi => by have hg := hgo (i + 1) (by omega); rwa [Nat.add_comm i 1, ← Nat.add_assoc] at hg)
        (by rwa [Nat.add_comm k 1, ← Nat.add_assoc] at hstop) (Nat.lt_of_succ_lt_succ hlt)
        (batch.foldl (x.step now root) (stats, s)).1 _ hl
      rw [hp, hn] at hrest
      simp only [scanBatches, hc, Bool.false_eq_true, ite_false, hsettle, hrest, List.take_succ_cons,
        List.flatten_cons, List.length_append, List.foldl_append, progressOf, hp, hn, Nat.add_assoc]

/-! ### Going on -/

theorem takeFiles_append (x : Indexer) (root : Tree) (now : Path → String) (files more : List Path)
    (s : Store) :
    x.takeFiles root now (files ++ more) s = x.takeFiles root now more (x.takeFiles root now files s) :=
  List.foldl_append

theorem takeFiles_legible (x : Indexer) (now : String) (root : Tree) (files : List Path) (s : Store)
    (h : s.Legible) : (x.takeFiles root (fun _ => now) files s).Legible := by
  rw [← x.foldl_step_store now root files {} s]
  exact (x.foldl_step_legible now root files {} s h).1

/-- Files that were taken are not written again. -/
theorem takeFiles_again (x : Indexer) (now later : String) (root : Tree) (files : List Path)
    (hk : (files.map x.keyOf).Nodup) (s : Store) (h : s.Legible) :
    x.takeFiles root (fun _ => later) files (x.takeFiles root (fun _ => now) files s) =
      x.takeFiles root (fun _ => now) files s := by
  have hagain := (x.foldl_step_again now later root files hk {} {} ⟨rfl, rfl, rfl, rfl, rfl, rfl⟩ s h _
    fun _ _ => rfl).1
  rw [foldl_step_store, foldl_step_store] at hagain
  exact hagain

/-- Taking all files where some of the first were taken before differs in times only from taking all files
once. -/
theorem takeFiles_resumed (x : Indexer) (now later : String) (root : Tree) (files : List Path)
    (hk : (files.map x.keyOf).Nodup) (m : Nat) (s : Store) (h : s.Legible) :
    (x.takeFiles root (fun _ => later) files
        (x.takeFiles root (fun _ => now) (files.take m) s)).unstamped =
      (x.takeFiles root (fun _ => now) files s).unstamped := by
  have hsplit := List.take_append_drop m files
  have hk' : ((files.take m).map x.keyOf).Nodup := hk.sublist ((List.take_sublist m files).map _)
  have hagain := x.takeFiles_again now later root (files.take m) hk' s h
  have hfirst := x.takeFiles_append root (fun _ => later) (files.take m) (files.drop m)
    (x.takeFiles root (fun _ => now) (files.take m) s)
  have hwhole := x.takeFiles_append root (fun _ => now) (files.take m) (files.drop m) s
  rw [hsplit] at hfirst hwhole
  rw [hfirst, hagain, hwhole, takeFiles_unstamped, ← takeFiles_unstamped x root (fun _ => now)]

/-! ### Interrupted scans -/

theorem scanFiles_taken (x : Indexer) (now : String) (root : Tree) (files : List Path)
    (hk : (files.map x.keyOf).Nodup) (s : Store) (h : s.Legible) :
    ∃ stats told, x.scanFiles now root (fun _ => false) files s =
      (.ok stats, told, x.takeFiles root (fun _ => now) files s) := by
  have hstore := x.foldl_step_store now root files { scanned := files.length } s
  exact ⟨_, _, hstore ▸ x.scanFiles_eq now root files hk s h⟩

theorem scanFiles_stopped (x : Indexer) (now : String) (root : Tree) (files : List Path)
    (hk : (files.map x.keyOf).Nodup) (s : Store) (h : s.Legible) (b : Nat)
    (hb : b = max x.settings.indexing.batchSize 1) (k : Nat) (isCancelled : Nat → Bool)
    (hgo : ∀ i < k, isCancelled i = false) (hstop : isCancelled k = true)
    (hlt : k * b < files.length) :
    x.scanFiles now root isCancelled files s =
      (.error (.cancelled (k * b) files.length),
        (List.range k).map fun i => ((i + 1) * b, files.length),
        x.takeFiles root (fun _ => now) (files.take (k * b)) s) := by
  have hsize : 1 ≤ b := hb ▸ Nat.le_max_right _ _
  have hflat := batches_flatten b files.length hsize files (Nat.le_refl _)
  have hbefore : ((batches b files.length files).take k).flatten = files.take (k * b) := by
    rw [batches_take b files.length k hsize]
    exact batches_flatten b files.length hsize _ (by rw [List.length_take]; omega)
  have hlen : (files.take (k * b)).length = k * b := by
    rw [List.length_take, Nat.min_eq_left (Nat.le_of_lt hlt)]
  have hprogress := progressOf_batches_take b files.length k hsize files (Nat.le_of_lt hlt) (Nat.le_refl _)
  have hscan := x.scanBatches_stopped now root isCancelled k (batches b files.length files)
    (by rw [hflat]; exact hk) 0 (by simpa using hgo) (by simpa using hstop)
    ((lt_batches_length b files.length k hsize files (Nat.le_refl _)).mpr hlt)
    { scanned := files.length } s h
  rw [hbefore, hlen, foldl_step_store] at hscan
  have hz : ({ scanned := files.length } : ScanStats).processed = 0 := rfl
  rw [hz, Nat.zero_add, hprogress] at hscan
  rw [scanFiles, ← hb]
  exact hscan

theorem scanFiles_unnoticed (x : Indexer) (now : String) (root : Tree) (files : List Path) (s : Store)
    (b : Nat) (hb : b = max x.settings.indexing.batchSize 1) (k : Nat) (isCancelled : Nat → Bool)
    (hgo : ∀ i < k, isCancelled i = false) (hle : files.length ≤ k * b) :
    x.scanFiles now root isCancelled files s = x.scanFiles now root (fun _ => false) files s := by
  have hsize : 1 ≤ b := hb ▸ Nat.le_max_right _ _
  have hlength := lt_batches_length b files.length k hsize files (Nat.le_refl _)
  rw [scanFiles, scanFiles, ← hb]
  apply scanBatches_congr
  intro i hi
  rw [Nat.zero_add]
  exact hgo i (by omega)

/-- A scan that finds itself cancelled before batch `k` has indexed the files of the batches before it and
says so; a cancellation behind the last batch goes unnoticed. Scanning again leaves what one scan leaves,
but for times. -/
theorem scanFiles_resumes (x : Indexer) (now : String) (root : Tree) (files : List Path)
    (hk : (files.map x.keyOf).Nodup) (s : Store) (hs : s.Reached) (b : Nat)
    (hb : b = max x.settings.indexing.batchSize 1) (k : Nat) (isCancelled : Nat → Bool)
    (hgo : ∀ i < k, isCancelled i = false) (hstop : isCancelled k = true) :
    (k * b < files.length →
      ∃ (stats : ScanStats) (told : List ScanProgress) (s' : Store),
        x.scanFiles now root (fun _ => false) (files.take (k * b)) s = (.ok stats, told, s') ∧
        x.scanFiles now root isCancelled files s =
          (.error (.cancelled (k * b) files.length),
            (List.range k).map fun i => ((i + 1) * b, files.length), s')) ∧
    (files.length ≤ k * b →
      x.scanFiles now root isCancelled files s = x.scanFiles now root (fun _ => false) files s) ∧
    ∀ later, ∃ (stats : ScanStats) (told : List ScanProgress) (resumed : Store),
      x.scanFiles later root (fun _ => false) files (x.scanFiles now root isCancelled files s).2.2 =
          (.ok stats, told, resumed) ∧
        resumed.unstamped = (x.scanFiles now root (fun _ => false) files s).2.2.unstamped := by
  have hl := hs.legible
  have hstopped := x.scanFiles_stopped now root files hk s hl b hb k isCancelled hgo hstop
  have hunnoticed := x.scanFiles_unnoticed now root files s b hb k isCancelled hgo
  obtain ⟨stats, told, hwhole⟩ := x.scanFiles_taken now root files hk s hl
  -- noticed or not, the scan has taken the files before batch `k`
  have hleft : (x.scanFiles now root isCancelled files s).2.2 =
      x.takeFiles root (fun _ => now) (files.take (k * b)) s := by
    by_cases hlt : k * b < files.length
    · rw [hstopped hlt]
    · have hle : files.length ≤ k * b := Nat.le_of_not_lt hlt
      rw [hunnoticed hle, hwhole, List.take_of_length_le hle]
  refine ⟨fun hlt => ?_, hunnoticed, fun later => ?_⟩
  · have hk' := hk.sublist ((List.take_sublist (k * b) files).map _)
    obtain ⟨first, before, hfirst⟩ := x.scanFiles_taken now root (files.take (k * b)) hk' s hl
    exact ⟨first, before, _, hfirst, hstopped hlt⟩
  · have hagain := x.takeFiles_legible now root (files.take (k * b)) s hl
    obtain ⟨second, again, hresumed⟩ := x.scanFiles_taken later root files hk _ hagain
    refine ⟨second, again, _, by rw [hleft]; exact hresumed, ?_⟩
    rw [hwhole, x.takeFiles_resumed now later root files hk (k * b) s hl]

theorem scanFiles_resumes_second :
    ([Path.ofString "a.go", .ofString "b.py"].map singly.keyOf).Nodup ∧ Store.empty.Reached ∧
      1 = max singly.settings.indexing.batchSize 1 ∧ (∀ i < 1, decide (1 ≤ i) = false) ∧
      decide (1 ≤ 1) = true ∧
      ∃ (s' : Store) (stats : ScanStats) (told : List ScanProgress) (resumed : Store),
        singly.scanFiles "t0" twoSources (fun i => decide (1 ≤ i)) [.ofString "a.go", .ofString "b.py"]
            .empty = (.error (.cancelled 1 2), [(1, 2)], s') ∧
        singly.scanFiles "t1" twoSources (fun _ => false) [.ofString "a.go", .ofString "b.py"] s' =
          (.ok stats, told, resumed) ∧
        resumed.unstamped = (singly.scanFiles "t0" twoSources (fun _ => false)
          [.ofString "a.go", .ofString "b.py"] .empty).2.2.unstamped := by
  have hk : ([Path.ofString "a.go", .ofString "b.py"].map singly.keyOf).Nodup := by decide
  have hr : Store.empty.Reached := ⟨[], [], rfl⟩
  have hgo : ∀ i < 1, decide (1 ≤ i) = false := by decide
  obtain ⟨hstopped, -, hresumed⟩ := singly.scanFiles_resumes "t0" twoSources
    [.ofString "a.go", .ofString "b.py"] hk .empty hr 1 rfl 1 (fun i => decide (1 ≤ i)) hgo rfl
  obtain ⟨-, -, s', -, hstop⟩ := hstopped (by decide)
  obtain ⟨stats, told, resumed, hagain, hsame⟩ := hresumed "t1"
  rw [hstop] at hagain
  exact ⟨hk, hr, rfl, hgo, rfl, s', stats, told, resumed, hstop, hagain, hsame⟩

end Indexer

end CodeIndex
