import CodeIndex.Proofs.Indexer.OneFile
import CodeIndex.Proofs.Store.Run

/-!
# Files in their turn and in batches

A file is prepared, written and counted before the next one is looked at. Every file is counted once. A
second pass over files with different keys finds what the first wrote, so that it writes nothing.

A scan prepares the files of a batch against the store as it is before the batch. When no two files have
one key, what it writes and counts is what taking the files one after another writes and counts, whatever
the size of the batches and the number of threads.
-/

namespace CodeIndex

/-! ### Counting -/

/-- The counts with one more file. -/
def ScanStats.note (stats : ScanStats) (p : Path) : Prepared → ScanStats
  | .entry _ => { stats with indexed := stats.indexed + 1 }
  | .cached => { stats with cached := stats.cached + 1 }
  | .unsupported => { stats with skipped := stats.skipped + 1 }
  | .failed reason => stats.addError p.toString reason

theorem note_processed (stats : ScanStats) (p : Path) (outcome : Prepared) :
    (stats.note p outcome).processed = stats.processed + 1 ∧
      (stats.note p outcome).scanned = stats.scanned := by
  cases outcome with
  | entry e => exact ⟨by simp only [ScanStats.note, ScanStats.processed]; omega, rfl⟩
  | cached => exact ⟨by simp only [ScanStats.note, ScanStats.processed]; omega, rfl⟩
  | unsupported => exact ⟨by simp only [ScanStats.note, ScanStats.processed]; omega, rfl⟩
  | failed reason =>
    exact ⟨by simp only [ScanStats.note, ScanStats.addError, ScanStats.processed]; omega, rfl⟩

/-- The counts of a second scan, by those of the first: what was written then is cached now. -/
structure ScanStats.Repeats (second first : ScanStats) : Prop where
  scanned : second.scanned = first.scanned
  indexed : second.indexed = 0
  cached : second.cached = first.indexed + first.cached
  skipped : second.skipped = first.skipped
  failed : second.failed = first.failed
  errors : second.errors = first.errors

theorem note_repeats (second first : ScanStats) (p : Path) (outcome : Prepared)
    (h : second.Repeats first) : (second.note p outcome.again).Repeats (first.note p outcome) := by
  obtain ⟨hn, hi, hc, hs, hf, he⟩ := h
  cases outcome with
  | entry e =>
    refine ⟨hn, hi, ?_, hs, hf, he⟩
    simp only [Prepared.again, ScanStats.note, hc]
    omega
  | cached =>
    refine ⟨hn, hi, ?_, hs, hf, he⟩
    simp only [Prepared.again, ScanStats.note, hc]
    omega
  | unsupported => exact ⟨hn, hi, hc, congrArg (· + 1) hs, hf, he⟩
  | failed reason =>
    refine ⟨hn, hi, hc, hs, congrArg (· + 1) hf, ?_⟩
    simp only [Prepared.again, ScanStats.note, ScanStats.addError, he]

/-! ### One file after another -/

namespace Indexer

/-- Prepares a file, writes it and counts it. -/
def step (x : Indexer) (now : String) (root : Tree) (state : ScanStats × Store) (p : Path) :
    ScanStats × Store :=
  let outcome := x.prepare root state.2 p
  (state.1.note p outcome, outcome.write now state.2)

theorem foldl_step_store (x : Indexer) (now : String) (root : Tree) (files : List Path)
    (stats : ScanStats) (s : Store) :
    (files.foldl (x.step now root) (stats, s)).2 = x.takeFiles root (fun _ => now) files s := by
  induction files generalizing stats s with
  | nil => rfl
  | cons p rest ih =>
    have hr := ih (stats.note p (x.prepare root s p)) ((x.prepare root s p).write now s)
    simp only [takeFiles, List.foldl_cons, step, takeFile_eq_write] at hr ⊢
    exact hr

theorem foldl_step_processed (x : Indexer) (now : String) (root : Tree) (files : List Path)
    (stats : ScanStats) (s : Store) :
    (files.foldl (x.step now root) (stats, s)).1.processed = stats.processed + files.length ∧
      (files.foldl (x.step now root) (stats, s)).1.scanned = stats.scanned := by
  induction files generalizing stats s with
  | nil => exact ⟨rfl, rfl⟩
  | cons p rest ih =>
    obtain ⟨hp, hs⟩ := note_processed stats p (x.prepare root s p)
    obtain ⟨hr, ht⟩ := ih (stats.note p (x.prepare root s p)) ((x.prepare root s p).write now s)
    rw [hp] at hr
    rw [hs] at ht
    simp only [List.foldl_cons, step, List.length_cons]
    exact ⟨by rw [hr]; omega, ht⟩

theorem foldl_step_legible (x : Indexer) (now : String) (root : Tree) (files : List Path)
    (stats : ScanStats) (s : Store) (h : s.Legible) :
    (files.foldl (x.step now root) (stats, s)).2.Legible ∧
      ∀ path, path ∉ files.map x.keyOf →
        (files.foldl (x.step now root) (stats, s)).2.contentHash path = s.contentHash path := by
  induction files generalizing stats s with
  | nil => exact ⟨h, fun _ _ => rfl⟩
  | cons p rest ih =>
    obtain ⟨hl, hf⟩ := x.write_prepared root p now s h
    obtain ⟨hr, hg⟩ := ih (stats.note p (x.prepare root s p)) _ hl
    refine ⟨hr, fun path hp => ?_⟩
    simp only [List.map_cons, List.mem_cons, not_or] at hp
    exact (hg path hp.2).trans (hf path hp.1)

/-- A second pass finds everything that the first wrote. -/
theorem foldl_step_again (x : Indexer) (now now' : String) (root : Tree) (files : List Path)
    (hk : (files.map x.keyOf).Nodup) (first second : ScanStats) (hc : second.Repeats first)
    (s : Store) (h : s.Legible) (t : Store)
    (ht : ∀ p ∈ files, t.contentHash (x.keyOf p) =
      (files.foldl (x.step now root) (first, s)).2.contentHash (x.keyOf p)) :
    (files.foldl (x.step now' root) (second, t)).2 = t ∧
      (files.foldl (x.step now' root) (second, t)).1.Repeats
        (files.foldl (x.step now root) (first, s)).1 := by
  induction files generalizing first second s with
  | nil => exact ⟨rfl, hc⟩
  | cons p rest ih =>
    obtain ⟨hp, hrest⟩ := List.nodup_cons.mp hk
    obtain ⟨hl, -⟩ := x.write_prepared root p now s h
    -- the rest of the first pass keeps the hash of this key, so `t` is tested as right behind its write
    have hkeep := (x.foldl_step_legible now root rest (first.note p (x.prepare root s p)) _ hl).2
    have hprepared : x.prepare root t p = (x.prepare root s p).again := by
      rw [← x.prepare_again root p now s h]
      apply prepare_congr
      rw [ht p List.mem_cons_self]
      exact hkeep (x.keyOf p) hp
    have hwrite : (x.prepare root s p).again.write now' t = t := by
      cases x.prepare root s p <;> rfl
    have hcounts := note_repeats second first p (x.prepare root s p) hc
    have hr := ih hrest (first.note p (x.prepare root s p)) _ hcounts _ hl
      fun q hq => ht q (List.mem_cons_of_mem p hq)
    simp only [List.foldl_cons, step, hprepared, hwrite] at hr ⊢
    exact hr

/-! ### One batch -/

theorem settle_cons (now : String) (p : Path) (outcome : Prepared) (he : outcome.HasStrengths)
    (rest : List (Path × Prepared)) (stats : ScanStats) (s : Store) (h : s.Legible) :
    settle now ((p, outcome) :: rest) stats s =
      settle now rest (stats.note p outcome) (outcome.write now s) := by
  cases outcome with
  | entry e =>
    obtain ⟨s', hw, -⟩ := persist_legible now e (he e rfl) s h
    simp only [settle, ScanStats.note, Prepared.write, hw]
  | cached => rfl
  | unsupported => rfl
  | failed reason => rfl

theorem batch_hasStrengths (x : Indexer) (root : Tree) (batch : List Path) (s : Store) :
    ∀ r ∈ batch.map fun p => (p, x.prepare root s p), r.2.HasStrengths := by
  intro r hr
  obtain ⟨p, -, rfl⟩ := List.mem_map.mp hr
  exact x.prepare_hasStrengths root p s

theorem settle_writes (now : String) (prepared : List (Path × Prepared))
    (hp : ∀ r ∈ prepared, r.2.HasStrengths) (stats : ScanStats) (s : Store) (h : s.Legible) :
    ∃ stats', settle now prepared stats s = (.ok stats', writeAll now prepared s) := by
  induction prepared generalizing stats s with
  | nil => exact ⟨stats, rfl⟩
  | cons r rest ih =>
    rw [settle_cons now r.1 r.2 (hp r List.mem_cons_self) rest stats s h]
    exact ih (fun q hq => hp q (List.mem_cons_of_mem r hq)) _ _ (r.2.write_legible now s h)

/-- Files prepared against a store with the same hashes for their keys are written and counted as if
each were prepared in its turn. -/
theorem settle_prepared (x : Indexer) (now : String) (root : Tree) (files : List Path)
    (hk : (files.map x.keyOf).Nodup) (before : Store) (stats : ScanStats) (s : Store) (h : s.Legible)
    (hs : ∀ p ∈ files, s.contentHash (x.keyOf p) = before.contentHash (x.keyOf p)) :
    settle now (files.map fun p => (p, x.prepare root before p)) stats s =
      (.ok (files.foldl (x.step now root) (stats, s)).1,
        (files.foldl (x.step now root) (stats, s)).2) := by
  induction files generalizing stats s with
  | nil => rfl
  | cons p rest ih =>
    obtain ⟨hp, hrest⟩ := List.nodup_cons.mp hk
    have hprepared : x.prepare root before p = x.prepare root s p :=
      x.prepare_congr root p before s (hs p List.mem_cons_self).symm
    -- the write of this file changes no hash that a later one is tested by, since their keys differ
    obtain ⟨hl, hf⟩ := x.write_prepared root p now s h
    have hkeys : ∀ q ∈ rest, ((x.prepare root s p).write now s).contentHash (x.keyOf q) =
        before.contentHash (x.keyOf q) := by
      intro q hq
      have hne : x.keyOf q ≠ x.keyOf p := fun he => hp (he ▸ List.mem_map_of_mem hq)
      rw [hf (x.keyOf q) hne, hs q (List.mem_cons_of_mem p hq)]
    rw [List.map_cons, settle_cons now p _ (x.prepare_hasStrengths root p before) _ stats s h, hprepared,
      ih hrest (stats.note p (x.prepare root s p)) _ hl hkeys]
    rfl

/-! ### All batches -/

/-- The progress behind each of some batches. -/
def progressOf (total : Nat) : (done : Nat) → List (List Path) → List ScanProgress
  | _, [] => []
  | done, batch :: rest => (done + batch.length, total) :: progressOf total (done + batch.length) rest

theorem scanBatches_eq (x : Indexer) (now : String) (root : Tree) (list : List (List Path))
    (hk : (list.flatten.map x.keyOf).Nodup) (done : Nat) (stats : ScanStats) (s : Store)
    (h : s.Legible) :
    x.scanBatches now root (fun _ => false) done list stats s =
      (.ok (list.flatten.foldl (x.step now root) (stats, s)).1,
        progressOf stats.scanned stats.processed list,
        (list.flatten.foldl (x.step now root) (stats, s)).2) := by
  induction list generalizing done stats s with
  | nil => rfl
  | cons batch rest ih =>
    rw [List.flatten_cons, List.map_append] at hk
    obtain ⟨hb, hr, -⟩ := List.nodup_append.mp hk
    have hsettle := x.settle_prepared now root batch hb s stats s h fun _ _ => rfl
    obtain ⟨hl, -⟩ := x.foldl_step_legible now root batch stats s h
    obtain ⟨hp, hn⟩ := x.foldl_step_processed now root batch stats s
    have hrest := ih hr (done + 1) (batch.foldl (x.step now root) (stats, s)).1 _ hl
    rw [hp, hn] at hrest
    simp only [scanBatches, Bool.false_eq_true, ite_false, hsettle, hrest, List.flatten_cons,
      List.foldl_append, progressOf, hp, hn]

end Indexer

/-! ### Batches of one size -/

theorem batches_flatten {α : Type} (size fuel : Nat) (hs : 1 ≤ size) (list : List α)
    (h : list.length ≤ fuel) : (batches size fuel list).flatten = list := by
  induction fuel generalizing list with
  | zero => rw [List.length_eq_zero_iff.mp (Nat.le_zero.mp h)]; rfl
  | succ fuel ih =>
    cases list with
    | nil => rfl
    | cons a rest =>
      have hd : ((a :: rest).drop size).length ≤ fuel := by
        rw [List.length_drop, List.length_cons] at *
        omega
      simp only [batches, List.isEmpty_cons, Bool.false_eq_true, ite_false, List.flatten_cons,
        ih _ hd, List.take_append_drop]

theorem batchCount_sub (size n : Nat) (hs : 1 ≤ size) (hn : 1 ≤ n) :
    (n + size - 1) / size = (n - size + size - 1) / size + 1 := by
  rw [← Nat.add_div_right _ (by omega)]
  by_cases hle : size ≤ n
  · congr 1
    omega
  · -- the only batch is a short one
    rw [Nat.div_eq_of_lt_le (k := 1) (by omega) (by omega),
      Nat.div_eq_of_lt_le (k := 1) (by omega) (by omega)]

theorem progressOf_batches (size fuel : Nat) (hs : 1 ≤ size) (total done : Nat) (list : List Path)
    (h : list.length ≤ fuel) :
    Indexer.progressOf total done (batches size fuel list) =
      (List.range ((list.length + size - 1) / size)).map fun i =>
        (done + min ((i + 1) * size) list.length, total) := by
  induction fuel generalizing done list with
  | zero =>
    rw [List.length_eq_zero_iff.mp (Nat.le_zero.mp h), List.length_nil,
      Nat.div_eq_of_lt (by omega)]
    rfl
  | succ fuel ih =>
    cases list with
    | nil =>
      rw [List.length_nil, Nat.div_eq_of_lt (by omega)]
      rfl
    | cons a rest =>
      have hd : ((a :: rest).drop size).length = (a :: rest).length - size := List.length_drop
      have hf : ((a :: rest).drop size).length ≤ fuel := by
        rw [hd, List.length_cons] at *
        omega
      have hcount := batchCount_sub size (a :: rest).length hs (by simp)
      simp only [batches, List.isEmpty_cons, Bool.false_eq_true, ite_false, Indexer.progressOf,
        List.length_take, ih _ _ hf, hd]
      rw [hcount, List.range_succ_eq_map, List.map_cons, List.map_map]
      congr 1
      · simp
      · apply List.map_congr_left
        intro i _
        simp only [Function.comp_apply, Prod.mk.injEq, and_true, Nat.succ_eq_add_one, Nat.add_mul,
          Nat.one_mul]
        omega

/-! ### Scans -/

/-- The progress of a scan of `total` files in batches of one size: a pair behind each batch. -/
def batchProgress (size total : Nat) : List ScanProgress :=
  (List.range ((total + size - 1) / size)).map fun i => (min ((i + 1) * size) total, total)

namespace Indexer

theorem scanFiles_eq (x : Indexer) (now : String) (root : Tree) (files : List Path)
    (hk : (files.map x.keyOf).Nodup) (s : Store) (h : s.Legible) :
    x.scanFiles now root (fun _ => false) files s =
      (.ok (files.foldl (x.step now root) ({ scanned := files.length }, s)).1,
        batchProgress (max x.settings.indexing.batchSize 1) files.length,
        (files.foldl (x.step now root) ({ scanned := files.length }, s)).2) := by
  have hsize : 1 ≤ max x.settings.indexing.batchSize 1 := Nat.le_max_right _ _
  have hflat := batches_flatten _ files.length hsize files (Nat.le_refl _)
  have hscan := x.scanBatches_eq now root (batches (max x.settings.indexing.batchSize 1) files.length files)
    (by rw [hflat]; exact hk) 0 { scanned := files.length } s h
  have hprogress := progressOf_batches _ files.length hsize files.length 0 files (Nat.le_refl _)
  rw [hflat] at hscan
  simp only [Nat.zero_add] at hprogress
  simp only [scanFiles, hscan, batchProgress]
  rw [← hprogress]
  rfl

/-- A scan that is not cancelled writes what taking its files one after another writes, counts each file
once, and tells the progress behind each batch; another scan of the same files finds all that the first
wrote and changes nothing. -/
theorem scan_takes_each_file (x : Indexer) (now : String) (root : Tree) (p : Path) (s : Store)
    (hs : s.Reached) (hk : ((root.walk x.settings.walkOptions p).map x.keyOf).Nodup) :
    ∃ (stats : ScanStats) (s' : Store),
      x.scan now root (fun _ => false) p s =
        (.ok stats,
          batchProgress (max x.settings.indexing.batchSize 1)
            (root.walk x.settings.walkOptions p).length, s') ∧
      (∀ stamp, s'.unstamped =
        (x.takeFiles root stamp (root.walk x.settings.walkOptions p) s).unstamped) ∧
      stats.scanned = (root.walk x.settings.walkOptions p).length ∧
      stats.scanned = stats.indexed + stats.cached + stats.skipped + stats.failed ∧
      ∀ later, ∃ again : ScanStats, again.Repeats stats ∧
        x.scan later root (fun _ => false) p s' =
          (.ok again,
            batchProgress (max x.settings.indexing.batchSize 1)
              (root.walk x.settings.walkOptions p).length, s') := by
  generalize hfiles : root.walk x.settings.walkOptions p = files at hk ⊢
  have hl := hs.legible
  obtain ⟨hp, hn⟩ := x.foldl_step_processed now root files { scanned := files.length } s
  obtain ⟨hl', -⟩ := x.foldl_step_legible now root files { scanned := files.length } s hl
  have hstore := x.foldl_step_store now root files { scanned := files.length } s
  refine ⟨_, _, by rw [scan, hfiles]; exact x.scanFiles_eq now root files hk s hl, ?_, hn, ?_, ?_⟩
  · intro stamp
    rw [hstore, takeFiles_unstamped, takeFiles_unstamped]
  · have hz : ({ scanned := files.length } : ScanStats).processed = 0 := rfl
    rw [hz, Nat.zero_add] at hp
    exact hn.trans hp.symm
  · intro later
    obtain ⟨hsame, hcounts⟩ := x.foldl_step_again now later root files hk { scanned := files.length }
      { scanned := files.length } ⟨rfl, rfl, rfl, rfl, rfl, rfl⟩ s hl _ fun _ _ => rfl
    refine ⟨_, hcounts, ?_⟩
    rw [scan, hfiles, x.scanFiles_eq later root files hk _ hl', hsame]

def singly : Indexer :=
  { plain with
    settings := { plain.settings with indexing := { plain.settings.indexing with batchSize := 1 } } }

def twoSources : Tree :=
  .directory
    [("a.go".toList, .file (.text "package a".toList)),
      ("b.py".toList, .file (.text "def f(): pass".toList))]

theorem twoSources_inOrder : twoSources.inOrder = twoSources := by
  simp only [twoSources, Tree.inOrder, Tree.entriesInOrder]
  rw [List.mergeSort_of_pairwise (by decide)]

theorem scan_takes_each_file_of_two :
    Store.empty.Reached ∧
      ((twoSources.walk singly.settings.walkOptions (.ofString ".")).map singly.keyOf).Nodup ∧
      ∃ (stats : ScanStats) (s' : Store),
        singly.scan "t0" twoSources (fun _ => false) (.ofString ".") .empty =
          (.ok stats, [(1, 2), (2, 2)], s') ∧ stats.scanned = 2 := by
  have hr : Store.empty.Reached := ⟨[], [], rfl⟩
  have hw : twoSources.walk singly.settings.walkOptions (.ofString ".") =
      [.ofString "./a.go", .ofString "./b.py"] := by
    have hplace : twoSources.locate (.ofString ".") = .ok ⟨[], twoSources⟩ := rfl
    simp only [Tree.walk, Tree.walkAs, hplace, twoSources_inOrder]
    decide +kernel
  have hk : ((twoSources.walk singly.settings.walkOptions (.ofString ".")).map singly.keyOf).Nodup := by
    rw [hw]
    decide
  obtain ⟨stats, s', hscan, -, hcount, -⟩ :=
    singly.scan_takes_each_file "t0" twoSources (.ofString ".") .empty hr hk
  rw [hw] at hscan hcount
  exact ⟨hr, hk, stats, s', hscan, hcount⟩

end Indexer

end CodeIndex
