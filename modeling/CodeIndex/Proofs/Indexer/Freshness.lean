import CodeIndex.Proofs.Indexer.Batches
import CodeIndex.Proofs.Indexer.Transparency
import CodeIndex.Proofs.RuleSet.Cpp
import CodeIndex.Proofs.Store.Rows

/-!
# Rows after a scan

A scan that succeeds leaves the rows of the current text for every file whose structure it finds, whatever
was stored for the file before. A file whose structure it does not find is skipped: its rows stay, even
those of an older text.
-/

namespace CodeIndex

/-! ### Hashes of one key -/

/-- Whether a legible store holds a good hash for a key. -/
def Store.Has (s : Store) (key : String) (good : String → Prop) : Prop :=
  s.Legible ∧ ∃ hash, s.contentHash key = .ok (some hash) ∧ good hash

section

variable (now : String) (key : String) (good : String → Prop)

theorem persist_has_own (e : FileEntry) (he : e.hasStrengths = true) (hp : e.path = key)
    (hg : good e.contentHash) (s : Store) (h : s.Legible) : (persist now e s).2.Has key good := by
  obtain ⟨s', hw, hl, hown, -⟩ := persist_legible now e he s h
  rw [hw]
  exact ⟨hl, e.contentHash, hp ▸ hown, hg⟩

theorem persist_has (e : FileEntry) (he : e.hasStrengths = true) (hg : e.path = key → good e.contentHash)
    (s : Store) (h : s.Has key good) : (persist now e s).2.Has key good := by
  obtain ⟨hl, hash, hs, hgood⟩ := h
  by_cases hp : e.path = key
  · exact persist_has_own now key good e he hp (hg hp) s hl
  · obtain ⟨s', hw, hl', -, hother⟩ := persist_legible now e he s hl
    rw [hw]
    exact ⟨hl', hash, (hother key (Ne.symm hp)).trans hs, hgood⟩

omit now in
theorem Store.Has.isSome (s : Store) (h : s.Has key good) : (s.fileRow? key).isSome := by
  obtain ⟨-, hash, hs, -⟩ := h
  cases hr : s.fileRow? key with
  | none =>
    simp only [Store.contentHash, hr] at hs
    cases hs
  | some row => rfl

/-- Where an entry of the key is among what is written, the key has a good hash afterwards. -/
theorem settle_has_written (prepared : List (Path × Prepared))
    (hstrong : ∀ r ∈ prepared, r.2.HasStrengths)
    (hgood : ∀ r ∈ prepared, ∀ e, r.2 = .entry e → e.path = key → good e.contentHash)
    (hmem : ∃ r ∈ prepared, ∃ e, r.2 = .entry e ∧ e.path = key) (stats : ScanStats) (s : Store)
    (h : s.Legible) : (settle now prepared stats s).2.Has key good := by
  induction prepared generalizing stats s with
  | nil =>
    obtain ⟨r, hr, -⟩ := hmem
    cases hr
  | cons r rest ih =>
    have hrest := fun q hq => hgood q (List.mem_cons_of_mem r hq)
    have hstrong' := fun q hq => hstrong q (List.mem_cons_of_mem r hq)
    have hl := r.2.write_legible now s h
    rw [Indexer.settle_cons now r.1 r.2 (hstrong r List.mem_cons_self) rest stats s h]
    obtain ⟨q, hq, e, he, hp⟩ := hmem
    rcases List.mem_cons.mp hq with rfl | hq
    · have hown := persist_has_own now key good e (hstrong _ List.mem_cons_self e he) hp
        (hgood _ List.mem_cons_self e he hp) s h
      refine Indexer.settle_invariant (Store.Has · key good) now rest ?_ _ _ (by rw [he]; exact hown)
      exact fun r hr d hd => persist_has now key good d (hstrong' r hr d hd) (hrest r hr d hd)
    · exact ih hstrong' hrest ⟨q, hq, e, he, hp⟩ _ _ hl

end

/-! ### Other keys -/

theorem persist_rowsOf_other (now : String) (e : FileEntry) (he : e.hasStrengths = true)
    (ho : e.OwnsEdges) (path : String) (h : path ≠ e.path) (s : Store) :
    (persist now e s).2.rowsOf path = s.rowsOf path := by
  cases hs : s.contentHash e.path with
  | error error => simp only [persist, Store.upsert, hs, bind, Except.bind]
  | ok stored =>
    by_cases hc : stored = some e.contentHash
    · rw [persist_of_hit now e s (hc ▸ hs)]
    · obtain ⟨hf, ht, hedges⟩ := recordAll_frame now e.path e.sightings (s.write now e)
      rw [persist_of_miss now e he s stored hs hc, Store.rowsOf_of_tables _ _ path hf ht hedges]
      exact Store.rowsOf_write_other now e ho s path h

namespace Indexer

/-! ### Files whose structure is found -/

/-- Whether a file is a text in a known language whose structure is found. -/
def Indexable (root : Tree) (q : Path) : Prop :=
  ∃ language t, Language.ofPath? q = some language ∧ root.textAt q = .ok t ∧
    (Registry.standard.extract language t).toBool = true

/-- Against a legible store such a file is prepared as an entry, unless its hash is stored. -/
theorem prepare_indexable (x : Indexer) (root : Tree) (q : Path) (hq : Indexable root q) (s : Store)
    (h : s.Legible) :
    (∃ t, root.textAt q = .ok t ∧ s.contentHash (x.keyOf q) = .ok (some (CodeIndex.contentHash t))) ∨
      ∃ e, x.prepare root s q = .entry e := by
  obtain ⟨language, t, hl, ht, hx⟩ := hq
  obtain ⟨stored, hs⟩ := Store.contentHash_legible s h (x.keyOf q)
  by_cases hc : stored = some (CodeIndex.contentHash t)
  · exact Or.inl ⟨t, ht, hc ▸ hs⟩
  · exact Or.inr ⟨_, (x.prepare_eq_entry root s q _).mpr ⟨language, t, stored, hl, ht, hs, hc, hx, rfl⟩⟩

/-- Whether a hash is that of the text of a file in a list with a given key. -/
def HashAmong (x : Indexer) (root : Tree) (files : List Path) (key hash : String) : Prop :=
  ∃ q ∈ files, x.keyOf q = key ∧ ∃ t, root.textAt q = .ok t ∧ hash = CodeIndex.contentHash t

theorem prepare_hashAmong (x : Indexer) (root : Tree) (files : List Path) (q : Path) (hq : q ∈ files)
    (before : Store) (e : FileEntry) (h : x.prepare root before q = .entry e) :
    x.HashAmong root files e.path e.contentHash := by
  obtain ⟨language, t, stored, -, ht, -, -, -, rfl⟩ := (x.prepare_eq_entry root before q e).mp h
  exact ⟨q, hq, rfl, t, ht, rfl⟩

/-- A batch keeps the hash of a key good, and makes it so if the structure of a file with the key is
found. -/
theorem batch_has (x : Indexer) (now : String) (root : Tree) (files batch : List Path) (key : String)
    (hbatch : ∀ q ∈ batch, q ∈ files) (stats : ScanStats) (s : Store) (h : s.Legible)
    (hstart : s.Has key (x.HashAmong root files key) ∨
      ∃ q ∈ batch, x.keyOf q = key ∧ Indexable root q) :
    (settle now (batch.map fun p => (p, x.prepare root s p)) stats s).2.Has key
      (x.HashAmong root files key) := by
  have hgood : ∀ r ∈ batch.map fun p => (p, x.prepare root s p), ∀ e, r.2 = .entry e →
      e.path = key → x.HashAmong root files key e.contentHash := by
    intro r hm e he hp
    obtain ⟨q, hq, rfl⟩ := List.mem_map.mp hm
    exact hp ▸ x.prepare_hashAmong root files q (hbatch q hq) s e he
  have hstrong := x.batch_hasStrengths root batch s
  have hkeep := settle_invariant (Store.Has · key (x.HashAmong root files key)) now _
    (fun r hm e he => persist_has now key _ e (hstrong r hm e he) (hgood r hm e he)) stats s
  obtain hhas | ⟨q, hq, hk, hi⟩ := hstart
  · exact hkeep hhas
  · rcases x.prepare_indexable root q hi s h with ⟨t, ht, hs⟩ | ⟨e, he⟩
    · exact hkeep ⟨h, _, hk ▸ hs, q, hbatch q hq, hk, t, ht, rfl⟩
    · have hpath := (x.prepare_path root q s e he).trans hk
      exact settle_has_written now key _ _ hstrong hgood ⟨_, List.mem_map_of_mem hq, e, he, hpath⟩ stats s h

theorem scanBatches_has (x : Indexer) (now : String) (root : Tree) (isCancelled : Nat → Bool)
    (files : List Path) (key : String) (list : List (List Path))
    (hlist : ∀ batch ∈ list, ∀ q ∈ batch, q ∈ files) (done : Nat) (stats stats' : ScanStats)
    (told : List ScanProgress) (s s' : Store) (h : s.Legible)
    (hstart : s.Has key (x.HashAmong root files key) ∨
      ∃ batch ∈ list, ∃ q ∈ batch, x.keyOf q = key ∧ Indexable root q)
    (hr : x.scanBatches now root isCancelled done list stats s = (.ok stats', told, s')) :
    s'.Has key (x.HashAmong root files key) := by
  induction list generalizing done stats told s with
  | nil =>
    obtain hhas | ⟨batch, hb, -⟩ := hstart
    · cases hr
      exact hhas
    · cases hb
  | cons batch rest ih =>
    have hrest := fun b hb => hlist b (List.mem_cons_of_mem batch hb)
    by_cases hc : isCancelled done = true
    · simp only [scanBatches, hc, ite_true] at hr
      cases hr
    · have hbatch := x.batch_has now root files batch key (hlist batch List.mem_cons_self) stats s h
      have hl := writeAll_legible now (batch.map fun p => (p, x.prepare root s p)) s h
      obtain ⟨stats₁, hw⟩ := settle_writes now _ (x.batch_hasStrengths root batch s) stats s h
      simp only [scanBatches, hc, Bool.false_eq_true, ite_false, hw] at hr hbatch
      generalize hscan : x.scanBatches now root isCancelled (done + 1) rest stats₁ _ = result at hr
      obtain ⟨final, progress, t⟩ := result
      cases hr
      refine ih hrest (done + 1) stats₁ progress _ hl ?_ hscan
      obtain hhas | ⟨b, hb, q, hq, hk, hi⟩ := hstart
      · exact Or.inl (hbatch (Or.inl hhas))
      · rcases List.mem_cons.mp hb with rfl | hb
        · exact Or.inl (hbatch (Or.inr ⟨q, hq, hk, hi⟩))
        · exact Or.inr ⟨b, hb, q, hq, hk, hi⟩

theorem scanBatches_succeeds (x : Indexer) (now : String) (root : Tree) (list : List (List Path))
    (done : Nat) (stats : ScanStats) (s : Store) (h : s.Legible) :
    ∃ stats' told s', x.scanBatches now root (fun _ => false) done list stats s =
      (.ok stats', told, s') := by
  induction list generalizing done stats s with
  | nil => exact ⟨stats, [], s, rfl⟩
  | cons batch rest ih =>
    obtain ⟨stats₁, hw⟩ := settle_writes now _ (x.batch_hasStrengths root batch s) stats s h
    have hl := writeAll_legible now (batch.map fun p => (p, x.prepare root s p)) s h
    obtain ⟨stats', told, s', hr⟩ := ih (done + 1) stats₁ _ hl
    refine ⟨stats', (stats₁.processed, stats₁.scanned) :: told, s', ?_⟩
    simp only [scanBatches, Bool.false_eq_true, ite_false, hw, hr]

/-! ### Analyses and scans -/

/-- An analysis of a file in a known language has stored the hash of its text. -/
theorem analyze_has (x : Indexer) (now : String) (p : Path) (hp : (Language.ofPath? p).isSome) (t : Text)
    (s : Store) (h : s.Legible) :
    (x.analyze now p t s).2.Has (x.keyOf p) (· = CodeIndex.contentHash t) := by
  obtain ⟨language, hl⟩ := Option.isSome_iff_exists.mp hp
  obtain ⟨stored, hs⟩ := Store.contentHash_legible s h (x.keyOf p)
  simp only [analyze_store, hl, hs]
  by_cases hc : stored = some (CodeIndex.contentHash t)
  · simp only [hc, ite_true]
    exact ⟨h, _, hc ▸ hs, rfl⟩
  · simp only [hc, ite_false]
    exact persist_has_own now (x.keyOf p) (· = CodeIndex.contentHash t)
      (x.entryOf (x.keyOf p) language t) (x.entryOf_hasStrengths _ language t) rfl rfl s h

theorem run_legible (x : Indexer) (calls : List IndexerCall) : (x.run calls .empty).Legible := by
  obtain ⟨l, hl, hsound, -⟩ :=
    x.run_keeps (fun _ => True) calls (fun _ _ _ _ => trivial) .empty (x.empty_keeps _)
  exact hl ▸ Ledger.store_legible l hsound

/-- A scan of a legible store that is not cancelled succeeds. -/
theorem scan_succeeds (x : Indexer) (now : String) (root : Tree) (p : Path) (s : Store)
    (h : s.Legible) :
    ∃ stats told s', x.scan now root (fun _ => false) p s = (.ok stats, told, s') :=
  x.scanBatches_succeeds now root _ 0 _ s h

/-- A scan that succeeds has stored a file whose structure is found, with the hash of its text or of that
of a file with the same key. -/
theorem scan_has (x : Indexer) (now : String) (root : Tree) (isCancelled : Nat → Bool) (p : Path)
    (stats : ScanStats) (told : List ScanProgress) (s s' : Store) (h : s.Legible)
    (hr : x.scan now root isCancelled p s = (.ok stats, told, s'))
    (q : Path) (hq : q ∈ root.walk x.settings.walkOptions p) (hi : Indexable root q) :
    s'.Has (x.keyOf q) (x.HashAmong root (root.walk x.settings.walkOptions p) (x.keyOf q)) := by
  have hflat := batches_flatten (max x.settings.indexing.batchSize 1)
    (root.walk x.settings.walkOptions p).length (Nat.le_max_right _ _)
    (root.walk x.settings.walkOptions p) (Nat.le_refl _)
  have hmem := hq
  rw [← hflat] at hmem
  obtain ⟨batch, hb, hq'⟩ := List.mem_flatten.mp hmem
  exact x.scanBatches_has now root isCancelled _ (x.keyOf q) _ (mem_of_batches _ _ _) 0 _ stats told s s'
    h (Or.inr ⟨batch, hb, q, hq', rfl, hi⟩) hr

/-- A scan leaves the rows of a key where no file with the key has a structure that is found. -/
theorem scan_rowsOf_skipped (x : Indexer) (now : String) (root : Tree) (isCancelled : Nat → Bool)
    (p : Path) (s : Store) (key : String)
    (hskip : ∀ q ∈ root.walk x.settings.walkOptions p, x.keyOf q = key → ¬Indexable root q) :
    (x.scan now root isCancelled p s).2.2.rowsOf key = s.rowsOf key := by
  refine x.scan_invariant (fun t => t.rowsOf key = s.rowsOf key) now root isCancelled p ?_ s rfl
  intro q hq before e he t ht
  have hpath := x.prepare_path root q before e he
  obtain ⟨language, u, stored, hl, hu, -, -, hx, rfl⟩ := (x.prepare_eq_entry root before q e).mp he
  have hne : key ≠ x.keyOf q := fun hk => hskip q hq hk.symm ⟨language, u, hl, hu, hx⟩
  exact (persist_rowsOf_other now _ (x.entryOf_hasStrengths _ language u)
    (x.entryOf_ownsEdges _ language u) key (hpath ▸ hne) t).trans ht

theorem walk_named (root : Tree) (options : WalkOptions) (p q : Path)
    (h : q ∈ root.walk options p) : q.fileName?.isSome := by
  simp only [Tree.walk, Tree.walkAs] at h
  cases hp : root.locate p with
  | error error =>
    rw [hp] at h
    cases h
  | ok place =>
    rw [hp] at h
    have hext := (List.mem_filter.mp (List.mem_of_mem_take h)).2
    cases hn : q.fileName? with
    | none => simp [hasExtension, Path.extension?, hn] at hext
    | some name => rfl

/-- What a store of computed entries holds for a key with a row: the rows of the entry of a text, for a
path with the key. -/
theorem rowsOf_keeps (x : Indexer) (read : Text → Prop) (s : Store) (h : x.Keeps read s) (key : String)
    (hrow : (s.fileRow? key).isSome) :
    ∃ p language u written, Language.ofPath? p = some language ∧ x.keyOf p = key ∧
      s.contentHash key = .ok (some (CodeIndex.contentHash u)) ∧
      s.rowsOf key = (Stamped.mk written (x.entryOf key language u)).rows := by
  obtain ⟨l, rfl, hsound, hf⟩ := h
  rw [Ledger.fileRow?_store, Option.isSome_map] at hrow
  obtain ⟨⟨written, e⟩, hw⟩ := Option.isSome_iff_exists.mp hrow
  have hkey : e.path = key := ((Ledger.stored_eq_some l hsound key _).mp hw).2
  obtain ⟨p, language, u, hl, -, he⟩ := hf key _ hw
  have he : e = x.entryOf (x.keyOf p) language u := he
  subst he
  have hkey : x.keyOf p = key := hkey
  subst hkey
  refine ⟨p, language, u, written, hl, rfl, ?_, ?_⟩
  · rw [Ledger.contentHash_store, hw]
    rfl
  · rw [Ledger.rowsOf_store l hsound, hw]
    rfl

/-- After a scan that succeeds, a scanned file with a row is in a known language. If its structure is
found, its rows are those of an entry with the hash of its text, or of that of another scanned file with
its key; where no scanned file with its key has a structure that is found, its rows are as they were. -/
theorem scan_refreshes (x : Indexer) (calls : List IndexerCall) (now : String) (root : Tree)
    (isCancelled : Nat → Bool) (p : Path) (stats : ScanStats) (told : List ScanProgress) (s' : Store)
    (h : x.scan now root isCancelled p (x.run calls .empty) = (.ok stats, told, s'))
    (q : Path) (hq : q ∈ root.walk x.settings.walkOptions p)
    (hrow : (s'.fileRow? (x.keyOf q)).isSome) :
    ∃ language, Language.ofPath? q = some language ∧
      (Indexable root q →
        ∃ other ∈ root.walk x.settings.walkOptions p, x.keyOf other = x.keyOf q ∧
          ∃ t u written, root.textAt other = .ok t ∧
            s'.contentHash (x.keyOf q) = .ok (some (CodeIndex.contentHash t)) ∧
            CodeIndex.contentHash u = CodeIndex.contentHash t ∧
            s'.rowsOf (x.keyOf q) = (Stamped.mk written (x.entryOf (x.keyOf q) language u)).rows) ∧
      ((∀ other ∈ root.walk x.settings.walkOptions p, x.keyOf other = x.keyOf q →
          ¬Indexable root other) →
        s'.rowsOf (x.keyOf q) = (x.run calls .empty).rowsOf (x.keyOf q)) := by
  have hkeeps := x.run_keeps (fun _ => True) calls (fun _ _ _ _ => trivial) .empty (x.empty_keeps _)
  have hafter := x.perform_keeps (fun _ => True) (.scan now root isCancelled p)
    (fun _ _ => trivial) _ hkeeps
  simp only [perform, h] at hafter
  obtain ⟨p₀, language, u, written, hl, hkey, hstored, hrows⟩ :=
    x.rowsOf_keeps _ s' hafter (x.keyOf q) hrow
  have hname := x.fileName_of_keyOf p₀ q hkey (fileName_of_ofPath p₀ language hl)
    (walk_named root _ p q hq)
  refine ⟨language, (ofPath_of_fileName p₀ q hname) ▸ hl, fun hi => ?_, fun hskip => ?_⟩
  · obtain ⟨-, hash, hh, other, hother, hk, t, ht, rfl⟩ := x.scan_has now root isCancelled p stats told _
      s' (x.run_legible calls) h q hq hi
    have hsame : CodeIndex.contentHash u = CodeIndex.contentHash t :=
      Option.some.inj (Except.ok.inj (hstored.symm.trans hh))
    exact ⟨other, hother, hk, t, u, written, ht, hh, hsame, hrows⟩
  · have hkept := x.scan_rowsOf_skipped now root isCancelled p (x.run calls .empty) (x.keyOf q) hskip
    rwa [h] at hkept

theorem scan_refreshes_changed :
    let root : Tree := .directory [("a.go".toList, .file (.text "package a".toList))]
    let calls : List IndexerCall := [.analyze "t0" (.ofString "./a.go") "package b".toList]
    Path.ofString "./a.go" ∈ root.walk plain.settings.walkOptions (.ofString ".") ∧
      ∃ (stats : ScanStats) (told : List ScanProgress) (s' : Store),
        plain.scan "t1" root (fun _ => false) (.ofString ".") (plain.run calls .empty) =
          (.ok stats, told, s') ∧
        (s'.fileRow? "./a.go").isSome ∧
        s'.contentHash "./a.go" = .ok (some (CodeIndex.contentHash "package a".toList)) := by
  intro root calls
  have hwalk : root.walk plain.settings.walkOptions (.ofString ".") = [.ofString "./a.go"] := by
    decide +kernel
  have hq : Path.ofString "./a.go" ∈ root.walk plain.settings.walkOptions (.ofString ".") :=
    hwalk ▸ List.mem_singleton.mpr rfl
  have htext : root.textAt (.ofString "./a.go") = .ok "package a".toList := rfl
  have hi : Indexable root (.ofString "./a.go") :=
    ⟨.go, _, by decide, htext, by decide +kernel⟩
  have hlegible := plain.run_legible calls
  obtain ⟨stats, told, s', hscan⟩ := plain.scan_succeeds "t1" root (.ofString ".") _ hlegible
  have hrow := (plain.scan_has "t1" root _ (.ofString ".") stats told _ s' hlegible hscan _ hq hi).isSome
  obtain ⟨language, -, hfresh, -⟩ := plain.scan_refreshes calls "t1" root (fun _ => false)
    (.ofString ".") stats told s' hscan (.ofString "./a.go") hq hrow
  obtain ⟨other, hother, -, t, u, written, ht, hh, -⟩ := hfresh hi
  rw [hwalk, List.mem_singleton] at hother
  subst hother
  cases htext.symm.trans ht
  exact ⟨hq, stats, told, s', hscan, hrow, hh⟩

/-- Whether the row of a file, if there is one, has the hash of its text. -/
def Fresh (x : Indexer) (root : Tree) (s : Store) (q : Path) : Prop :=
  ∀ t, root.textAt q = .ok t → (s.fileRow? (x.keyOf q)).isSome →
    s.contentHash (x.keyOf q) = .ok (some (CodeIndex.contentHash t))

def unfound : Tree := .directory [("a.c".toList, .file (.text "class A \x7bé".toList))]

/-- A file whose structure is not found keeps the row of its older text. -/
theorem scan_keeps_unfound :
    ∃ (stats : ScanStats) (told : List ScanProgress) (s' : Store),
      plain.scan "t1" unfound (fun _ => false) (.ofString ".")
          (plain.run [.analyze "t0" (.ofString "./a.c") "x".toList] .empty) = (.ok stats, told, s') ∧
        .ofString "./a.c" ∈ unfound.walk plain.settings.walkOptions (.ofString ".") ∧
        ¬plain.Fresh unfound s' (.ofString "./a.c") := by
  have hwalk : unfound.walk plain.settings.walkOptions (.ofString ".") = [.ofString "./a.c"] := by
    decide +kernel
  have htext : unfound.textAt (.ofString "./a.c") = .ok "class A \x7bé".toList := rfl
  have hfound : (Registry.standard.extract .c "class A \x7bé".toList).toBool = false := by
    have hdescribe : Cpp.describe? .c "class A \x7bé".toList = none := by
      obtain ⟨header, hheader, hrest⟩ : ∃ header ∈ Cpp.classHeader.findAll "class A \x7bé".toList,
          header.stop.rest = ['é'] := by
        have hfirst : (Cpp.classHeader.findAll "class A \x7bé".toList).head?.map (·.stop.rest) =
            some ['é'] := by decide +kernel
        obtain ⟨header, hhead, hrest⟩ := Option.map_eq_some_iff.mp hfirst
        exact ⟨header, List.mem_of_head? hhead, hrest⟩
      refine (Cpp.describe?_eq_none .c _).mpr ⟨header, hheader, fun before hb => ?_, 'é', rfl, by decide⟩
      rw [hrest] at hb
      exact Nat.le_trans (hb.sublist.count_le '}') (Nat.zero_le _)
    have hextract : ∀ t : Text, Registry.standard.extract .c t = foundOrCut "cpp" .c (Cpp.describe? .c t) :=
      fun _ => rfl
    rw [hextract, hdescribe]
    rfl
  have hhash : CodeIndex.contentHash "x".toList ≠ CodeIndex.contentHash "class A \x7bé".toList := by
    decide +kernel
  have hold : (plain.run [.analyze "t0" (.ofString "./a.c") "x".toList] .empty).Has
      (plain.keyOf (.ofString "./a.c")) (· = CodeIndex.contentHash "x".toList) :=
    plain.analyze_has "t0" (.ofString "./a.c") (by decide) "x".toList .empty (plain.run_legible [])
  obtain ⟨stats, told, s', hscan⟩ := plain.scan_succeeds "t1" unfound (.ofString ".") _
    (plain.run_legible [.analyze "t0" (.ofString "./a.c") "x".toList])
  have hkept := plain.scan_rowsOf_skipped "t1" unfound (fun _ => false) (.ofString ".")
    (plain.run [.analyze "t0" (.ofString "./a.c") "x".toList] .empty) (plain.keyOf (.ofString "./a.c")) (by
      rintro q hq - ⟨language, t, hl, ht, hx⟩
      rw [hwalk, List.mem_singleton] at hq
      subst hq
      cases htext.symm.trans ht
      cases hl
      exact absurd (hfound.symm.trans hx) Bool.false_ne_true)
  rw [hscan] at hkept
  have hrow : s'.fileRow? (plain.keyOf (.ofString "./a.c")) =
      (plain.run [.analyze "t0" (.ofString "./a.c") "x".toList] .empty).fileRow?
        (plain.keyOf (.ofString "./a.c")) := by
    rw [Store.fileRow?_rowsOf, hkept, ← Store.fileRow?_rowsOf]
  refine ⟨stats, told, s', hscan, hwalk ▸ List.mem_singleton.mpr rfl, fun hfresh => ?_⟩
  have hnew := hfresh _ htext (by rw [hrow]; exact hold.isSome)
  obtain ⟨-, hash, hs, rfl⟩ := hold
  have hsame : s'.contentHash (plain.keyOf (.ofString "./a.c")) =
      (plain.run [.analyze "t0" (.ofString "./a.c") "x".toList] .empty).contentHash
        (plain.keyOf (.ofString "./a.c")) := by simp only [Store.contentHash, hrow]
  exact hhash (Option.some.inj (Except.ok.inj (hs.symm.trans (hsame.symm.trans hnew))))

def nested : Indexer :=
  { plain with settings := { plain.settings with workspaceRoot := some "a/a" } }

/-- One key for both files: that of the outer one is its path, that of the inner one is relative to the
root of the workspace. -/
def twoOfOneKey : Tree :=
  .directory [("a".toList, .directory
    [("a".toList, .directory [("a".toList, .directory [("x.go".toList, .file (.text "package b".toList))])]),
      ("x.go".toList, .file (.text "package a".toList))])]

theorem twoOfOneKey_walk : twoOfOneKey.walk nested.settings.walkOptions (.ofString "a") =
    [.ofString "a/a/a/x.go", .ofString "a/x.go"] := by
  have hplace : twoOfOneKey.locate (.ofString "a") =
      .ok ⟨["a".toList], (twoOfOneKey.child? "a".toList).getD .empty⟩ := rfl
  have hchild : twoOfOneKey.child? "a".toList = some (.directory
      [("a".toList, .directory [("a".toList, .directory [("x.go".toList, .file (.text "package b".toList))])]),
        ("x.go".toList, .file (.text "package a".toList))]) := rfl
  simp only [Tree.walk, Tree.walkAs, hplace, hchild, Option.getD_some, Tree.inOrder, Tree.entriesInOrder,
    List.mergeSort_singleton]
  rw [List.mergeSort_of_pairwise (by decide)]
  decide +kernel

/-- Of two files with one key and different texts, one has a row of the other. -/
theorem scan_shares_key :
    ∃ (stats : ScanStats) (told : List ScanProgress) (s' : Store),
      nested.scan "t0" twoOfOneKey (fun _ => false) (.ofString "a") (nested.run [] .empty) =
          (.ok stats, told, s') ∧
        ¬∀ q ∈ twoOfOneKey.walk nested.settings.walkOptions (.ofString "a"), Indexable twoOfOneKey q →
          nested.Fresh twoOfOneKey s' q := by
  have hhash : CodeIndex.contentHash "package a".toList ≠ CodeIndex.contentHash "package b".toList := by
    decide +kernel
  have houter : .ofString "a/x.go" ∈ twoOfOneKey.walk nested.settings.walkOptions (.ofString "a") := by
    rw [twoOfOneKey_walk]
    decide
  have hinner : .ofString "a/a/a/x.go" ∈
      twoOfOneKey.walk nested.settings.walkOptions (.ofString "a") := by
    rw [twoOfOneKey_walk]
    decide
  have hi : Indexable twoOfOneKey (.ofString "a/x.go") := ⟨.go, _, by decide, rfl, by decide +kernel⟩
  have hi' : Indexable twoOfOneKey (.ofString "a/a/a/x.go") :=
    ⟨.go, _, by decide, rfl, by decide +kernel⟩
  have hkey : nested.keyOf (.ofString "a/a/a/x.go") = nested.keyOf (.ofString "a/x.go") := by decide
  obtain ⟨stats, told, s', hscan⟩ := nested.scan_succeeds "t0" twoOfOneKey (.ofString "a") _
    (nested.run_legible [])
  have hrow := (nested.scan_has "t0" twoOfOneKey _ (.ofString "a") stats told _ s'
    (nested.run_legible []) hscan _ houter hi).isSome
  refine ⟨stats, told, s', hscan, fun hfresh => ?_⟩
  have ha := hfresh _ houter hi "package a".toList rfl hrow
  have hb := hfresh _ hinner hi' "package b".toList rfl (hkey ▸ hrow)
  rw [hkey] at hb
  exact hhash (Option.some.inj (Except.ok.inj (ha.symm.trans hb)))

/-- A scan may leave a row of an older text where it does not find the structure of the file, and where
several files have one key. -/
theorem scan_leaves_stale :
    (¬∀ (x : Indexer) (calls : List IndexerCall) (now : String) (root : Tree)
        (isCancelled : Nat → Bool) (p : Path) (stats : ScanStats) (told : List ScanProgress)
        (s' : Store), x.scan now root isCancelled p (x.run calls .empty) = (.ok stats, told, s') →
        ∀ q ∈ root.walk x.settings.walkOptions p, x.Fresh root s' q) ∧
      ¬∀ (x : Indexer) (calls : List IndexerCall) (now : String) (root : Tree)
        (isCancelled : Nat → Bool) (p : Path) (stats : ScanStats) (told : List ScanProgress)
        (s' : Store), x.scan now root isCancelled p (x.run calls .empty) = (.ok stats, told, s') →
        ∀ q ∈ root.walk x.settings.walkOptions p, Indexable root q → x.Fresh root s' q := by
  constructor
  · intro h
    obtain ⟨stats, told, s', hscan, hq, hstale⟩ := scan_keeps_unfound
    exact hstale (h plain _ "t1" unfound _ _ stats told s' hscan _ hq)
  · intro h
    obtain ⟨stats, told, s', hscan, hstale⟩ := scan_shares_key
    exact hstale (h nested _ "t0" twoOfOneKey _ _ stats told s' hscan)

end Indexer

end CodeIndex
