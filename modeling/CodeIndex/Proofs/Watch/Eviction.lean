import CodeIndex.Indexer.Scan
import CodeIndex.Proofs.Indexer.Analyze
import CodeIndex.Proofs.Store.Rows
import CodeIndex.Proofs.Watch.Debouncer

/-!
# Evictions by a watcher

A watcher debounces the events of its notices and hands what is released to the indexer. Once all is
released, the files that were changed or deleted are gone from the store, and nothing else is.
-/

namespace CodeIndex

namespace Indexer

/-! ### Events -/

/-- The keys of the paths that events evict. -/
def evicted (x : Indexer) (events : List FileEvent) : List String :=
  (events.filter (·.kind != .created)).map (x.keyOf ·.path)

theorem mem_evicted (x : Indexer) (events : List FileEvent) (key : String) :
    key ∈ x.evicted events ↔ ∃ p, Evicts events p ∧ x.keyOf p = key := by
  simp only [evicted, Evicts, List.mem_map, List.mem_filter, bne_iff_ne]
  constructor
  · rintro ⟨e, ⟨he, hk⟩, rfl⟩
    exact ⟨e.path, ⟨e, he, hk, rfl⟩, rfl⟩
  · rintro ⟨p, ⟨e, he, hk, rfl⟩, rfl⟩
    exact ⟨e, ⟨he, hk⟩, rfl⟩

theorem mem_evicted_flatMap (x : Indexer) (notices : List Notice) (key : String) :
    key ∈ x.evicted (notices.flatMap (·.events)) ↔
      ∃ n ∈ notices, ∃ e ∈ n.events, e.kind ≠ .created ∧ x.keyOf e.path = key := by
  simp only [mem_evicted, Evicts, List.mem_flatMap]
  constructor
  · rintro ⟨p, ⟨e, ⟨n, hn, he⟩, hk, rfl⟩, hkey⟩
    exact ⟨n, hn, e, he, hk, hkey⟩
  · rintro ⟨n, hn, e, he, hk, hkey⟩
    exact ⟨e.path, ⟨e, ⟨n, hn, he⟩, hk, rfl⟩, hkey⟩

theorem handleEvent_store (x : Indexer) (e : FileEvent) (s : Store) :
    (x.handleEvent e s).2 = s.without (x.evicted [e]) := by
  cases hk : e.kind with
  | created => simp [handleEvent, evicted, hk, Store.without_nil]
  | changed => simp [handleEvent, evicted, hk, forget, Store.remove_eq_without]
  | deleted => simp [handleEvent, evicted, hk, forget, Store.remove_eq_without]

/-- The store behind some events, one handled after another. -/
def handleAll (x : Indexer) (events : List FileEvent) (s : Store) : Store :=
  events.foldl (fun s e => (x.handleEvent e s).2) s

theorem handleAll_append (x : Indexer) (events more : List FileEvent) (s : Store) :
    x.handleAll (events ++ more) s = x.handleAll more (x.handleAll events s) :=
  List.foldl_append

theorem handleAll_store (x : Indexer) (events : List FileEvent) (s : Store) :
    x.handleAll events s = s.without (x.evicted events) := by
  induction events generalizing s with
  | nil => exact s.without_nil.symm
  | cons e rest ih =>
    have hsplit : x.evicted (e :: rest) = x.evicted [e] ++ x.evicted rest := by
      rw [evicted, evicted, evicted, ← List.map_append, ← List.filter_append, List.singleton_append]
    rw [hsplit, ← Store.without_without, ← handleEvent_store]
    exact ih _

/-! ### Watching -/

/-- A watcher at work: the debouncer and the store it acts on. -/
structure Watching where
  debouncer : Debouncer
  store : Store

/-- One step of a watcher, which hands what is released to the indexer. -/
def watchStep (x : Indexer) (w : Watching) : WatchStep → Watching
  | .push e now => { w with debouncer := w.debouncer.push e now }
  | .drain now =>
    { debouncer := (w.debouncer.drain now).2, store := x.handleAll (w.debouncer.drain now).1 w.store }

def watch (x : Indexer) (steps : List WatchStep) (w : Watching) : Watching :=
  steps.foldl x.watchStep w

/-- A watcher does to its store what handling all that is released does. -/
theorem watch_eq (x : Indexer) (steps : List WatchStep) (w : Watching) :
    x.watch steps w =
      { debouncer := (w.debouncer.run steps).2, store := x.handleAll (w.debouncer.run steps).1 w.store } := by
  induction steps generalizing w with
  | nil => rfl
  | cons step rest ih =>
    have hrest := ih (x.watchStep w step)
    cases step with
    | push e now => exact hrest
    | drain now =>
      rw [Debouncer.run, handleAll_append]
      exact hrest

/-- Notices whose events come in at any times, with any releases between them and one at least an interval
behind them all: what was stored for a changed or deleted file is gone, and all else is as it was. -/
theorem watch_evicts (x : Indexer) (interval : Nat) (notices : List Notice) (steps : List WatchStep)
    (hpushed : pushed steps = notices.flatMap (·.events))
    (hspelled : SpelledOnce (notices.flatMap (·.events))) (last : Nat)
    (hlast : ∀ e now, .push e now ∈ steps → now + interval ≤ last) (s : Store) :
    ∃ s', x.watch (steps ++ [.drain last]) ⟨{ interval }, s⟩ = ⟨{ interval }, s'⟩ ∧
      s' = s.without (x.evicted (notices.flatMap (·.events))) ∧
      s'.patterns = s.patterns ∧
      ∀ key,
        ((s.fileRow? key).isSome → ((s'.fileRow? key).isSome ↔
          ¬∃ n ∈ notices, ∃ e ∈ n.events, e.kind ≠ .created ∧ x.keyOf e.path = key)) ∧
        ((¬∃ n ∈ notices, ∃ e ∈ n.events, e.kind ≠ .created ∧ x.keyOf e.path = key) →
          s'.rowsOf key = s.rowsOf key) := by
  obtain ⟨hend, hevicts⟩ := Debouncer.run_drained interval steps last (hpushed ▸ hspelled) hlast
  rw [hpushed] at hevicts
  have hkeys : ∀ key, key ∈ x.evicted (Debouncer.run { interval } (steps ++ [.drain last])).1 ↔
      key ∈ x.evicted (notices.flatMap (·.events)) := by
    intro key
    simp only [mem_evicted, hevicts]
  have hwatch : x.watch (steps ++ [.drain last]) ⟨{ interval }, s⟩ =
      ⟨{ interval }, s.without (x.evicted (notices.flatMap (·.events)))⟩ := by
    rw [watch_eq, hend, handleAll_store, Store.without_congr _ _ hkeys]
  refine ⟨_, hwatch, rfl, rfl, fun key => ?_⟩
  have hrows := s.rowsOf_without (x.evicted (notices.flatMap (·.events))) key
  rw [← x.mem_evicted_flatMap]
  constructor
  · intro hrow
    rw [Store.fileRow?_rowsOf, hrows]
    split
    · next hk => simp [hk]
    · next hk => simpa [hk, ← Store.fileRow?_rowsOf] using hrow
  · intro hnone
    rw [hrows, if_neg hnone]

theorem watch_evicts_renamed :
    let notices : List Notice :=
      [⟨.renameBoth, [.ofString "a.go", .ofString "b.go"]⟩, ⟨.create, [.ofString "a.go", .ofString "c.go"]⟩]
    let steps : List WatchStep :=
      [.push ⟨.deleted, .ofString "a.go"⟩ 0, .push ⟨.created, .ofString "b.go"⟩ 0, .drain 50,
        .push ⟨.created, .ofString "a.go"⟩ 60, .push ⟨.created, .ofString "c.go"⟩ 60]
    let s := (Store.empty.write "t0" (plain.entryOf "a.go" .go "package a".toList)).write "t0"
      (plain.entryOf "c.go" .go "package c".toList)
    pushed steps = notices.flatMap (·.events) ∧ SpelledOnce (notices.flatMap (·.events)) ∧
      (∀ e now, .push e now ∈ steps → now + 100 ≤ 200) ∧
      ∃ s', plain.watch (steps ++ [.drain 200]) ⟨{ interval := 100 }, s⟩ = ⟨{ interval := 100 }, s'⟩ ∧
        (s.fileRow? "a.go").isSome ∧ ¬(s'.fileRow? "a.go").isSome ∧
        (s.fileRow? "c.go").isSome ∧ (s'.fileRow? "c.go").isSome := by
  intro notices steps s
  have hpushed : pushed steps = notices.flatMap (·.events) := by decide
  have hspelled : SpelledOnce (notices.flatMap (·.events)) := by unfold SpelledOnce; decide
  have hlast : ∀ e now, .push e now ∈ steps → now + 100 ≤ 200 := by
    intro e now he
    simp only [steps, List.mem_cons, WatchStep.push.injEq, reduceCtorEq, List.not_mem_nil, or_false,
      false_or] at he
    omega
  have ha : (s.fileRow? "a.go").isSome := by
    rw [Store.fileRow?_write_other _ _ _ _ (by decide)]
    exact congrArg Option.isSome (Store.fileRow?_write "t0" _ _)
  have hc : (s.fileRow? "c.go").isSome := congrArg Option.isSome (Store.fileRow?_write "t0" _ _)
  obtain ⟨s', hwatch, -, -, hkeys⟩ := plain.watch_evicts 100 notices steps hpushed hspelled 200 hlast s
  have hgone := (not_congr ((hkeys "a.go").1 ha)).mpr (by decide)
  have hkept := ((hkeys "c.go").1 hc).mpr (by decide)
  exact ⟨hpushed, hspelled, hlast, s', hwatch, ha, hgone, hc, hkept⟩

end Indexer

end CodeIndex
