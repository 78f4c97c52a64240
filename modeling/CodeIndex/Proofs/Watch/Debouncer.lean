import CodeIndex.Watch.Debouncer
import Mathlib.Data.List.Pairwise

/-!
# Runs of a debouncer

An event that is no creation evicts its path. Taking in an event and releasing those that are ready
neither lose an eviction nor make one up: what was released or still waits evicts the paths that what came
in evicts. When the last release is late enough, nothing waits.
-/

namespace CodeIndex

/-! ### Evictions -/

/-- Whether one of some events evicts a path. -/
def Evicts (events : List FileEvent) (p : Path) : Prop :=
  ∃ e ∈ events, e.kind ≠ .created ∧ e.path = p

theorem evicts_append (events more : List FileEvent) (p : Path) :
    Evicts (events ++ more) p ↔ Evicts events p ∨ Evicts more p := by
  simp only [Evicts, List.mem_append, or_and_right, exists_or]

theorem evicts_singleton (e : FileEvent) (p : Path) :
    Evicts [e] p ↔ e.kind ≠ .created ∧ e.path = p := by
  simp only [Evicts, List.mem_singleton, exists_eq_left]

theorem evicts_congr (events others : List FileEvent) (h : ∀ e, e ∈ events ↔ e ∈ others) (p : Path) :
    Evicts events p ↔ Evicts others p := by
  simp only [Evicts, h]

/-- Whether the paths of some events are spelled the same where they are the same. -/
def SpelledOnce (events : List FileEvent) : Prop :=
  ∀ a ∈ events, ∀ b ∈ events, a.path.same b.path = true → a.path = b.path

theorem SpelledOnce.of_paths (events others : List FileEvent) (h : SpelledOnce events)
    (hpaths : ∀ e ∈ others, ∃ f ∈ events, f.path = e.path) : SpelledOnce others := by
  intro a ha b hb hs
  obtain ⟨c, hc, hac⟩ := hpaths a ha
  obtain ⟨d, hd, hbd⟩ := hpaths b hb
  rw [← hac, ← hbd] at hs ⊢
  exact h c hc d hd hs

/-! ### Steps -/

/-- What happens to a debouncer: an event comes in, or those that are ready are released. -/
inductive WatchStep where
  | push (event : FileEvent) (now : Nat)
  | drain (now : Nat)

/-- The events that come in. -/
def pushed : List WatchStep → List FileEvent
  | [] => []
  | .push e _ :: rest => e :: pushed rest
  | .drain _ :: rest => pushed rest

namespace Debouncer

def events (d : Debouncer) : List FileEvent :=
  d.pending.map (·.event)

/-- What is released by some steps, and the debouncer behind them. -/
def run (d : Debouncer) : List WatchStep → List FileEvent × Debouncer
  | [] => ([], d)
  | .push e now :: rest => (d.push e now).run rest
  | .drain now :: rest =>
    ((d.drain now).1 ++ ((d.drain now).2.run rest).1, ((d.drain now).2.run rest).2)

theorem run_append (d : Debouncer) (steps more : List WatchStep) :
    d.run (steps ++ more) =
      ((d.run steps).1 ++ ((d.run steps).2.run more).1, ((d.run steps).2.run more).2) := by
  induction steps generalizing d with
  | nil => rfl
  | cons step rest ih =>
    cases step with
    | push e now => exact ih (d.push e now)
    | drain now => simp only [List.cons_append, run, ih, List.append_assoc]

/-- Whether no two events that wait are of the same path. -/
def OnePerPath (d : Debouncer) : Prop :=
  d.pending.Pairwise fun p q => p.event.path.same q.event.path = false

theorem same_symm (p q : Path) : p.same q = q.same p :=
  BEq.comm

theorem same_trans (p q r : Path) (h : p.same q = true) (h' : q.same r = true) : p.same r = true := by
  rw [Path.same, beq_iff_eq] at *
  exact h.trans h'

/-! ### Taking in an event -/

theorem merge_path (earlier : Option FileEvent) (later : FileEvent) :
    (merge earlier later).path = later.path := by
  unfold merge
  split
  · split <;> rfl
  · rfl

/-- Events of one path evict what their merge evicts. -/
theorem merge_evicts (earlier later : FileEvent) (h : earlier.path = later.path) (p : Path) :
    Evicts [merge (some earlier) later] p ↔ Evicts [earlier] p ∨ Evicts [later] p := by
  simp only [evicts_singleton, merge, h]
  by_cases he : earlier.kind = .created
  · simp [he]
  · by_cases hl : later.kind = .created
    · simp [he, hl]
    · simp [he, hl]

theorem push_onePerPath (d : Debouncer) (e : FileEvent) (now : Nat) (h : d.OnePerPath) :
    (d.push e now).OnePerPath := by
  refine List.pairwise_append.mpr ⟨h.filter _, List.pairwise_singleton _ _, ?_⟩
  intro p hp q hq
  rw [List.mem_singleton.mp hq, merge_path]
  simpa using (List.mem_filter.mp hp).2

/-- Where no two events are of the same path, one of a path is the only one. -/
theorem OnePerPath.unique (d : Debouncer) (h : d.OnePerPath) (p : Path) (q r : PendingEvent)
    (hq : q ∈ d.pending) (hr : r ∈ d.pending) (hqp : q.event.path.same p = true)
    (hrp : r.event.path.same p = true) : q = r := by
  by_contra hne
  have : Std.Symm fun a b : PendingEvent => a.event.path.same b.event.path = false :=
    ⟨fun a b hab => (same_symm b.event.path a.event.path).trans hab⟩
  have hdiffer := List.Pairwise.forall h hq hr hne
  have hsame := same_trans _ p _ hqp (same_symm r.event.path p ▸ hrp)
  rw [hdiffer] at hsame
  cases hsame

theorem push_evicts (d : Debouncer) (e : FileEvent) (now : Nat) (h : d.OnePerPath)
    (hspelled : SpelledOnce (d.events ++ [e])) (p : Path) :
    Evicts (d.push e now).events p ↔ Evicts (d.events ++ [e]) p := by
  cases hf : d.pending.find? fun q => q.event.path.same e.path with
  | none =>
    have hnone : ∀ q ∈ d.pending, (!q.event.path.same e.path) = true := by
      simpa using List.find?_eq_none.mp hf
    simp only [events, push, hf, List.filter_eq_self.mpr hnone, List.map_append]
    rfl
  | some q =>
    have hq := List.mem_of_find?_eq_some hf
    have hs : q.event.path.same e.path = true :=
      List.find?_some (p := fun q : PendingEvent => q.event.path.same e.path) hf
    have hpath : q.event.path = e.path := hspelled _ (List.mem_append_left _ (List.mem_map_of_mem hq)) _
      (List.mem_append_right _ List.mem_cons_self) hs
    -- the one event of the path gives way to its merge with the new one
    have hsplit : ∀ f, f ∈ (d.pending.filter fun q => !q.event.path.same e.path).map (·.event) ++
        [q.event] ↔ f ∈ d.events := by
      intro f
      simp only [events, List.mem_append, List.mem_map, List.mem_filter, List.mem_singleton]
      constructor
      · rintro (⟨r, ⟨hr, -⟩, rfl⟩ | rfl)
        · exact ⟨r, hr, rfl⟩
        · exact ⟨q, hq, rfl⟩
      · rintro ⟨r, hr, rfl⟩
        by_cases hrs : r.event.path.same e.path = true
        · exact Or.inr (h.unique d e.path r q hr hq hrs hs ▸ rfl)
        · exact Or.inl ⟨r, ⟨hr, by simp [hrs]⟩, rfl⟩
    have hbefore := evicts_congr _ _ hsplit p
    rw [evicts_append] at hbefore
    simp only [events, push, hf, List.map_append, Option.map_some, List.map_cons, List.map_nil]
    rw [evicts_append, merge_evicts q.event e hpath, ← or_assoc, hbefore, ← evicts_append]
    rfl

theorem push_paths (d : Debouncer) (e : FileEvent) (now : Nat) :
    ∀ f ∈ (d.push e now).events, ∃ g ∈ d.events ++ [e], g.path = f.path := by
  intro f hf
  simp only [events, push, List.map_append, List.map_cons, List.map_nil, List.mem_append,
    List.mem_singleton, List.mem_map, List.mem_filter] at hf
  rcases hf with ⟨q, ⟨hq, -⟩, rfl⟩ | rfl
  · exact ⟨q.event, List.mem_append_left _ (List.mem_map_of_mem hq), rfl⟩
  · exact ⟨e, List.mem_append_right _ List.mem_cons_self, (merge_path _ e).symm⟩

/-! ### Releasing events -/

theorem drain_onePerPath (d : Debouncer) (now : Nat) (h : d.OnePerPath) :
    (d.drain now).2.OnePerPath :=
  List.Pairwise.filter _ h

/-- Each event that waits is released or waits on. -/
theorem mem_drain (d : Debouncer) (now : Nat) (e : FileEvent) :
    e ∈ (d.drain now).1 ++ (d.drain now).2.events ↔ e ∈ d.events := by
  simp only [drain, events, List.mem_append, List.mem_mergeSort, List.mem_map, List.mem_filter]
  constructor
  · rintro (⟨q, ⟨hq, -⟩, rfl⟩ | ⟨q, ⟨hq, -⟩, rfl⟩) <;> exact ⟨q, hq, rfl⟩
  · rintro ⟨q, hq, rfl⟩
    by_cases hr : d.isReady now q = true
    · exact Or.inl ⟨q, ⟨hq, hr⟩, rfl⟩
    · exact Or.inr ⟨q, ⟨hq, by simp [hr]⟩, rfl⟩

theorem drain_pending_of_all (d : Debouncer) (now : Nat)
    (h : ∀ p ∈ d.pending, p.seen + d.interval ≤ now) : (d.drain now).2.pending = [] := by
  refine List.filter_eq_nil_iff.mpr fun p hp => ?_
  have hready : d.interval ≤ now - p.seen := by
    have hle := h p hp
    omega
  simp [isReady, hready]

/-! ### Runs -/

/-- What is released or still waits evicts what what waited before or came in evicts. -/
theorem run_evicts (d : Debouncer) (steps : List WatchStep) (h : d.OnePerPath)
    (hspelled : SpelledOnce (d.events ++ pushed steps)) (p : Path) :
    Evicts ((d.run steps).1 ++ (d.run steps).2.events) p ↔ Evicts (d.events ++ pushed steps) p := by
  induction steps generalizing d with
  | nil => simp only [run, pushed, List.nil_append, List.append_nil]
  | cons step rest ih =>
    cases step with
    | push e now =>
      -- the event moves from what is to come to what waits, and its merge keeps its path
      have hbefore : ∀ f ∈ d.events ++ [e] ++ pushed rest, f ∈ d.events ++ pushed (.push e now :: rest) := by
        intro f hf
        rwa [List.append_assoc] at hf
      have hfirst : SpelledOnce (d.events ++ [e]) := by
        refine hspelled.of_paths _ _ fun f hf => ⟨f, ?_, rfl⟩
        exact hbefore f (List.mem_append_left _ hf)
      have hrest : SpelledOnce ((d.push e now).events ++ pushed rest) := by
        refine hspelled.of_paths _ _ fun f hf => ?_
        rcases List.mem_append.mp hf with hf | hf
        · obtain ⟨g, hg, hp⟩ := d.push_paths e now f hf
          exact ⟨g, hbefore g (List.mem_append_left _ hg), hp⟩
        · exact ⟨f, hbefore f (List.mem_append_right _ hf), rfl⟩
      have hpush := d.push_evicts e now h hfirst p
      simp only [run, pushed]
      rw [ih _ (d.push_onePerPath e now h) hrest, evicts_append, hpush, ← evicts_append,
        List.append_assoc, List.singleton_append]
    | drain now =>
      have hrest : SpelledOnce ((d.drain now).2.events ++ pushed rest) := by
        refine hspelled.of_paths _ _ fun f hf => ⟨f, ?_, rfl⟩
        rcases List.mem_append.mp hf with hf | hf
        · exact List.mem_append_left _ ((d.mem_drain now f).mp (List.mem_append_right _ hf))
        · exact List.mem_append_right _ hf
      have hdrain := evicts_congr _ _ (d.mem_drain now) p
      simp only [run, pushed]
      rw [List.append_assoc, evicts_append, ih _ (d.drain_onePerPath now h) hrest, ← evicts_append,
        ← List.append_assoc, evicts_append, hdrain, ← evicts_append]

theorem run_interval (d : Debouncer) (steps : List WatchStep) : (d.run steps).2.interval = d.interval := by
  induction steps generalizing d with
  | nil => rfl
  | cons step rest ih =>
    cases step with
    | push e now => exact ih (d.push e now)
    | drain now => exact ih (d.drain now).2

/-- What waits has waited since the time of an event that came in, or all along. -/
theorem run_seen (d : Debouncer) (steps : List WatchStep) :
    ∀ p ∈ (d.run steps).2.pending, p ∈ d.pending ∨ ∃ e, .push e p.seen ∈ steps := by
  induction steps generalizing d with
  | nil => exact fun p hp => Or.inl hp
  | cons step rest ih =>
    intro p hp
    cases step with
    | push e now =>
      rcases ih (d.push e now) p hp with hp | ⟨f, hf⟩
      · rcases List.mem_append.mp hp with hp | hp
        · exact Or.inl ((List.mem_filter.mp hp).1)
        · rw [List.mem_singleton.mp hp]
          exact Or.inr ⟨e, List.mem_cons_self⟩
      · exact Or.inr ⟨f, List.mem_cons_of_mem _ hf⟩
    | drain now =>
      rcases ih (d.drain now).2 p hp with hp | ⟨f, hf⟩
      · exact Or.inl ((List.mem_filter.mp hp).1)
      · exact Or.inr ⟨f, List.mem_cons_of_mem _ hf⟩

/-- From no waiting events on, and with a last release at least an interval behind all that came in, what
was released evicts what came in evicts, and nothing waits. -/
theorem run_drained (interval : Nat) (steps : List WatchStep) (last : Nat)
    (hspelled : SpelledOnce (pushed steps))
    (hlast : ∀ e now, .push e now ∈ steps → now + interval ≤ last) :
    (Debouncer.run { interval } (steps ++ [.drain last])).2 = { interval } ∧
      ∀ p, Evicts (Debouncer.run { interval } (steps ++ [.drain last])).1 p ↔
        Evicts (pushed steps) p := by
  have hnone : OnePerPath { interval } := List.Pairwise.nil
  have hevicts := run_evicts { interval } steps hnone hspelled
  have hseen := run_seen { interval } steps
  have hinterval := run_interval { interval } steps
  generalize hd : Debouncer.run { interval } steps = result at *
  have hempty := result.2.drain_pending_of_all last (by
    intro p hp
    rw [hinterval]
    obtain hp | ⟨e, he⟩ := hseen p hp
    · cases hp
    · exact hlast e p.seen he)
  have hend : (result.2.drain last).2 = { interval } := by
    have hkept : (result.2.drain last).2.interval = interval := hinterval
    cases hdrained : (result.2.drain last).2 with
    | mk i pending =>
      rw [hdrained] at hempty hkept
      exact congrArg₂ Debouncer.mk hkept hempty
  refine ⟨by simpa only [run_append, hd, run] using hend, fun p => ?_⟩
  have hdrain := evicts_congr _ _ (result.2.mem_drain last) p
  have hevents : (result.2.drain last).2.events = [] := by rw [events, hempty, List.map_nil]
  rw [hevents, List.append_nil] at hdrain
  simp only [run_append, hd, run, List.append_nil]
  rw [evicts_append, hdrain, ← evicts_append, hevicts p]
  rfl

end Debouncer

end CodeIndex
