import CodeIndex.Proofs.Path.Order
import CodeIndex.Proofs.Watch.Debouncer

/-!
# Bursts of events

The burst of a path is what came in for it since its last release. A debouncer keeps one event for each
path and the time of the last one, which is all of the burst that its next release needs: it stands for
the burst at every step, and a release answers for each path as the whole burst says.
-/

namespace CodeIndex

/-! ### What is seen of a debouncer -/

/-- An event that comes in at a time, or the events of a release. -/
inductive WatchRecord where
  | came (event : FileEvent) (now : Nat)
  | released (events : List FileEvent)

/-- What is seen of a debouncer over some steps. -/
def Debouncer.record (d : Debouncer) : List WatchStep → List WatchRecord
  | [] => []
  | .push e now :: rest => .came e now :: (d.push e now).record rest
  | .drain now :: rest => .released (d.drain now).1 :: (d.drain now).2.record rest

/-- Events in the order they came in, with their times. -/
abbrev Burst := List (FileEvent × Nat)

/-- The burst of a path behind one more record. -/
def Burst.extend (p : Path) (b : Burst) : WatchRecord → Burst
  | .came e now => if e.path.same p then b ++ [(e, now)] else b
  | .released events => if events.any (·.path.same p) then [] else b

/-- The events of a path that came in since its last release. -/
def burst (p : Path) (log : List WatchRecord) : Burst :=
  log.foldl (Burst.extend p) []

/-- The event that stands for a burst, with the time of the last one: the last event, but a change where
the last is a creation and one before it is not. -/
def Burst.standsFor? (b : Burst) : Option PendingEvent :=
  b.getLast?.map fun last =>
    if last.1.kind = .created ∧ ∃ x ∈ b.dropLast, x.1.kind ≠ .created then
      ⟨⟨.changed, last.1.path⟩, last.2⟩
    else ⟨last.1, last.2⟩

namespace Burst

theorem standsFor?_concat (b : Burst) (e : FileEvent) (now : Nat) :
    standsFor? (b ++ [(e, now)]) =
      some (if e.kind = .created ∧ ∃ x ∈ b, x.1.kind ≠ .created then ⟨⟨.changed, e.path⟩, now⟩
        else ⟨e, now⟩) := by
  rw [standsFor?, List.getLast?_concat, List.dropLast_concat]
  rfl

theorem standsFor?_eq_none (b : Burst) : b.standsFor? = none ↔ b = [] := by
  rw [standsFor?, Option.map_eq_none_iff, List.getLast?_eq_none_iff]

/-- A burst stands for a creation only if it is made of creations. -/
theorem standsFor?_created (b : Burst) (q : PendingEvent) (h : b.standsFor? = some q) :
    q.event.kind = .created ↔ ∀ x ∈ b, x.1.kind = .created := by
  rcases List.eq_nil_or_concat b with rfl | ⟨earlier, last, rfl⟩
  · cases h
  rw [List.concat_eq_append, standsFor?_concat, Option.some.injEq] at h
  rw [← h, List.concat_eq_append]
  split
  · next hmixed =>
    obtain ⟨-, x, hx, hkind⟩ := hmixed
    exact iff_of_false nofun fun hall => hkind (hall x (List.mem_append_left _ hx))
  · next hplain =>
    constructor
    · intro hlast
      refine List.forall_mem_append.mpr ⟨fun x hx => ?_, List.forall_mem_singleton.mpr hlast⟩
      by_contra hkind
      exact hplain ⟨hlast, x, hx, hkind⟩
    · exact fun hall => hall _ (List.mem_append_right _ List.mem_cons_self)

/-- What stands for a burst and one more event is the merge of what stood for it with the event. -/
theorem standsFor?_push (b : Burst) (e : FileEvent) (now : Nat) :
    standsFor? (b ++ [(e, now)]) = some ⟨Debouncer.merge (b.standsFor?.map (·.event)) e, now⟩ := by
  rw [standsFor?_concat]
  cases hb : b.standsFor? with
  | none =>
    rw [(standsFor?_eq_none b).mp hb]
    simp [Debouncer.merge]
  | some q =>
    have hkind : q.event.kind ≠ .created ↔ ∃ x ∈ b, x.1.kind ≠ .created := by
      simpa using not_congr (standsFor?_created b q hb)
    by_cases hmixed : e.kind = .created ∧ ∃ x ∈ b, x.1.kind ≠ .created
    · rw [if_pos hmixed, Option.map_some, Debouncer.merge, if_pos ⟨hkind.mpr hmixed.2, hmixed.1⟩]
    · rw [if_neg hmixed, Option.map_some, Debouncer.merge,
        if_neg fun hmerged => hmixed ⟨hmerged.2, hkind.mp hmerged.1⟩]

end Burst

namespace Debouncer

/-! ### One step -/

/-- Whether the events that wait are those that stand for the bursts of their paths. -/
structure Follows (d : Debouncer) (bursts : Path → Burst) : Prop where
  onePerPath : d.OnePerPath
  waiting : ∀ p, d.pending.filter (·.event.path.same p) = (bursts p).standsFor?.toList

theorem same_congr {p q : Path} (h : p.same q = true) (r : Path) : r.same p = r.same q := by
  rw [Path.same, beq_iff_eq] at h
  rw [Path.same, Path.same, h]

theorem Follows.push {d : Debouncer} {bursts : Path → Burst} (h : d.Follows bursts) (e : FileEvent)
    (now : Nat) : (d.push e now).Follows fun p => (bursts p).extend p (.came e now) where
  onePerPath := d.push_onePerPath e now h.onePerPath
  waiting p := by
    simp only [Debouncer.push, List.filter_append, List.filter_filter, Burst.extend]
    by_cases hsame : e.path.same p = true
    · have hearlier : d.pending.find? (·.event.path.same e.path) = (bursts p).standsFor? := by
        simp only [same_congr hsame]
        rw [← List.head?_filter, h.waiting p, Option.head?_toList]
      have hothers : d.pending.filter
          (fun q => q.event.path.same p && !q.event.path.same e.path) = [] := by
        refine List.filter_eq_nil_iff.mpr fun q _ => ?_
        rw [same_congr hsame]
        simp
      rw [hothers, hearlier, if_pos hsame, Burst.standsFor?_push]
      simp [merge_path, hsame]
    · have hothers : d.pending.filter (fun q => q.event.path.same p && !q.event.path.same e.path) =
          d.pending.filter (·.event.path.same p) := by
        refine List.filter_congr fun q _ => ?_
        by_cases hq : q.event.path.same p = true
        · have hne : q.event.path.same e.path = false := by
            rw [Bool.eq_false_iff]
            intro hqe
            exact hsame (same_trans _ _ _ (same_symm _ _ ▸ hqe) hq)
          rw [hq, hne]
          rfl
        · simp [hq]
      rw [hothers, if_neg hsame, h.waiting p]
      simp [merge_path, hsame]

/-- What is released for a path. -/
theorem Follows.released {d : Debouncer} {bursts : Path → Burst} (h : d.Follows bursts) (now : Nat)
    (p : Path) : (d.drain now).1.filter (·.path.same p) =
      (((bursts p).standsFor?.filter (d.isReady now)).map (·.event)).toList := by
  have hperm := List.mergeSort_perm ((d.pending.filter (d.isReady now)).map (·.event))
    fun a b => a.path.notAfter b.path
  have hready : ((d.pending.filter (d.isReady now)).map (·.event)).filter (·.path.same p) =
      (((bursts p).standsFor?.filter (d.isReady now)).map (·.event)).toList := by
    rw [List.filter_map, Option.toList_map, Option.toList_filter, ← h.waiting p, List.filter_filter,
      List.filter_filter]
    simp only [Function.comp_def, Bool.and_comm]
  have hreleased := hperm.filter (·.path.same p)
  rw [hready] at hreleased
  cases hone : (((bursts p).standsFor?.filter (d.isReady now)).map (·.event)) with
  | none =>
    rw [hone] at hreleased
    exact List.perm_nil.mp hreleased
  | some e =>
    rw [hone] at hreleased
    exact List.perm_singleton.mp hreleased

theorem Follows.drain {d : Debouncer} {bursts : Path → Burst} (h : d.Follows bursts) (now : Nat) :
    (d.drain now).2.Follows fun p => (bursts p).extend p (.released (d.drain now).1) where
  onePerPath := d.drain_onePerPath now h.onePerPath
  waiting p := by
    have hreleased := h.released now p
    have hkept : (d.drain now).2.pending.filter (·.event.path.same p) =
        (bursts p).standsFor?.toList.filter (!d.isReady now ·) := by
      rw [← h.waiting p, List.filter_filter]
      simp only [Debouncer.drain, List.filter_filter, Bool.and_comm]
    rw [hkept, Burst.extend]
    cases hstands : (bursts p).standsFor? with
    | none =>
      rw [hstands] at hreleased
      have hnone : (d.drain now).1.any (·.path.same p) = false := by
        simpa using List.filter_eq_nil_iff.mp hreleased
      rw [hnone, if_neg Bool.false_ne_true, hstands]
      rfl
    | some q =>
      rw [hstands] at hreleased
      by_cases hready : d.isReady now q = true
      · have hmem : q.event ∈ (d.drain now).1.filter (·.path.same p) := by
          rw [hreleased, Option.filter_some, if_pos hready]
          exact List.mem_singleton_self _
        have hany : (d.drain now).1.any (·.path.same p) = true :=
          List.any_eq_true.mpr ⟨q.event, List.mem_filter.mp hmem⟩
        rw [hany, if_pos rfl]
        simpa [Burst.standsFor?] using hready
      · have hnone : (d.drain now).1.any (·.path.same p) = false := by
          simp only [hready, Option.filter_some, Bool.false_eq_true, if_false] at hreleased
          simpa using List.filter_eq_nil_iff.mp hreleased
        rw [hnone, if_neg Bool.false_ne_true, hstands]
        simp [hready]

/-! ### Runs -/

theorem Follows.run {d : Debouncer} {bursts : Path → Burst} (h : d.Follows bursts)
    (steps : List WatchStep) :
    (d.run steps).2.Follows fun p => (d.record steps).foldl (Burst.extend p) (bursts p) := by
  induction steps generalizing d bursts with
  | nil => exact h
  | cons step rest ih =>
    cases step with
    | push e now => exact ih (h.push e now)
    | drain now => exact ih (h.drain now)

/-- Behind any steps, what waits stands for the bursts of the paths. -/
theorem run_follows (interval : Nat) (steps : List WatchStep) :
    (Debouncer.run { interval } steps).2.Follows fun p =>
      burst p (Debouncer.record { interval } steps) :=
  have hnothing : Debouncer.Follows { interval } fun _ => [] := ⟨.nil, fun _ => rfl⟩
  hnothing.run steps

/-- What is released comes in the order of its paths, which are not the same. -/
theorem OnePerPath.drain_sorted {d : Debouncer} (h : d.OnePerPath) (now : Nat) :
    (d.drain now).1.Pairwise fun a b => a.path.IsBefore b.path := by
  have hsorted : (d.drain now).1.Pairwise fun a b => a.path.notAfter b.path = true :=
    List.pairwise_mergeSort (fun a b c => Path.notAfter_trans a.path b.path c.path)
      (fun a b => Path.notAfter_total a.path b.path) _
  have hdiffer : (d.drain now).1.Pairwise fun a b => a.path.same b.path = false := by
    have hready : (d.pending.filter (d.isReady now)).Pairwise fun p q =>
        p.event.path.same q.event.path = false := List.Pairwise.filter _ h
    exact (List.mergeSort_perm _ _).symm.pairwise (List.pairwise_map.mpr hready) fun hab =>
      same_symm _ _ ▸ hab
  exact (hsorted.and hdiffer).imp fun hab => Path.isBefore_of_notAfter hab.1 hab.2

/-- A release, behind any steps at any times, answers for each path as its whole burst says, and ends the
bursts that it answers for; nothing waits when no burst is open. -/
theorem drain_releases_bursts (interval : Nat) (steps : List WatchStep) (now : Nat) :
    let d := (Debouncer.run { interval } steps).2
    let log := Debouncer.record { interval } steps
    let released := (d.drain now).1
    (released.Pairwise fun a b => a.path.IsBefore b.path) ∧
      (∀ p, released.filter (·.path.same p) =
        (((burst p log).standsFor?.filter fun q => interval ≤ now - q.seen).map (·.event)).toList) ∧
      (∀ p q, (burst p log).standsFor? = some q → q.seen + interval ≤ now →
        released.filter (·.path.same p) = [q.event] ∧ burst p (log ++ [.released released]) = []) ∧
      (∀ e ∈ released, e.kind = .created → ∀ x ∈ burst e.path log, x.1.kind = .created) ∧
      (d.isEmpty = true ↔ ∀ p, burst p log = []) := by
  intro d log released
  have hfollows : d.Follows fun p => burst p log := run_follows interval steps
  have hinterval : d.interval = interval := run_interval { interval } steps
  have hreleased : ∀ p, released.filter (·.path.same p) =
      (((burst p log).standsFor?.filter fun q => interval ≤ now - q.seen).map (·.event)).toList := by
    intro p
    rw [← hinterval]
    exact hfollows.released now p
  refine ⟨hfollows.onePerPath.drain_sorted now, hreleased, ?_, ?_, ?_⟩
  · intro p q hq hlate
    have hwaited : interval ≤ now - q.seen := by omega
    have hone : released.filter (·.path.same p) = [q.event] := by
      rw [hreleased, hq, Option.filter_some, if_pos (decide_eq_true hwaited)]
      rfl
    have hany : released.any (·.path.same p) = true :=
      List.any_eq_true.mpr ⟨q.event, List.mem_filter.mp (hone ▸ List.mem_singleton_self q.event)⟩
    rw [burst, List.foldl_append, List.foldl_cons, List.foldl_nil, Burst.extend, hany]
    exact ⟨hone, if_pos rfl⟩
  · intro e he hcreated
    have hmem : e ∈ released.filter (·.path.same e.path) :=
      List.mem_filter.mpr ⟨he, beq_self_eq_true _⟩
    rw [hreleased, Option.mem_toList, Option.map_eq_some_iff] at hmem
    obtain ⟨q, hq, rfl⟩ := hmem
    exact (Burst.standsFor?_created _ q (Option.eq_some_of_filter_eq_some hq)).mp hcreated
  · constructor
    · intro hempty p
      have hnone := hfollows.waiting p
      rw [List.isEmpty_iff.mp hempty] at hnone
      exact (Burst.standsFor?_eq_none _).mp (Option.toList_eq_nil_iff.mp hnone.symm)
    · intro hnone
      refine List.isEmpty_iff.mpr (List.eq_nil_iff_forall_not_mem.mpr fun q hq => ?_)
      have hmem : q ∈ d.pending.filter (·.event.path.same q.event.path) :=
        List.mem_filter.mpr ⟨hq, beq_self_eq_true _⟩
      rw [hfollows.waiting, hnone] at hmem
      cases hmem

end Debouncer

end CodeIndex
