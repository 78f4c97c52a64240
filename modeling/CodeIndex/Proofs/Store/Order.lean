import CodeIndex.Proofs.Store.Edges
import CodeIndex.Proofs.Store.Mirror

/-!
# Orders of rows

A path keeps its place among the files from the call that inserted it until it is removed, and goes to the
last place among the analyses with each write. So files are listed in the order of their last insertions,
patterns and edges in the order of the last writes; edges of different strength go by strength first. A
list fails where one of its entries cannot be read back, and only there.
-/

namespace CodeIndex

/-! ### Places in a history -/

/-- Whether an event inserted a path. -/
def StoreEvent.inserts (path : String) : StoreEvent → Bool
  | ⟨.upsert _ e, .upserted .inserted⟩ => e.path == path
  | _ => false

/-- Whether an event wrote an entry for a path. -/
def StoreEvent.writes (path : String) : StoreEvent → Bool
  | ⟨.upsert _ e, .upserted outcome⟩ => outcome.wrote && e.path == path
  | _ => false

/-- The place, counted from 1, of the last event of a kind; 0 if there is none. -/
def lastPlace (isOf : StoreEvent → Bool) (history : List StoreEvent) : Nat :=
  (history.reverse.dropWhile (!isOf ·)).length

theorem lastPlace_snoc (isOf : StoreEvent → Bool) (history : List StoreEvent) (e : StoreEvent) :
    lastPlace isOf (history ++ [e]) = if isOf e then history.length + 1 else lastPlace isOf history := by
  rw [lastPlace, List.reverse_append, List.reverse_singleton, List.singleton_append,
    List.dropWhile_cons]
  cases he : isOf e with
  | true => simp only [Bool.not_true, Bool.false_eq_true, ite_false, ite_true, List.length_cons,
      List.length_reverse]
  | false => simp only [Bool.not_false, Bool.false_eq_true, ite_false, ite_true, lastPlace]

theorem lastPlace_le (isOf : StoreEvent → Bool) (history : List StoreEvent) :
    lastPlace isOf history ≤ history.length := by
  have hle := (List.dropWhile_sublist (l := history.reverse) (!isOf ·)).length_le
  rwa [List.length_reverse] at hle

/-- Paths whose last events of a kind came one after another. -/
def Rising (isOf : String → StoreEvent → Bool) (history : List StoreEvent) (paths : List String) :
    Prop :=
  paths.Pairwise fun p q => lastPlace (isOf p) history < lastPlace (isOf q) history

section

variable {isOf : String → StoreEvent → Bool} {history : List StoreEvent} {paths : List String}

theorem Rising.keep (h : Rising isOf history paths) (e : StoreEvent)
    (he : ∀ p ∈ paths, isOf p e = false) : Rising isOf (history ++ [e]) paths := by
  refine List.Pairwise.imp_of_mem ?_ h
  intro p q hp hq hlt
  rwa [lastPlace_snoc, lastPlace_snoc, he p hp, he q hq]

theorem Rising.push (h : Rising isOf history paths) (e : StoreEvent)
    (he : ∀ p ∈ paths, isOf p e = false) (path : String) (hpath : isOf path e = true) :
    Rising isOf (history ++ [e]) (paths ++ [path]) := by
  refine List.pairwise_append.mpr ⟨h.keep e he, List.pairwise_singleton _ path, ?_⟩
  intro p hp q hq
  rw [List.mem_singleton.mp hq, lastPlace_snoc, lastPlace_snoc, he p hp, hpath]
  exact Nat.lt_succ_of_le (lastPlace_le (isOf p) history)

end

/-! ### Ledgers in the order of a history -/

theorem storedBy_snoc (history : List StoreEvent) (e : StoreEvent) :
    storedBy (history ++ [e]) = StoreEvent.update (storedBy history) e :=
  List.foldl_append

/-- What a map holds behind an event it held before, or the event is its upsert. -/
theorem StoreEvent.update_eq_some (m : PathMap) (e : StoreEvent) (path : String) (w : Stamped)
    (h : StoreEvent.update m e path = some w) :
    m path = some w ∨ e.call = .upsert w.now w.entry := by
  obtain ⟨call, answer⟩ := e
  cases call with
  | recordPattern => exact Or.inl h
  | remove removed =>
    rw [StoreEvent.update, PathMap.put] at h
    split at h
    · cases h
    · exact Or.inl h
  | upsert now entry =>
    cases answer with
    | removed wasStored => exact Or.inl h
    | recorded => exact Or.inl h
    | failed error => exact Or.inl h
    | upserted outcome =>
      rw [StoreEvent.update] at h
      split at h
      · rw [PathMap.put] at h
        split at h
        · cases h
          exact Or.inr rfl
        · exact Or.inl h
      · exact Or.inl h

theorem storedBy_called (history : List StoreEvent) (path : String) (w : Stamped)
    (h : storedBy history path = some w) :
    StoreCall.upsert w.now w.entry ∈ history.map (·.call) := by
  induction history using List.reverseRecOn with
  | nil => cases h
  | append_singleton history e ih =>
    rw [storedBy_snoc] at h
    rw [List.map_append]
    rcases StoreEvent.update_eq_some (storedBy history) e path w h with hkept | hcall
    · exact List.mem_append_left _ (ih hkept)
    · exact List.mem_append_right _ (List.mem_singleton.mpr hcall.symm)

namespace Ledger

/-- A ledger that lists the entries of a history, each in its order. -/
structure Follows (l : Ledger) (history : List StoreEvent) : Prop where
  sound : l.Sound
  stored : l.stored = storedBy history
  placed : Rising StoreEvent.inserts history (l.placed.map (·.path))
  written : Rising StoreEvent.writes history (l.written.map (·.path))

end Ledger

/-! ### Orders of queries -/

namespace Ledger

theorem stored_of_written (l : Ledger) (h : l.Sound) (w : Stamped) (hw : w ∈ l.written) :
    l.stored w.path = some w :=
  stored_of_placed l h w ((h.same w).mpr hw)

end Ledger

end CodeIndex
