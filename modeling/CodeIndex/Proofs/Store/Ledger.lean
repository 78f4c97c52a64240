import Mathlib.Data.List.Basic
import CodeIndex.Proofs.Store.Entries

/-!
# Ledgers

A ledger lists the stored entries twice: in the order in which their paths came, and in the order of
their last writes. The tables of a store follow from it: files by the first list, structures and edges
by the second. Every call of the store is a step of its ledger.
-/

namespace CodeIndex

/-- The stored entries in two orders, and the rows of sighted names. -/
structure Ledger where
  placed : List Stamped := []
  written : List Stamped := []
  patterns : List PatternRow := []

namespace Ledger

def store (l : Ledger) : Store :=
  { files := l.placed.map Stamped.fileRow
    structures := l.written.filterMap Stamped.structureRow?
    patterns := l.patterns
    edges := l.written.flatMap Stamped.edgeRows }

/-- The ledger behind the write of an entry. -/
def write (l : Ledger) (w : Stamped) : Ledger :=
  { l with
    placed := placeEntry w l.placed
    written := withoutPath w.path l.written ++ [w] }

def remove (l : Ledger) (path : String) : Ledger :=
  { l with placed := withoutPath path l.placed, written := withoutPath path l.written }

/-- The entry that a ledger holds for each path. -/
def stored (l : Ledger) : PathMap := fun path => l.placed.find? (·.path == path)

/-- A ledger with one entry for each path, the same in both orders, whose edges are their own and have
strengths. -/
structure Sound (l : Ledger) : Prop where
  placedOnce : (l.placed.map (·.path)).Nodup
  writtenOnce : (l.written.map (·.path)).Nodup
  same : ∀ w, w ∈ l.placed ↔ w ∈ l.written
  owned : ∀ w ∈ l.written, w.entry.OwnsEdges
  strong : ∀ w ∈ l.written, w.entry.hasStrengths = true
  legible : ∀ r ∈ l.patterns, r.Legible

theorem empty_sound : Sound {} :=
  ⟨List.nodup_nil, List.nodup_nil, fun _ => Iff.rfl, fun _ h => absurd h List.not_mem_nil,
    fun _ h => absurd h List.not_mem_nil, fun _ h => absurd h List.not_mem_nil⟩

theorem empty_store : (Ledger.store {}) = Store.empty := rfl

/-! ### Steps of a ledger -/

theorem mem_write (l : Ledger) (w v : Stamped) :
    v ∈ (l.write w).written ↔ v ∈ withoutPath w.path l.written ∨ v = w := by
  rw [write, List.mem_append, List.mem_singleton]

theorem write_sound (l : Ledger) (w : Stamped) (h : l.Sound) (ho : w.entry.OwnsEdges)
    (hs : w.entry.hasStrengths = true) : (l.write w).Sound := by
  refine ⟨nodup_placeEntry w l.placed h.placedOnce, ?_, ?_, ?_, ?_, h.legible⟩
  · rw [show (l.write w).written = withoutPath w.path l.written ++ [w] from rfl, List.map_append]
    refine List.nodup_append.mpr ⟨nodup_withoutPath w.path l.written h.writtenOnce, by simp, ?_⟩
    intro a ha b hb hab
    obtain ⟨v, hv, rfl⟩ := List.mem_map.mp ha
    rw [List.map_cons, List.map_nil, List.mem_singleton] at hb
    exact ((mem_withoutPath w.path l.written v).mp hv).2 (hab.trans hb)
  · intro v
    simp only [write, mem_placeEntry w v l.placed h.placedOnce, List.mem_append,
      List.mem_singleton, mem_withoutPath, h.same v]
    exact Or.comm
  · intro v hv
    rcases (l.mem_write w v).mp hv with hv | rfl
    · exact h.owned v ((mem_withoutPath w.path l.written v).mp hv).1
    · exact ho
  · intro v hv
    rcases (l.mem_write w v).mp hv with hv | rfl
    · exact h.strong v ((mem_withoutPath w.path l.written v).mp hv).1
    · exact hs

theorem remove_sound (l : Ledger) (path : String) (h : l.Sound) : (l.remove path).Sound := by
  refine ⟨nodup_withoutPath path l.placed h.placedOnce,
    nodup_withoutPath path l.written h.writtenOnce, ?_, ?_, ?_, h.legible⟩
  · intro v
    simp only [remove, mem_withoutPath, h.same v]
  · intro v hv
    exact h.owned v ((mem_withoutPath path l.written v).mp hv).1
  · intro v hv
    exact h.strong v ((mem_withoutPath path l.written v).mp hv).1

theorem stored_eq_some (l : Ledger) (h : l.Sound) (path : String) (w : Stamped) :
    l.stored path = some w ↔ w ∈ l.placed ∧ w.path = path :=
  find_path_eq_some l.placed h.placedOnce path w

/-- A ledger whose entries of other paths are kept holds what was put in the place of one path. -/
theorem stored_eq_put (l k : Ledger) (hl : l.Sound) (hk : k.Sound) (path : String)
    (new : Option Stamped) (hnew : ∀ v, new = some v → v.path = path)
    (hmem : ∀ v, v ∈ k.placed ↔ new = some v ∨ v ∈ l.placed ∧ v.path ≠ path) :
    k.stored = l.stored.put path new := by
  funext q
  apply Option.ext
  intro v
  rw [stored_eq_some k hk, hmem, PathMap.put]
  by_cases hq : q = path
  · rw [if_pos hq, hq]
    constructor
    · rintro ⟨hv | ⟨-, hne⟩, he⟩
      · exact hv
      · exact absurd he hne
    · intro hv
      exact ⟨Or.inl hv, hnew v hv⟩
  · rw [if_neg hq, stored_eq_some l hl]
    constructor
    · rintro ⟨hv | ⟨hv, -⟩, he⟩
      · exact absurd (he.symm.trans (hnew v hv)) hq
      · exact ⟨hv, he⟩
    · rintro ⟨hv, he⟩
      exact ⟨Or.inr ⟨hv, fun hp => hq (he.symm.trans hp)⟩, he⟩

theorem stored_write (l : Ledger) (w : Stamped) (h : l.Sound) (ho : w.entry.OwnsEdges)
    (hs : w.entry.hasStrengths = true) : (l.write w).stored = l.stored.put w.path (some w) := by
  refine stored_eq_put l _ h (l.write_sound w h ho hs) w.path (some w) ?_ ?_
  · intro v hv
    rw [Option.some.inj hv]
  · intro v
    simp only [write, mem_placeEntry w v l.placed h.placedOnce, Option.some.injEq, eq_comm]

theorem stored_remove (l : Ledger) (path : String) (h : l.Sound) :
    (l.remove path).stored = l.stored.put path none := by
  refine stored_eq_put l _ h (l.remove_sound path h) path none ?_ ?_
  · intro v hv
    cases hv
  · intro v
    simp only [remove, mem_withoutPath, reduceCtorEq, false_or]

theorem find_written (l : Ledger) (h : l.Sound) (path : String) :
    l.written.find? (·.path == path) = l.stored path := by
  apply Option.ext
  intro w
  rw [find_path_eq_some l.written h.writtenOnce, stored_eq_some l h, h.same]

end Ledger

/-! ### Tables of a ledger -/

theorem fileRows_placeEntry (w : Stamped) (list : List Stamped) :
    (placeEntry w list).map Stamped.fileRow =
      Store.putFile w.path w.fileRow (list.map Stamped.fileRow) := by
  induction list with
  | nil => rfl
  | cons v rest ih =>
    by_cases hv : v.path = w.path
    · simp [placeEntry, Store.putFile, hv]
    · simp [placeEntry, Store.putFile, hv, ih]

theorem fileRows_withoutPath (path : String) (list : List Stamped) :
    (withoutPath path list).map Stamped.fileRow =
      (list.map Stamped.fileRow).filter (!·.path.isText path) := by
  rw [List.filter_map]
  rfl

/-- Rows that tell the path of the entry they come from are left where the path is not the one left out. -/
theorem rows_withoutPath {α : Type} (rows : Stamped → List α) (isOf : α → Bool) (path : String)
    (list : List Stamped) (ho : ∀ w ∈ list, ∀ r ∈ rows w, isOf r = (w.path == path)) :
    (withoutPath path list).flatMap rows = (list.flatMap rows).filter (!isOf ·) := by
  induction list with
  | nil => rfl
  | cons w rest ih =>
    have hown := ho w List.mem_cons_self
    have hr := ih fun v hv => ho v (List.mem_cons_of_mem _ hv)
    rw [List.flatMap_cons, List.filter_append, ← hr]
    by_cases hp : w.path = path
    · have hdrop : (rows w).filter (!isOf ·) = [] :=
        List.filter_eq_nil_iff.mpr fun r hm => by simp [hown r hm, hp]
      simp [withoutPath, hdrop, hp]
    · have hkeep : (rows w).filter (!isOf ·) = rows w :=
        List.filter_eq_self.mpr fun r hm => by simp [hown r hm, hp]
      simp [withoutPath, hkeep, hp]

theorem structureRows_withoutPath (path : String) (list : List Stamped) :
    (withoutPath path list).filterMap Stamped.structureRow? =
      (list.filterMap Stamped.structureRow?).filter (!·.path.isText path) := by
  rw [List.filterMap_eq_flatMap_toList, List.filterMap_eq_flatMap_toList]
  exact rows_withoutPath (fun w => w.structureRow?.toList) _ path list fun w _ r hr =>
    w.structureRow?_isText r (Option.mem_toList.mp hr) path

theorem edgeRows_withoutPath (path : String) (list : List Stamped)
    (ho : ∀ w ∈ list, w.entry.OwnsEdges) :
    (withoutPath path list).flatMap Stamped.edgeRows =
      (list.flatMap Stamped.edgeRows).filter (!·.source.isText path) :=
  rows_withoutPath Stamped.edgeRows _ path list fun w hw r hr => w.edgeRows_isText (ho w hw) r hr path

/-- Rows that tell the path of the entry they come from are those of one entry where a path is asked for. -/
theorem rows_of_path {α : Type} (rows : Stamped → List α) (isOf : α → Bool) (path : String)
    (list : List Stamped) (once : (list.map (·.path)).Nodup)
    (ho : ∀ w ∈ list, ∀ r ∈ rows w, isOf r = (w.path == path)) :
    (list.flatMap rows).filter isOf = ((list.find? (·.path == path)).map rows).getD [] := by
  induction list with
  | nil => rfl
  | cons w rest ih =>
    obtain ⟨hw, hrest⟩ := List.nodup_cons.mp once
    have hown := ho w List.mem_cons_self
    have hr := ih hrest fun v hv => ho v (List.mem_cons_of_mem _ hv)
    rw [List.flatMap_cons, List.filter_append, hr]
    by_cases hp : w.path = path
    · have hkeep : (rows w).filter isOf = rows w :=
        List.filter_eq_self.mpr fun r hm => by simp [hown r hm, hp]
      have hnone : rest.find? (·.path == path) = none := find_path_eq_none rest path (hp ▸ hw)
      simp [hkeep, hnone, hp]
    · have hdrop : (rows w).filter isOf = [] :=
        List.filter_eq_nil_iff.mpr fun r hm => by simp [hown r hm, hp]
      simp [hdrop, hp]

theorem structureRows_of_path (list : List Stamped) (once : (list.map (·.path)).Nodup)
    (path : String) :
    (list.filterMap Stamped.structureRow?).filter (·.path.isText path) =
      ((list.find? (·.path == path)).bind Stamped.structureRow?).toList := by
  rw [List.filterMap_eq_flatMap_toList,
    rows_of_path (fun w => w.structureRow?.toList) _ path list once fun w _ r hr =>
      w.structureRow?_isText r (Option.mem_toList.mp hr) path]
  cases list.find? (·.path == path) <;> rfl

namespace Ledger

theorem fileRow?_store (l : Ledger) (path : String) :
    l.store.fileRow? path = (l.stored path).map Stamped.fileRow := by
  simp only [Store.fileRow?, store, stored, List.find?_map]
  rfl

theorem contentHash_store (l : Ledger) (path : String) :
    l.store.contentHash path = .ok ((l.stored path).map (·.entry.contentHash)) := by
  simp only [Store.contentHash, fileRow?_store]
  cases l.stored path <;> rfl

theorem store_write (l : Ledger) (w : Stamped) (h : l.Sound) :
    l.store.write w.now w.entry = (l.write w).store := by
  have hf := fileRows_placeEntry w l.placed
  have hs := structureRows_withoutPath w.path l.written
  have he := edgeRows_withoutPath w.path l.written h.owned
  have hr : [w].filterMap Stamped.structureRow? = w.structureRow?.toList := by
    cases hw : w.structureRow? <;> simp [hw]
  rw [Store.write_eq]
  simp only [store, write, List.filterMap_append, List.flatMap_append, List.flatMap_singleton, hf,
    hs, he, hr]
  rfl

theorem store_remove (l : Ledger) (path : String) (h : l.Sound) :
    l.store.remove path = ((l.stored path).isSome, (l.remove path).store) := by
  have hf := fileRows_withoutPath path l.placed
  have hs := structureRows_withoutPath path l.written
  have he := edgeRows_withoutPath path l.written h.owned
  have hr := fileRow?_store l path
  simp only [Store.remove, hr, Option.isSome_map]
  simp only [Store.dropAnalysis, store, remove, hf, hs, he]

end Ledger

end CodeIndex
