import CodeIndex.Proofs.Store.Readback
import CodeIndex.Proofs.Store.Run

/-!
# Written entries

The relations that a description declares, the rows that an entry is written as, and lists of entries
with different paths. Placing an entry keeps the position of its path; the entries of other paths are what
removing a path leaves.
-/

namespace CodeIndex

/-! ### Rows of an entry -/

/-- Whether every edge of an entry starts at the path of the entry. -/
def FileEntry.OwnsEdges (e : FileEntry) : Prop :=
  ∀ a, e.analysis = some a → ∀ r ∈ a.relations, r.source = e.path

theorem FileEntry.OwnsEdges.source {e : FileEntry} (h : e.OwnsEdges) (r : Relation)
    (hr : r ∈ e.relations) : r.source = e.path := by
  obtain ⟨a, ha, hr⟩ := (e.mem_relations r).mp hr
  exact h a ha r hr

/-- A relation as a description declares it: with the strength of its kind, and with metadata whose text says
all of it. -/
structure Relation.Declared (path : String) (r : Relation) : Prop where
  source : r.source = path
  strength : r.strength = r.kind.strength
  metadata : r.metadata.spelled = r.metadata

theorem relationsOf_declared (path : String) (d : Description) :
    ∀ r ∈ relationsOf path d, r.Declared path := by
  intro r hr
  rcases List.mem_append.mp hr with hr | hr
  · obtain ⟨c, -, hc⟩ := List.mem_flatMap.mp hr
    rcases List.mem_append.mp hc with hc | hc
    · obtain ⟨base, -, rfl⟩ := List.mem_map.mp hc
      exact ⟨rfl, rfl, by simp [Relation.of]⟩
    · obtain ⟨name, -, rfl⟩ := List.mem_map.mp hc
      exact ⟨rfl, rfl, by simp [Relation.of]⟩
  · obtain ⟨i, -, rfl⟩ := List.mem_map.mp hr
    exact ⟨rfl, rfl, by simp [importRelation, Relation.of]⟩

theorem RelationKind.strength_isFinite (k : RelationKind) : k.strength.isFinite = true := by
  cases k <;> decide

theorem Relation.Declared.isFinite {path : String} {r : Relation} (h : r.Declared path) : r.IsFinite :=
  ⟨by rw [h.strength, r.kind.strength_isFinite], h.metadata⟩

theorem FileAnalysis.of_isFinite (path : String) (t : Text) (d : Description) :
    (FileAnalysis.of path t d).IsFinite :=
  ⟨detectPatterns_isFinite d, CodeMetrics.of_isFinite d _, fun r hr =>
    (relationsOf_declared path d r hr).isFinite⟩

namespace Stamped

def fileRow (w : Stamped) : FileRow := .ofEntry w.now w.entry

/-- The structural row of an entry with an analysis. -/
def structureRow? (w : Stamped) : Option StructureRow :=
  w.entry.analysis.map (.of w.now w.path w.entry.contentHash)

/-- The edge rows of an entry, in the order of its edges. -/
def edgeRows (w : Stamped) : List EdgeRow :=
  w.entry.relations.map (.of w.now)

@[simp] theorem fileRow_isText (w : Stamped) (path : String) :
    w.fileRow.path.isText path = (w.path == path) := rfl

theorem structureRow?_isText (w : Stamped) (r : StructureRow) (h : w.structureRow? = some r)
    (path : String) : r.path.isText path = (w.path == path) := by
  obtain ⟨a, -, rfl⟩ := Option.map_eq_some_iff.mp h
  rfl

theorem edgeRows_isText (w : Stamped) (ho : w.entry.OwnsEdges) (r : EdgeRow) (h : r ∈ w.edgeRows)
    (path : String) : r.source.isText path = (w.path == path) := by
  obtain ⟨e, he, rfl⟩ := List.mem_map.mp h
  exact congrArg (· == path) (ho.source e he)

end Stamped

/-! ### Lists of entries -/

/-- The entries with one in the place of its path, or at the end when the path is new. -/
def placeEntry (w : Stamped) : List Stamped → List Stamped
  | [] => [w]
  | v :: rest => if v.path = w.path then w :: rest else v :: placeEntry w rest

def withoutPath (path : String) (list : List Stamped) : List Stamped :=
  list.filter (·.path != path)

theorem mem_withoutPath (path : String) (list : List Stamped) (w : Stamped) :
    w ∈ withoutPath path list ↔ w ∈ list ∧ w.path ≠ path := by
  simp [withoutPath]

theorem nodup_withoutPath (path : String) (list : List Stamped)
    (h : (list.map (·.path)).Nodup) : ((withoutPath path list).map (·.path)).Nodup :=
  h.sublist (List.filter_sublist.map _)

theorem placeEntry_eq_append (w : Stamped) (list : List Stamped)
    (h : ∀ v ∈ list, v.path ≠ w.path) : placeEntry w list = list ++ [w] := by
  induction list with
  | nil => rfl
  | cons v rest ih =>
    have hv : v.path ≠ w.path := h v List.mem_cons_self
    have hrest := ih fun u hu => h u (List.mem_cons_of_mem _ hu)
    simp only [placeEntry, hv, ite_false, hrest, List.cons_append]

theorem paths_placeEntry (w : Stamped) (list : List Stamped) (h : w.path ∈ list.map (·.path)) :
    (placeEntry w list).map (·.path) = list.map (·.path) := by
  induction list with
  | nil => cases h
  | cons v rest ih =>
    by_cases hv : v.path = w.path
    · simp only [placeEntry, hv, ite_true, List.map_cons]
    · have hrest : w.path ∈ rest.map (·.path) := by
        rcases List.mem_cons.mp h with h | h
        · exact absurd h.symm hv
        · exact h
      simp only [placeEntry, hv, ite_false, List.map_cons, ih hrest]

theorem nodup_placeEntry (w : Stamped) (list : List Stamped)
    (h : (list.map (·.path)).Nodup) : ((placeEntry w list).map (·.path)).Nodup := by
  by_cases hw : w.path ∈ list.map (·.path)
  · rw [paths_placeEntry w list hw]
    exact h
  · have hne : ∀ v ∈ list, v.path ≠ w.path := fun v hv he =>
      hw (he ▸ List.mem_map_of_mem hv)
    rw [placeEntry_eq_append w list hne, List.map_append]
    exact List.nodup_append.mpr ⟨h, by simp, fun a ha b hb hab =>
      hw (by rw [List.map_cons, List.map_nil, List.mem_singleton] at hb; rw [← hb, ← hab]; exact ha)⟩

theorem mem_placeEntry (w v : Stamped) (list : List Stamped) (h : (list.map (·.path)).Nodup) :
    v ∈ placeEntry w list ↔ v = w ∨ (v ∈ list ∧ v.path ≠ w.path) := by
  induction list with
  | nil => simp [placeEntry]
  | cons u rest ih =>
    obtain ⟨hu, hrest⟩ := List.nodup_cons.mp h
    by_cases hp : u.path = w.path
    · have hne : ∀ x ∈ rest, x.path ≠ w.path := fun x hx he =>
        hu (List.mem_map.mpr ⟨x, hx, he.trans hp.symm⟩)
      simp only [placeEntry, hp, ite_true, List.mem_cons]
      constructor
      · rintro (rfl | hv)
        · exact Or.inl rfl
        · exact Or.inr ⟨Or.inr hv, hne v hv⟩
      · rintro (rfl | ⟨rfl | hv, hvp⟩)
        · exact Or.inl rfl
        · exact absurd hp hvp
        · exact Or.inr hv
    · simp only [placeEntry, hp, ite_false, List.mem_cons, ih hrest]
      constructor
      · rintro (rfl | rfl | ⟨hv, hvp⟩)
        · exact Or.inr ⟨Or.inl rfl, hp⟩
        · exact Or.inl rfl
        · exact Or.inr ⟨Or.inr hv, hvp⟩
      · rintro (rfl | ⟨rfl | hv, hvp⟩)
        · exact Or.inr (Or.inl rfl)
        · exact Or.inl rfl
        · exact Or.inr (Or.inr ⟨hv, hvp⟩)

theorem find_path_eq_none (list : List Stamped) (path : String) (h : path ∉ list.map (·.path)) :
    list.find? (·.path == path) = none := by
  rw [List.find?_eq_none]
  intro w hw he
  exact h (List.mem_map.mpr ⟨w, hw, by simpa using he⟩)

theorem find_path_eq_some (list : List Stamped) (h : (list.map (·.path)).Nodup) (path : String)
    (w : Stamped) : list.find? (·.path == path) = some w ↔ w ∈ list ∧ w.path = path := by
  constructor
  · intro hf
    exact ⟨List.mem_of_find?_eq_some hf, by simpa using List.find?_some hf⟩
  · rintro ⟨hw, rfl⟩
    induction list with
    | nil => cases hw
    | cons v rest ih =>
      obtain ⟨hv, hrest⟩ := List.nodup_cons.mp h
      rcases List.mem_cons.mp hw with rfl | hw
      · simp
      · have hne : v.path ≠ w.path := fun he => hv (List.mem_map.mpr ⟨w, hw, he.symm⟩)
        rw [List.find?_cons_of_neg (by simpa using hne)]
        exact ih hrest hw

end CodeIndex
