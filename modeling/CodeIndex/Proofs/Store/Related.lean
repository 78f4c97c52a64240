import CodeIndex.Proofs.Store.Order

/-!
# Edges of a path

A query for the edges of a path answers what the list of all edges holds on that path, edge by edge and in
the same order, for as many kinds as one query takes. The edges that a file declares go by kind.
-/

namespace CodeIndex

/-! ### Stable sorts -/

theorem StrongestFirst.filter {sorted listed : List Relation} (h : StrongestFirst sorted listed)
    (keep : Relation → Bool) : StrongestFirst (sorted.filter keep) (listed.filter keep) := by
  refine ⟨h.perm.filter keep, h.falling.filter keep, fun key => ?_⟩
  have hcomm : ∀ list : List Relation, (list.filter keep).filter (·.strength.key == key) =
      (list.filter (·.strength.key == key)).filter keep := fun list => List.filter_comm ..
  rw [hcomm, hcomm, h.stable key]

theorem mem_of_levels (xs ys : List Relation)
    (h : ∀ key, xs.filter (·.strength.key == key) = ys.filter (·.strength.key == key)) (r : Relation)
    (hr : r ∈ xs) : r ∈ ys := by
  have hin : r ∈ xs.filter (·.strength.key == r.strength.key) :=
    List.mem_filter.mpr ⟨hr, beq_self_eq_true _⟩
  rw [h] at hin
  exact (List.mem_filter.mp hin).1

/-- A falling list is known from what it holds at each strength. -/
theorem falling_unique (xs ys : List Relation)
    (hx : xs.Pairwise fun a b => b.strength.key ≤ a.strength.key)
    (hy : ys.Pairwise fun a b => b.strength.key ≤ a.strength.key)
    (h : ∀ key, xs.filter (·.strength.key == key) = ys.filter (·.strength.key == key)) : xs = ys := by
  induction xs generalizing ys with
  | nil =>
    cases ys with
    | nil => rfl
    | cons y ys =>
      exact absurd (mem_of_levels _ _ (fun key => (h key).symm) y List.mem_cons_self) List.not_mem_nil
  | cons x xs ih =>
    cases ys with
    | nil => exact absurd (mem_of_levels _ _ h x List.mem_cons_self) List.not_mem_nil
    | cons y ys =>
      obtain ⟨hxall, hxs⟩ := List.pairwise_cons.mp hx
      obtain ⟨hyall, hys⟩ := List.pairwise_cons.mp hy
      -- each head is in the other list, so neither is weaker than the other
      have hle : y.strength.key ≤ x.strength.key := by
        rcases List.mem_cons.mp
          (mem_of_levels _ _ (fun key => (h key).symm) y List.mem_cons_self) with he | he
        · rw [he]
        · exact hxall y he
      have hge : x.strength.key ≤ y.strength.key := by
        rcases List.mem_cons.mp (mem_of_levels _ _ h x List.mem_cons_self) with he | he
        · rw [he]
        · exact hyall x he
      have hkey : (y.strength.key == x.strength.key) = true := beq_iff_eq.mpr (le_antisymm hle hge)
      have hheads := h x.strength.key
      simp only [List.filter_cons, beq_self_eq_true, hkey, ite_true] at hheads
      obtain rfl : x = y := (List.cons.inj hheads).1
      have htail : ∀ key, xs.filter (·.strength.key == key) = ys.filter (·.strength.key == key) := by
        intro key
        have hk := h key
        rw [List.filter_cons, List.filter_cons] at hk
        split at hk
        · exact (List.cons.inj hk).2
        · exact hk
      rw [ih ys hxs hys htail]

theorem StrongestFirst.unique {xs ys listed : List Relation} (hx : StrongestFirst xs listed)
    (hy : StrongestFirst ys listed) : xs = ys :=
  falling_unique xs ys hx.falling hy.falling fun key => (hx.stable key).trans (hy.stable key).symm

theorem mergeSort_filter (listed : List Relation) (keep : Relation → Bool) :
    (listed.filter keep).mergeSort Relation.strongestFirst =
      (listed.mergeSort Relation.strongestFirst).filter keep :=
  (mergeSort_strongestFirst (listed.filter keep)).unique ((mergeSort_strongestFirst listed).filter keep)

/-! ### Edges by kind -/

namespace RelationKind

theorem strength_unsigned (k : RelationKind) : k.strength.unsigned = k.strength := by
  cases k <;> decide

theorem strength_key_inj (j k : RelationKind) : j.strength.key = k.strength.key ↔ j = k := by
  cases j <;> cases k <;> decide

theorem name_beq (j k : RelationKind) : (j.name == k.name) = (j == k) := by
  cases j <;> cases k <;> decide

theorem strength_falls : RelationKind.all.Pairwise fun j k => k.strength.key ≤ j.strength.key := by
  decide

end RelationKind

/-- A row of edges keeps the whole of a declared relation. -/
theorem Relation.Declared.stored {path : String} {r : Relation} (h : r.Declared path) : r.stored = r := by
  have hs : r.strength.unsigned = r.strength := by rw [h.strength, r.kind.strength_unsigned]
  rw [Relation.stored, hs, h.metadata]

/-- The inheritance edges of a list, then its implementation edges, then its import edges. -/
def byKind (list : List Relation) : List Relation :=
  RelationKind.all.flatMap fun k => list.filter (·.kind == k)

theorem byKind_falling (list : List Relation) (h : ∀ r ∈ list, r.strength = r.kind.strength) :
    (byKind list).Pairwise fun a b => b.strength.key ≤ a.strength.key := by
  have hkey : ∀ k, ∀ r ∈ list.filter (·.kind == k), r.strength.key = k.strength.key := by
    intro k r hr
    obtain ⟨hr, hk⟩ := List.mem_filter.mp hr
    rw [h r hr, beq_iff_eq.mp hk]
  refine List.pairwise_flatMap.mpr ⟨fun k _ => ?_, RelationKind.strength_falls.imp ?_⟩
  · refine List.pairwise_of_forall_mem_list fun a ha b hb => ?_
    rw [hkey k a ha, hkey k b hb]
  · intro j k hjk a ha b hb
    rw [hkey j a ha, hkey k b hb]
    exact hjk

theorem byKind_level (list : List Relation) (h : ∀ r ∈ list, r.strength = r.kind.strength) (key : Int) :
    (byKind list).filter (·.strength.key == key) = list.filter (·.strength.key == key) := by
  have hlist : list.filter (·.strength.key == key) = list.filter (·.kind.strength.key == key) :=
    List.filter_congr fun r hr => by rw [h r hr]
  have hgroup : ∀ k, (list.filter (·.kind == k)).filter (·.strength.key == key) =
      if k.strength.key = key then list.filter (·.kind == k) else [] := by
    intro k
    split
    · next hk =>
      refine List.filter_eq_self.mpr fun r hr => ?_
      obtain ⟨hr, he⟩ := List.mem_filter.mp hr
      rw [h r hr, beq_iff_eq.mp he, hk, beq_self_eq_true]
    · next hk =>
      refine List.filter_eq_nil_iff.mpr fun r hr he => hk ?_
      obtain ⟨hr, hkind⟩ := List.mem_filter.mp hr
      rw [← beq_iff_eq.mp he, h r hr, beq_iff_eq.mp hkind]
  rw [byKind, List.filter_flatMap, hlist]
  simp only [hgroup]
  -- at most one kind has the strength
  by_cases hk : ∃ k : RelationKind, k.strength.key = key
  · obtain ⟨k, rfl⟩ := hk
    have hone : list.filter (·.kind.strength.key == k.strength.key) = list.filter (·.kind == k) :=
      List.filter_congr fun r _ => by
        rw [Bool.eq_iff_iff, beq_iff_eq, beq_iff_eq, RelationKind.strength_key_inj]
    simp only [hone, RelationKind.strength_key_inj]
    cases k <;> simp [RelationKind.all]
  · have hnone : ∀ k : RelationKind, ¬k.strength.key = key := fun k he => hk ⟨k, he⟩
    have hempty : list.filter (·.kind.strength.key == key) = [] :=
      List.filter_eq_nil_iff.mpr fun r _ he => hnone r.kind (beq_iff_eq.mp he)
    simp [hnone, hempty]

theorem mergeSort_byKind (list : List Relation) (h : ∀ r ∈ list, r.strength = r.kind.strength) :
    list.mergeSort Relation.strongestFirst = byKind list := by
  have hsorted := mergeSort_strongestFirst list
  exact falling_unique _ _ hsorted.falling (byKind_falling list h) fun key =>
    (hsorted.stable key).trans (byKind_level list h key).symm

/-! ### Edges as seen from a path -/

/-- Whether an edge is of one of some kinds and starts or ends at a path. -/
def Relation.touches (path : String) (kinds : List RelationKind) (r : Relation) : Bool :=
  kinds.contains r.kind && (r.source == path || r.target == path)

/-- An edge as it is told at one of its ends; an edge from a path to itself goes out of it. -/
structure Relation.SeenAs (path : String) (r : Relation) (f : RelatedFile) : Prop where
  kind : f.kind = r.kind
  strength : f.strength = r.strength
  metadata : f.metadata = r.metadata
  outgoing : r.source = path → f.file = r.target ∧ f.direction = .outgoing
  incoming : r.source ≠ path → f.file = r.source ∧ f.direction = .incoming

theorem Store.seenFrom_seenAs (path : String) (r : Relation) : r.SeenAs path (seenFrom path r) := by
  unfold seenFrom
  split
  · next h => exact ⟨rfl, rfl, rfl, fun _ => ⟨rfl, rfl⟩, fun hne => absurd h hne⟩
  · next h => exact ⟨rfl, rfl, rfl, fun he => absurd he h, fun _ => ⟨rfl, rfl⟩⟩

theorem Store.seenFrom_outgoing (path : String) (r : Relation) :
    ((seenFrom path r).direction == .outgoing) = (r.source == path) := by
  have hseen := seenFrom_seenAs path r
  by_cases h : r.source = path
  · rw [(hseen.outgoing h).2, h, beq_self_eq_true, beq_self_eq_true]
  · rw [(hseen.incoming h).2, beq_false_of_ne h]
    rfl

theorem seen_forall (path : String) (edges : List Relation) :
    List.Forall₂ (Relation.SeenAs path) edges (edges.map (Store.seenFrom path)) := by
  induction edges with
  | nil => exact .nil
  | cons r rest ih => exact .cons (Store.seenFrom_seenAs path r) ih

theorem Relation.touches_congr (path : String) {other kinds : List RelationKind}
    (h : ∀ k, k ∈ other ↔ k ∈ kinds) : Relation.touches path other = Relation.touches path kinds := by
  funext r
  have hcontains : other.contains r.kind = kinds.contains r.kind := by
    rw [Bool.eq_iff_iff, List.contains_iff_mem, List.contains_iff_mem, h]
  rw [Relation.touches, Relation.touches, hcontains]

theorem Store.touches_of (path : String) (kinds : List RelationKind) (now : String) (r : Relation) :
    Store.touches path kinds (.of now r) = r.touches path kinds := by
  have hkind : (kinds.any fun k => (EdgeRow.of now r).kind.isText k.name) = kinds.contains r.kind := by
    rw [List.contains_eq_any_beq]
    exact congrArg kinds.any (funext fun k => RelationKind.name_beq r.kind k)
  rw [Store.touches, hkind, Relation.touches, Bool.and_comm]
  rfl

/-! ### Edges of a ledger -/

namespace Ledger

/-- A ledger whose relations are all declared. -/
def Declared (l : Ledger) : Prop := ∀ r ∈ l.relations, ∃ path, r.Declared path

theorem Declared.stored {l : Ledger} (hd : l.Declared) (keep : Relation → Bool) :
    (l.relations.filter keep).map Relation.stored = l.relations.filter keep := by
  refine (List.map_congr_left fun r hr => ?_).trans (List.map_id _)
  obtain ⟨path, hpath⟩ := hd r (List.mem_filter.mp hr).1
  exact hpath.stored

theorem relationGraph_declared (l : Ledger) (h : l.Sound) (hd : l.Declared) :
    l.store.relationGraph = .ok (l.relations.mergeSort Relation.strongestFirst) := by
  have hall := hd.stored fun _ => true
  rw [List.filter_true] at hall
  rw [l.relationGraph_store h, hall]

theorem relatedTo_store (l : Ledger) (h : l.Sound) (hd : l.Declared) (path : String)
    (kinds : List RelationKind) (hk : kinds.length < Store.maxValues) :
    l.store.relatedTo path kinds =
      .ok (((l.relations.mergeSort Relation.strongestFirst).filter (Relation.touches path kinds)).map
        (Store.seenFrom path)) := by
  cases kinds with
  | nil =>
    have hnone : (l.relations.mergeSort Relation.strongestFirst).filter (Relation.touches path []) = [] :=
      List.filter_eq_nil_iff.mpr fun r _ h => by simp [Relation.touches] at h
    rw [hnone]
    rfl
  | cons k rest =>
    have hedges := l.edgesWhere_store h (Store.touches path (k :: rest)) (Relation.touches path (k :: rest))
      (Store.touches_of path (k :: rest))
    rw [Store.relatedTo, List.isEmpty_cons, if_neg Bool.false_ne_true, if_neg (Nat.not_le_of_lt hk), hedges,
      hd.stored, mergeSort_filter]
    rfl

theorem relatedTo_tooMany (s : Store) (path : String) (kinds : List RelationKind)
    (hk : Store.maxValues ≤ kinds.length) :
    s.relatedTo path kinds = .error (Store.tooManyKinds kinds.length) := by
  cases kinds with
  | nil => exact absurd hk (by decide)
  | cons k rest => rw [Store.relatedTo, List.isEmpty_cons, if_neg Bool.false_ne_true, if_pos hk]

/-- The edges of a ledger that start at a path are those of the entry of the path, in order. -/
theorem relations_of_path (l : Ledger) (h : l.Sound) (path : String) (w : Stamped)
    (hw : l.stored path = some w) : l.relations.filter (·.source == path) = w.entry.relations := by
  have hrows := rows_of_path (·.entry.relations) (·.source == path) path l.written h.writtenOnce
    fun w hw r hr => by
      rw [(h.owned w hw).source r hr]
      rfl
  rw [find_written l h, hw] at hrows
  exact hrows

/-- What goes out of a path, of all kinds, are the edges of its entry by kind. -/
theorem outgoing_of_path (l : Ledger) (h : l.Sound) (path : String) (w : Stamped)
    (hw : l.stored path = some w) (a : FileAnalysis) (ha : w.entry.analysis = some a)
    (hstrength : ∀ r ∈ a.relations, r.strength = r.kind.strength) (kinds : List RelationKind)
    (hall : ∀ k, k ∈ kinds) :
    (((l.relations.mergeSort Relation.strongestFirst).filter (Relation.touches path kinds)).map
      (Store.seenFrom path)).filter (·.direction == .outgoing) =
      (byKind a.relations).map (Store.seenFrom path) := by
  have hsource : ((·.direction == .outgoing) ∘ Store.seenFrom path) = fun r => r.source == path :=
    funext (Store.seenFrom_outgoing path)
  have htouches : (fun r : Relation => r.source == path && r.touches path kinds) =
      fun r => r.source == path := by
    funext r
    rw [Relation.touches, List.contains_iff_mem.mpr (hall r.kind), Bool.true_and]
    cases r.source == path <;> rfl
  have hown : w.entry.relations = a.relations := by
    rw [FileEntry.relations, ha, Option.toList_some, List.flatMap_singleton]
  rw [List.filter_map, hsource, List.filter_filter, htouches, ← mergeSort_filter,
    l.relations_of_path h path w hw, hown, mergeSort_byKind a.relations hstrength]

end Ledger

/-! ### Runs that write declared edges -/

/-- Whether the edges of an entry are those that some description declares for the path of the entry. -/
def FileEntry.DeclaresEdges (e : FileEntry) : Prop :=
  ∀ a, e.analysis = some a → ∃ d, a.relations = relationsOf e.path d

def StoreCall.DeclaresEdges : StoreCall → Prop
  | .upsert _ e => e.DeclaresEdges
  | _ => True

theorem FileEntry.DeclaresEdges.declared {e : FileEntry} (h : e.DeclaresEdges) (r : Relation)
    (hr : r ∈ e.relations) : r.Declared e.path := by
  obtain ⟨a, ha, hr⟩ := (e.mem_relations r).mp hr
  obtain ⟨d, hd⟩ := h a ha
  exact relationsOf_declared e.path d r (hd ▸ hr)

theorem FileEntry.DeclaresEdges.owns {e : FileEntry} (h : e.DeclaresEdges) : e.OwnsEdges :=
  fun a ha r hr => (h.declared r ((e.mem_relations r).mpr ⟨a, ha, hr⟩)).source

theorem StoreCall.DeclaresEdges.owns {c : StoreCall} (h : c.DeclaresEdges) : c.OwnsEdges := by
  cases c with
  | upsert now e => exact FileEntry.DeclaresEdges.owns h
  | remove path => trivial
  | recordPattern now patternType content path => trivial

theorem StoreCall.DeclaresEdges.hasStrengths {c : StoreCall} (h : c.DeclaresEdges) : c.HasStrengths := by
  cases c with
  | upsert now e =>
    exact e.hasStrengths_of_relations fun r hr =>
      (FileEntry.DeclaresEdges.declared h r hr).isFinite.1
  | remove path => trivial
  | recordPattern now patternType content path => trivial

/-- Behind any calls that write declared edges, a query for the edges of a path answers what the list of
all edges holds on it, each edge once and in the order of the list; of kinds only the set matters. What
goes out of a path comes by kind, each kind in the order of the declarations. -/
theorem related_agrees_with_graph (calls : List StoreCall) (he : ∀ c ∈ calls, c.DeclaresEdges) :
    ∃ (history : List StoreEvent) (s : Store) (graph : List Relation),
      Store.empty.run calls = (history, s) ∧ history.map (·.call) = calls ∧
      (∀ event ∈ history, event.Succeeded) ∧ s.relationGraph = .ok graph ∧
      ∀ (path : String) (kinds : List RelationKind),
        (kinds.length < Store.maxValues → ∃ related, s.relatedTo path kinds = .ok related ∧
          List.Forall₂ (Relation.SeenAs path) (graph.filter (Relation.touches path kinds)) related ∧
          (∀ other, (∀ k, k ∈ other ↔ k ∈ kinds) → other.length < Store.maxValues →
            s.relatedTo path other = .ok related) ∧
          ∀ w a, storedBy history path = some w → w.entry.analysis = some a → (∀ k, k ∈ kinds) →
            List.Forall₂ (Relation.SeenAs path) (byKind a.relations)
              (related.filter (·.direction == .outgoing))) ∧
        (Store.maxValues ≤ kinds.length → ∃ e, s.relatedTo path kinds = .error e) := by
  obtain ⟨history, l, hrun, hsound, hstored⟩ :=
    Ledger.run_steps calls {} Ledger.empty_sound fun c hc => (he c hc).owns
  have hstored : l.stored = storedBy history := hstored
  have hcalls := Store.run_calls calls history _ _ hrun
  have hdeclares : ∀ path w, l.stored path = some w → w.entry.DeclaresEdges := fun path w hw =>
    he (.upsert w.now w.entry) (hcalls ▸ storedBy_called history path w (hstored ▸ hw))
  have hdeclared : l.Declared := by
    intro r hr
    obtain ⟨w, hw, hr⟩ := List.mem_flatMap.mp hr
    have hd := hdeclares w.path w (l.stored_of_written hsound w hw)
    exact ⟨w.path, hd.declared r hr⟩
  have hsucceeds : ∀ event ∈ history, event.Succeeded := fun event hin =>
    Store.run_succeeds calls .empty l.store history Store.empty_legible hrun event hin
      (he _ (hcalls ▸ List.mem_map_of_mem hin)).hasStrengths
  refine ⟨history, l.store, _, hrun, hcalls, hsucceeds, l.relationGraph_declared hsound hdeclared,
    fun path kinds => ⟨fun hk => ⟨_, l.relatedTo_store hsound hdeclared path kinds hk, seen_forall path _,
      ?_, ?_⟩, fun hk => ⟨_, Ledger.relatedTo_tooMany l.store path kinds hk⟩⟩⟩
  · intro other hsame hother
    rw [l.relatedTo_store hsound hdeclared path other hother, Relation.touches_congr path hsame]
  · intro w a hw ha hall
    have hw : l.stored path = some w := hstored ▸ hw
    have hstrength : ∀ r ∈ a.relations, r.strength = r.kind.strength := fun r hr =>
      ((hdeclares path w hw).declared r ((w.entry.mem_relations r).mpr ⟨a, ha, hr⟩)).strength
    rw [l.outgoing_of_path hsound path w hw a ha hstrength kinds hall]
    exact seen_forall path (byKind a.relations)

theorem related_agrees_with_graph_self :
    ∃ (history : List StoreEvent) (s : Store) (graph : List Relation),
      Store.empty.run
        [.upsert "t0" (importingEntry "a.py" "h0" ["os", "a.py"]),
          .upsert "t1" (importingEntry "b.py" "h1" ["a.py"]), .remove "c.py"] = (history, s) ∧
      s.relationGraph = .ok graph ∧
      ∃ related, s.relatedTo "a.py" [.importing, .inheritance, .implementation, .importing] = .ok related ∧
        List.Forall₂ (Relation.SeenAs "a.py")
          (graph.filter (Relation.touches "a.py" [.importing, .inheritance, .implementation, .importing]))
          related := by
  obtain ⟨history, s, graph, hrun, -, -, hgraph, hall⟩ := related_agrees_with_graph
    [.upsert "t0" (importingEntry "a.py" "h0" ["os", "a.py"]),
      .upsert "t1" (importingEntry "b.py" "h1" ["a.py"]), .remove "c.py"]
    (by
      simp only [List.forall_mem_cons, StoreCall.DeclaresEdges, FileEntry.DeclaresEdges, importingEntry,
        FileAnalysis.of]
      simp)
  obtain ⟨related, hrelated, hseen, -, -⟩ :=
    (hall "a.py" [.importing, .inheritance, .implementation, .importing]).1 (by decide)
  exact ⟨history, s, graph, hrun, hgraph, related, hrelated, hseen⟩

/-- A kind that is repeated too often makes the query fail. -/
theorem related_fails_repeated :
    ¬∀ (calls : List StoreCall), (∀ c ∈ calls, c.DeclaresEdges) →
      ∀ (path : String) (kinds : List RelationKind), ∃ history s related,
        Store.empty.run calls = (history, s) ∧ s.relatedTo path kinds = .ok related := by
  intro h
  obtain ⟨history, s, related, -, hrelated⟩ := h [] (fun _ hc => absurd hc List.not_mem_nil) "a.py"
    (List.replicate Store.maxValues .importing)
  rw [Ledger.relatedTo_tooMany s "a.py" _ (List.length_replicate.ge)] at hrelated
  cases hrelated

end CodeIndex
