import CodeIndex.Proofs.Number.Width
import CodeIndex.Proofs.Store.Queries

/-!
# Edges by strength

A column of real numbers keeps a strength as the double with the same value, which orders as the strength
does and gives it back, but for the sign of a zero. So the edges of a ledger that are asked for come as a
stable sort of the stored relations by strength, the strongest first.
-/

namespace CodeIndex

/-! ### Strengths as doubles -/

namespace Single

theorem magnitude_le (x : Single) (h : x.isNaN = false) : x.magnitude ≤ 255 * 2 ^ 23 := by
  have hn : ¬0x7f800000 < x.magnitude := of_decide_eq_false h
  omega

theorem widened_le_iff (m n : Nat) (hm : m ≤ 255 * 2 ^ 23) (hn : n ≤ 255 * 2 ^ 23) :
    widened m ≤ widened n ↔ m ≤ n := by
  constructor
  · intro hw
    by_contra hlt
    have hgt := widened_lt n m (by omega) hm
    omega
  · intro hle
    rcases Nat.lt_or_eq_of_le hle with hlt | rfl
    · exact (widened_lt m n hlt hn).le
    · exact Nat.le_refl _

theorem realKey_toFloat (x : Single) (h : x.isNaN = false) :
    Cell.realKey x.toFloat =
      if x.bits.toNat < bound31 then (widened x.magnitude : Int) else -widened x.magnitude := by
  have hb := x.toFloat_bits h
  have hw := widened_bound x.magnitude (x.magnitude_le h)
  have hx : x.bits.toNat < 2 ^ 32 := x.bits.toNat_lt
  simp only [Cell.realKey, hb]
  unfold bound31 bound63 at *
  split <;> split <;> omega

theorem realKey_le_iff (x y : Single) (hx : x.isNaN = false) (hy : y.isNaN = false) :
    Cell.realKey x.toFloat ≤ Cell.realKey y.toFloat ↔ x.key ≤ y.key := by
  have hmx := x.magnitude_le hx
  have hmy := y.magnitude_le hy
  have hxy := widened_le_iff _ _ hmx hmy
  have hyx := widened_le_iff _ _ hmy hmx
  -- numbers of different signs compare as their magnitudes do with zero
  have hxzero := widened_le_iff _ 0 hmx (by omega)
  have hyzero := widened_le_iff _ 0 hmy (by omega)
  have hzero : widened 0 = 0 := rfl
  rw [realKey_toFloat x hx, realKey_toFloat y hy, key, key]
  split <;> split <;> omega

theorem unsigned_key (x : Single) : x.unsigned.key = x.key := by
  rw [unsigned]
  split
  · next h =>
    have hm : x.magnitude = 0 := beq_iff_eq.mp h
    have hzero : zero.key = 0 := rfl
    rw [hzero, key, hm]
    split <;> rfl
  · rfl

theorem unsigned_isNaN (x : Single) (h : x.isNaN = false) : x.unsigned.isNaN = false := by
  rw [unsigned]
  split
  · rfl
  · exact h

end Single

/-- A relation as a row of edges keeps it: zero has no sign, and the metadata is a text. -/
def Relation.stored (r : Relation) : Relation :=
  { r with strength := r.strength.unsigned, metadata := r.metadata.spelled }

/-! ### Stable sorts -/

/-- A sort leaves the items of one level in the order in which they were listed. -/
theorem mergeSort_level {α κ : Type} [BEq κ] [LawfulBEq κ] (key : α → κ) (le : α → α → Bool)
    (htrans : ∀ a b c, le a b = true → le b c = true → le a c = true)
    (htotal : ∀ a b, (le a b || le b a) = true) (hlevel : ∀ a b, key a = key b → le a b = true)
    (listed : List α) (k : κ) :
    (listed.mergeSort le).filter (key · == k) = listed.filter (key · == k) := by
  -- items of one level are in order already, so the sort keeps them as a sublist
  have hsorted : (listed.filter (key · == k)).Pairwise fun a b => le a b = true := by
    rw [List.pairwise_iff_forall_sublist]
    intro a b hab
    have ha := (List.mem_filter.mp (hab.subset List.mem_cons_self)).2
    have hb := (List.mem_filter.mp (hab.subset (List.mem_cons_of_mem a List.mem_cons_self))).2
    exact hlevel a b (by rw [beq_iff_eq.mp ha, beq_iff_eq.mp hb])
  have hsub := (List.sublist_mergeSort htrans htotal hsorted List.filter_sublist).filter (key · == k)
  rw [List.filter_filter] at hsub
  simp only [Bool.and_self] at hsub
  exact (hsub.eq_of_length ((List.mergeSort_perm listed le).filter _).length_eq.symm).symm

/-! ### Sorts by strength -/

/-- Whether a relation may stand before another in the order of strength. -/
def Relation.strongestFirst (a b : Relation) : Bool := b.strength.key ≤ a.strength.key

/-- The strongest first, and those of one strength as they were listed. -/
structure StrongestFirst (sorted listed : List Relation) : Prop where
  perm : sorted.Perm listed
  falling : sorted.Pairwise fun a b => b.strength.key ≤ a.strength.key
  stable : ∀ key, sorted.filter (·.strength.key == key) = listed.filter (·.strength.key == key)

theorem mergeSort_strongestFirst (listed : List Relation) :
    StrongestFirst (listed.mergeSort Relation.strongestFirst) listed := by
  have htrans : ∀ a b c : Relation, a.strongestFirst b = true → b.strongestFirst c = true →
      a.strongestFirst c = true := by
    intro a b c hab hbc
    exact decide_eq_true ((of_decide_eq_true hbc).trans (of_decide_eq_true hab))
  have htotal : ∀ a b : Relation, (a.strongestFirst b || b.strongestFirst a) = true := by
    intro a b
    rcases Int.le_total b.strength.key a.strength.key with h | h
    · exact Bool.or_eq_true_iff.mpr (Or.inl (decide_eq_true h))
    · exact Bool.or_eq_true_iff.mpr (Or.inr (decide_eq_true h))
  have hlevel : ∀ a b : Relation, a.strength.key = b.strength.key → a.strongestFirst b = true :=
    fun a b h => decide_eq_true h.ge
  have hsorted := List.pairwise_mergeSort htrans htotal listed
  exact ⟨List.mergeSort_perm listed Relation.strongestFirst, hsorted.imp fun h => of_decide_eq_true h,
    mergeSort_level (·.strength.key) Relation.strongestFirst htrans htotal hlevel listed⟩

/-! ### Edges of a ledger -/

theorem EdgeRow.decode_of (now : String) (r : Relation) (h : r.strength.isNaN = false) :
    ((EdgeRow.of now r).read >>= EdgeCells.decode) = .ok r.stored := by
  have hkind : RelationKind.ofName? r.kind.name = some r.kind := by cases r.kind <;> decide
  have hread : (EdgeRow.of now r).read =
      .ok
        { source := r.source
          target := r.target
          kind := r.kind.name
          strength := r.strength.unsigned.toFloat
          metadata := .document r.metadata } := rfl
  have hm := Written.decode_document "relationship metadata" some r.metadata r.metadata.spelled rfl
  have hs := Single.ofFloat_toFloat r.strength.unsigned (r.strength.unsigned_isNaN h)
  simp only [hread, bind, Except.bind, EdgeCells.decode, hkind, hm, hs]
  rfl

theorem strongerFirst_of (now later : String) (a b : Relation) (ha : a.strength.isNaN = false)
    (hb : b.strength.isNaN = false) :
    Store.strongerFirst (.of now a) (.of later b) = a.strongestFirst b := by
  have hiff := Single.realKey_le_iff b.strength.unsigned a.strength.unsigned
    (b.strength.unsigned_isNaN hb) (a.strength.unsigned_isNaN ha)
  rw [Single.unsigned_key, Single.unsigned_key] at hiff
  have hcompare : Store.strongerFirst (.of now a) (.of later b) =
      (Ord.compare (Cell.realKey a.strength.unsigned.toFloat)
        (Cell.realKey b.strength.unsigned.toFloat) != .lt) := rfl
  rw [hcompare, Bool.eq_iff_iff, bne_iff_ne, ne_eq, Int.compare_eq_lt, Int.not_lt, hiff]
  exact decide_eq_true_iff.symm

theorem stored_strongestFirst (a b : Relation) : a.stored.strongestFirst b.stored = a.strongestFirst b := by
  simp only [Relation.strongestFirst, Relation.stored, Single.unsigned_key]

namespace Ledger

/-- The relations of the stored entries, in the order of the last writes. -/
def relations (l : Ledger) : List Relation := l.written.flatMap (·.entry.relations)

theorem relations_strength (l : Ledger) (h : l.Sound) (r : Relation) (hr : r ∈ l.relations) :
    r.strength.isNaN = false := by
  obtain ⟨w, hw, hr⟩ := List.mem_flatMap.mp hr
  have hs := List.all_eq_true.mp (h.strong w hw) r hr
  rwa [Bool.not_eq_true'] at hs

/-- The relations with the times of their writing. -/
def stampedRelations (l : Ledger) : List (String × Relation) :=
  l.written.flatMap fun w => w.entry.relations.map (w.now, ·)

theorem relations_eq (l : Ledger) : l.relations = l.stampedRelations.map (·.2) := by
  rw [stampedRelations, List.map_flatMap]
  simp only [List.map_map, Function.comp_def, List.map_id']
  rfl

theorem edges_store (l : Ledger) :
    l.store.edges = l.stampedRelations.map fun i => .of i.1 i.2 := by
  rw [stampedRelations, List.map_flatMap]
  simp only [List.map_map]
  rfl

/-- The edges that satisfy a condition on their relations are these relations by strength. -/
theorem edgesWhere_store (l : Ledger) (h : l.Sound) (holds : EdgeRow → Bool) (keep : Relation → Bool)
    (hkeep : ∀ now r, holds (.of now r) = keep r) :
    l.store.edgesWhere holds =
      .ok (((l.relations.filter keep).map Relation.stored).mergeSort Relation.strongestFirst) := by
  let kept := l.stampedRelations.filter fun i => keep i.2
  have hfilter : l.store.edges.filter holds = kept.map fun i => .of i.1 i.2 := by
    rw [edges_store, List.filter_map]
    simp only [Function.comp_def, hkeep]
    rfl
  have hrelations : (l.relations.filter keep).map Relation.stored = kept.map fun i => i.2.stored := by
    rw [relations_eq, List.filter_map, List.map_map]
    rfl
  have hnumbers : ∀ i ∈ kept, i.2.strength.isNaN = false := fun i hi =>
    l.relations_strength h i.2 (l.relations_eq ▸ List.mem_map_of_mem (List.mem_filter.mp hi).1)
  have hrows := List.map_mergeSort (r := fun a b => a.2.strongestFirst b.2)
    (s := Store.strongerFirst) (f := fun i : String × Relation => EdgeRow.of i.1 i.2) (l := kept)
    fun a ha b hb => (strongerFirst_of a.1 b.1 a.2 b.2 (hnumbers a ha) (hnumbers b hb)).symm
  have hanswers := List.map_mergeSort (r := fun a b => a.2.strongestFirst b.2)
    (s := Relation.strongestFirst) (f := fun i : String × Relation => i.2.stored) (l := kept)
    fun a _ b _ => (stored_strongestFirst a.2 b.2).symm
  rw [Store.edgesWhere, hfilter, hrelations, ← hrows, ← hanswers]
  refine readAll_ok EdgeRow.read EdgeCells.decode _ _ _ fun i hi => ?_
  exact EdgeRow.decode_of i.1 i.2 (hnumbers i (List.mem_mergeSort.mp hi))

theorem relationGraph_store (l : Ledger) (h : l.Sound) :
    l.store.relationGraph = .ok ((l.relations.map Relation.stored).mergeSort Relation.strongestFirst) := by
  have hall := l.edgesWhere_store h (fun _ => true) (fun _ => true) fun _ _ => rfl
  rwa [List.filter_true] at hall

end Ledger

end CodeIndex
