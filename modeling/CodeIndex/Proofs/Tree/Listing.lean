import CodeIndex.Proofs.Text.ByteOrder
import CodeIndex.Tree.Basic
import Mathlib.Data.List.Nodup

/-!
# Depth-first listings

The files of a tree, each by the names that lead to it, listed depth first. In a tree whose directories
hold no name twice these are the names that lead to a file; once the tree is put in order they come in
the order of depth and bytes, and this order allows one list of them only.
-/

namespace CodeIndex

/-! ### Depth-first order -/

/-- Whether names come before others, depth first: of the first two that differ, the one has the smaller
bytes. -/
inductive ComesBefore : List Text → List Text → Prop where
  | here {a b : Text} (s t : List Text) : a.bytes < b.bytes → ComesBefore (a :: s) (b :: t)
  | inside (a : Text) {s t : List Text} : ComesBefore s t → ComesBefore (a :: s) (a :: t)

namespace ComesBefore

theorem asymm {s t : List Text} (h : ComesBefore s t) : ¬ComesBefore t s := by
  induction h with
  | here s t hlt =>
    intro h
    cases h with
    | here _ _ hgt => exact List.lt_asymm hlt hgt
    | inside _ _ => exact List.lt_irrefl _ hlt
  | inside a _ ih =>
    intro h
    cases h with
    | here _ _ hlt => exact List.lt_irrefl _ hlt
    | inside _ h => exact ih h

theorem nodup {listing : List (List Text)} (h : listing.Pairwise ComesBefore) : listing.Nodup :=
  h.imp fun hst he => (he ▸ hst).asymm (he ▸ hst)

/-- Two lists in depth-first order with the same members are the same. -/
theorem unique {listing other : List (List Text)} (h : listing.Pairwise ComesBefore)
    (h' : other.Pairwise ComesBefore) (hmem : ∀ names, names ∈ listing ↔ names ∈ other) :
    listing = other :=
  ((List.perm_ext_iff_of_nodup (nodup h) (nodup h')).mpr hmem).eq_of_pairwise
    (fun _ _ _ _ hab hba => absurd hba hab.asymm) h h'

end ComesBefore

namespace Tree

/-! ### Entries -/

/-- The induction on trees: a directory has what the trees of its entries have. -/
@[elab_as_elim, induction_eliminator]
theorem induction {motive : Tree → Prop} (file : ∀ c, motive (.file c))
    (directory : ∀ entries, (∀ e ∈ entries, motive e.2) → motive (.directory entries)) (t : Tree) :
    motive t :=
  @Tree.rec motive (fun entries => ∀ e ∈ entries, motive e.2) (fun e => motive e.2) file directory
    (fun _ he => nomatch he) (fun _ _ ha hrest => List.forall_mem_cons.mpr ⟨ha, hrest⟩)
    (fun _ _ ht => ht) t

theorem mem_of_child? {t c : Tree} {name : Text} (hc : t.child? name = some c) :
    (name, c) ∈ t.entries := by
  obtain ⟨front, rest, he, -⟩ := List.lookup_eq_some_iff.mp hc
  rw [he]
  exact List.mem_append_right front List.mem_cons_self

/-- Whether a directory holds no name twice. -/
def NamesOnce (t : Tree) : Prop :=
  (t.entries.map (·.1)).Nodup

instance (t : Tree) : Decidable t.NamesOnce :=
  inferInstanceAs (Decidable (List.Nodup _))

theorem child?_eq_some {t c : Tree} {name : Text} (h : t.NamesOnce) :
    t.child? name = some c ↔ (name, c) ∈ t.entries := by
  refine ⟨mem_of_child?, fun hmem => ?_⟩
  rw [child?, List.lookup_eq_some_iff]
  obtain ⟨front, rest, he⟩ := List.append_of_mem hmem
  refine ⟨front, rest, he, fun p hp => bne_iff_ne.mpr fun hname => ?_⟩
  rw [NamesOnce, he, List.map_append] at h
  exact (List.nodup_append.mp h).2.2 p.1 (List.mem_map_of_mem hp) p.1
    (List.mem_map.mpr ⟨(name, c), List.mem_cons_self, hname⟩) rfl

/-! ### Properties of all that is in a tree -/

/-- Whether all that is found in a tree, from itself on, has a property. -/
def Everywhere (P : Tree → Prop) (t : Tree) : Prop :=
  ∀ names d, t.descend? names = some d → P d

variable {P Q : Tree → Prop} {t c : Tree} {name : Text}

theorem Everywhere.here (h : t.Everywhere P) : P t :=
  h [] t rfl

theorem Everywhere.imp (h : t.Everywhere P) (hPQ : ∀ d, P d → Q d) : t.Everywhere Q :=
  fun names d hd => hPQ d (h names d hd)

theorem Everywhere.child (h : t.Everywhere P) (hc : t.child? name = some c) : c.Everywhere P :=
  fun names d hd => h (name :: names) d (by rw [descend?, hc, Option.bind_some, hd])

/-- What holds everywhere in a tree holds everywhere in all that is found in it. -/
theorem Everywhere.everywhere (h : t.Everywhere P) : t.Everywhere (Everywhere P) := by
  intro names d hd
  induction names generalizing t with
  | nil =>
    cases hd
    exact h
  | cons name names ih =>
    obtain ⟨c, hc, hd⟩ := Option.bind_eq_some_iff.mp hd
    exact ih (h.child hc) hd

theorem Everywhere.file {content : Content} (h : P (.file content)) :
    (Tree.file content).Everywhere P := by
  intro names d hd
  cases names with
  | nil =>
    cases hd
    exact h
  | cons name names => cases hd

theorem Everywhere.directory {entries : List (Text × Tree)} (h : P (.directory entries))
    (hentries : ∀ e ∈ entries, e.2.Everywhere P) : (Tree.directory entries).Everywhere P := by
  intro names d hd
  cases names with
  | nil =>
    cases hd
    exact h
  | cons name names =>
    obtain ⟨c, hc, hfound⟩ := Option.bind_eq_some_iff.mp hd
    exact hentries (name, c) (mem_of_child? hc) names d hfound

theorem Everywhere.entry (h : t.Everywhere P) (hn : t.NamesOnce) {e : Text × Tree}
    (he : e ∈ t.entries) : e.2.Everywhere P :=
  h.child ((child?_eq_some hn).mpr he)

/-! ### Listings -/

mutual

/-- The names that lead to the files of a tree, depth first. -/
def listing : Tree → List (List Text)
  | .file _ => [[]]
  | .directory entries => listingBelow entries

def listingBelow : List (Text × Tree) → List (List Text)
  | [] => []
  | (name, t) :: rest => t.listing.map (name :: ·) ++ listingBelow rest

end

theorem listing_directory (entries : List (Text × Tree)) :
    (directory entries).listing = entries.flatMap fun e => e.2.listing.map (e.1 :: ·) := by
  rw [listing]
  induction entries with
  | nil => rfl
  | cons e rest ih =>
    rw [listingBelow, ih]
    rfl

theorem mem_listing (t : Tree) (h : t.Everywhere NamesOnce)
    (names : List Text) : names ∈ t.listing ↔ ∃ c, t.descend? names = some (.file c) := by
  induction t generalizing names with
  | file content =>
    cases names with
    | nil => exact iff_of_true List.mem_cons_self ⟨content, rfl⟩
    | cons name names => simp [listing, descend?, child?, entries]
  | directory entries ih =>
    rw [listing_directory, List.mem_flatMap]
    cases names with
    | nil => simp [descend?]
    | cons name names =>
      constructor
      · rintro ⟨⟨name, c⟩, he, hmem⟩
        obtain ⟨names, hrest, heq⟩ := List.mem_map.mp hmem
        cases heq
        obtain ⟨content, hc⟩ := (ih (name, c) he (h.entry h.here he) names).mp hrest
        exact ⟨content, by rw [descend?, (child?_eq_some h.here).mpr he, Option.bind_some, hc]⟩
      · rintro ⟨content, hd⟩
        obtain ⟨c, hc, hd⟩ := Option.bind_eq_some_iff.mp hd
        have he := (child?_eq_some h.here).mp hc
        exact ⟨(name, c), he,
          List.mem_map_of_mem ((ih (name, c) he (h.entry h.here he) names).mpr ⟨content, hd⟩)⟩

/-- Whether the entries of a directory are in the order of the bytes of their names. -/
def IsInOrder (t : Tree) : Prop :=
  t.entries.Pairwise fun a b => a.1.bytes < b.1.bytes

theorem IsInOrder.namesOnce (h : t.IsInOrder) : t.NamesOnce := by
  refine List.pairwise_map.mpr (h.imp ?_)
  intro a b hlt he
  exact List.lt_irrefl _ (he ▸ hlt)

theorem listing_pairwise (t : Tree) (h : t.Everywhere IsInOrder) : t.listing.Pairwise ComesBefore := by
  induction t with
  | file content => exact List.pairwise_singleton _ _
  | directory entries ih =>
    rw [listing_directory, List.pairwise_flatMap]
    refine ⟨fun e he => ?_, h.here.imp fun hlt s hs u hu => ?_⟩
    · exact (ih e he (h.entry h.here.namesOnce he)).map _ fun _ _ hst => .inside e.1 hst
    · obtain ⟨s, -, rfl⟩ := List.mem_map.mp hs
      obtain ⟨u, -, rfl⟩ := List.mem_map.mp hu
      exact .here s u hlt

/-! ### Trees in order -/

theorem entriesInOrder_eq (entries : List (Text × Tree)) :
    entriesInOrder entries = entries.map fun e => (e.1, e.2.inOrder) := by
  induction entries with
  | nil => rfl
  | cons e rest ih =>
    rw [entriesInOrder, ih]
    rfl

theorem inOrder_entries (t : Tree) :
    t.inOrder.entries.Perm (t.entries.map fun e => (e.1, e.2.inOrder)) := by
  cases t with
  | file content => exact .refl []
  | directory entries =>
    rw [inOrder, entriesInOrder_eq]
    exact List.mergeSort_perm _ _

theorem inOrder_namesOnce (h : t.NamesOnce) : t.inOrder.NamesOnce := by
  have hperm := (inOrder_entries t).map (·.1)
  rw [List.map_map] at hperm
  exact hperm.nodup_iff.mpr h

theorem child?_inOrder (h : t.NamesOnce) (name : Text) :
    t.inOrder.child? name = (t.child? name).map inOrder := by
  refine Option.ext fun c => ?_
  rw [child?_eq_some (inOrder_namesOnce h), (inOrder_entries t).mem_iff, List.mem_map,
    Option.map_eq_some_iff]
  constructor
  · rintro ⟨e, he, heq⟩
    cases heq
    exact ⟨e.2, (child?_eq_some h).mpr he, rfl⟩
  · rintro ⟨d, hd, rfl⟩
    exact ⟨(name, d), (child?_eq_some h).mp hd, rfl⟩

theorem descend?_inOrder (h : t.Everywhere NamesOnce) (names : List Text) :
    t.inOrder.descend? names = (t.descend? names).map inOrder := by
  induction names generalizing t with
  | nil => rfl
  | cons name names ih =>
    rw [descend?, descend?, child?_inOrder h.here]
    cases hc : t.child? name with
    | none => rfl
    | some c => exact ih (h.child hc)

/-- A tree that is put in order has a property everywhere if all in the tree has it once put in order. -/
theorem Everywhere.inOrder (hP : t.Everywhere fun d => P d.inOrder)
    (h : t.Everywhere NamesOnce) : t.inOrder.Everywhere P := by
  intro names d hd
  rw [descend?_inOrder h] at hd
  obtain ⟨found, hfound, rfl⟩ := Option.map_eq_some_iff.mp hd
  exact hP names found hfound

theorem mergeSort_nameNotAfter (entries : List (Text × Tree)) :
    (entries.mergeSort nameNotAfter).Pairwise fun a b => a.1.bytes ≤ b.1.bytes := by
  have hle : ∀ a b, nameNotAfter a b = true ↔ a.1.bytes ≤ b.1.bytes := fun a b => by
    rw [nameNotAfter, bne_iff_ne, ne_eq, compare_eq_gt_iff, List.not_lt]
  have hsorted := List.pairwise_mergeSort
    (fun a b c hab hbc => (hle a c).mpr (List.le_trans ((hle a b).mp hab) ((hle b c).mp hbc)))
    (fun a b => Bool.or_eq_true_iff.mpr ((List.le_total _ _).imp (hle a b).mpr (hle b a).mpr)) entries
  exact hsorted.imp (hle _ _).mp

theorem isInOrder_inOrder (h : t.NamesOnce) : t.inOrder.IsInOrder := by
  cases t with
  | file content => exact List.Pairwise.nil
  | directory entries =>
    have hdistinct := List.pairwise_map.mp (inOrder_namesOnce h)
    refine (mergeSort_nameNotAfter (entriesInOrder entries)).imp₂ (fun a b hle hne => ?_) hdistinct
    -- of different names the one that does not have the greater bytes has the smaller ones
    by_contra hnot
    exact hne (bytes_injective (List.le_antisymm hle (List.not_lt.mp hnot)))

/-- The listing of a tree once it is put in order: the names that lead to a file, in depth-first order. -/
theorem listing_inOrder (h : t.Everywhere NamesOnce) :
    (∀ names, names ∈ t.inOrder.listing ↔ ∃ c, t.descend? names = some (.file c)) ∧
      t.inOrder.listing.Pairwise ComesBefore := by
  have hsorted : t.inOrder.Everywhere IsInOrder := (h.imp fun _ => isInOrder_inOrder).inOrder h
  refine ⟨fun names => ?_, listing_pairwise _ hsorted⟩
  rw [mem_listing _ (hsorted.imp fun _ => IsInOrder.namesOnce), descend?_inOrder h]
  refine exists_congr fun c => ?_
  rw [Option.map_eq_some_iff]
  constructor
  · rintro ⟨d, hd, hc⟩
    cases d with
    | file content =>
      rw [inOrder] at hc
      rw [hd, hc]
    | directory entries => cases hc
  · intro hc
    exact ⟨_, hc, rfl⟩

end Tree

end CodeIndex
