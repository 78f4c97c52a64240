import CodeIndex.Path.Order

/-!
# Sorted paths

The order of paths is the order of lists of numbers: a component counts as its rank and the characters of
its name. So it is a linear order on lists of components, and paths that are sorted and pairwise not the
same are sorted strictly.
-/

namespace CodeIndex

/-! ### Components as numbers -/

/-- Two numbers decide first, and what is left decides if they are equal. -/
theorem ite_lt_eq_then (m n : Nat) (rest : Ordering) :
    (if m < n then .lt else if n < m then .gt else rest) = (compare m n).then rest := by
  rcases Nat.lt_trichotomy m n with hlt | rfl | hgt
  · rw [if_pos hlt, Nat.compare_eq_lt.mpr hlt]
    rfl
  · rw [if_neg (Nat.lt_irrefl m), if_neg (Nat.lt_irrefl m), Nat.compare_eq_eq.mpr rfl]
    rfl
  · rw [if_neg (Nat.lt_asymm hgt), if_pos hgt, Nat.compare_eq_gt.mpr hgt]
    rfl

/-- The numbers that a component is compared by. -/
def Component.key (a : Component) : List Nat :=
  a.rank :: a.nameText.map Char.toNat

theorem Text.compare_eq (s t : Text) :
    Text.compare s t = List.compareLex Ord.compare (s.map Char.toNat) (t.map Char.toNat) := by
  induction s generalizing t with
  | nil => cases t <;> rfl
  | cons a s ih =>
    cases t with
    | nil => rfl
    | cons b t =>
      rw [Text.compare, ih, ite_lt_eq_then, List.map_cons, List.map_cons, List.compareLex_cons_cons]

theorem Component.compare_eq (a b : Component) :
    a.compare b = List.compareLex Ord.compare a.key b.key := by
  rw [Component.compare, Text.compare_eq, ite_lt_eq_then, key, key, List.compareLex_cons_cons]

theorem Component.key_injective {a b : Component} (h : a.key = b.key) : a = b := by
  obtain ⟨hrank, hname⟩ := List.cons.inj h
  have htext := (List.map_inj_right fun _ _ => Char.toNat_inj.mp).mp hname
  cases a <;> cases b <;> first | rfl | exact congrArg Component.name htext | cases hrank

/-- How lists of components compare, as lists of lists of numbers. -/
theorem compareComponents_eq (s t : List Component) :
    compareComponents s t =
      List.compareLex (List.compareLex Ord.compare) (s.map Component.key) (t.map Component.key) := by
  induction s generalizing t with
  | nil => cases t <;> rfl
  | cons a s ih =>
    cases t with
    | nil => rfl
    | cons b t =>
      rw [compareComponents, ih, Component.compare_eq, List.map_cons, List.map_cons,
        List.compareLex_cons_cons]
      cases List.compareLex Ord.compare a.key b.key <;> rfl

/-! ### Order -/

namespace Path

/-- Whether a path comes before another, and is not the same. -/
def IsBefore (p q : Path) : Prop :=
  compareComponents p.components q.components = .lt

/-- Whether a path is not after another, by the numbers of its components. -/
theorem notAfter_eq (p q : Path) :
    p.notAfter q = (List.compareLex (List.compareLex Ord.compare) (p.components.map Component.key)
      (q.components.map Component.key)).isLE := by
  rw [notAfter, ← compareComponents_eq]
  cases compareComponents p.components q.components <;> rfl

theorem notAfter_trans (p q r : Path) (h : p.notAfter q = true) (h' : q.notAfter r = true) :
    p.notAfter r = true := by
  rw [notAfter_eq] at *
  exact Std.TransCmp.isLE_trans h h'

theorem notAfter_total (p q : Path) : (p.notAfter q || q.notAfter p) = true := by
  have hswap : List.compareLex (List.compareLex Ord.compare) (p.components.map Component.key)
      (q.components.map Component.key) = (List.compareLex (List.compareLex Ord.compare)
        (q.components.map Component.key) (p.components.map Component.key)).swap := Std.OrientedCmp.eq_swap
  rw [notAfter_eq, notAfter_eq, hswap]
  cases List.compareLex (List.compareLex Ord.compare) (q.components.map Component.key)
    (p.components.map Component.key) <;> rfl

/-- Of paths that are not the same, the one that is not after the other is before it. -/
theorem isBefore_of_notAfter {p q : Path} (h : p.notAfter q = true) (hnot : p.same q = false) :
    p.IsBefore q := by
  rw [IsBefore]
  rw [notAfter] at h
  cases hcompare : compareComponents p.components q.components with
  | lt => rfl
  | gt =>
    rw [hcompare] at h
    cases h
  | eq =>
    rw [compareComponents_eq] at hcompare
    have hkeys := Std.LawfulEqCmp.eq_of_compare hcompare
    have hcomponents := (List.map_inj_right fun _ _ => Component.key_injective).mp hkeys
    rw [same, hcomponents, beq_self_eq_true] at hnot
    cases hnot

end Path

end CodeIndex
