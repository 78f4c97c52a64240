import CodeIndex.Language
import CodeIndex.Proofs.Path.Pieces

/-!
# Relative spellings keep the file name

What a path says from another path on has the named pieces of the path behind those of the other. So two
paths with one relative spelling have one file name, and a path that is spelt in full agrees with it too.
-/

namespace CodeIndex

open CodeIndex.Path

/-! ### Components -/

/-- The component that a named piece stands for. -/
def namedComponent (piece : Text) : Component :=
  if piece = ['.', '.'] then .parent else .name piece

/-- Whether a component is written by a named piece. -/
def Component.isNamed (c : Component) : Bool := c != .root && c != .current

theorem isNamed_namedComponent (piece : Text) : (namedComponent piece).isNamed = true := by
  unfold namedComponent
  split <;> rfl

theorem namedComponent_injective (a b : Text) (h : namedComponent a = namedComponent b) : a = b := by
  unfold namedComponent at h
  split at h
  · split at h
    · rename_i ha hb
      exact ha.trans hb.symm
    · cases h
  · split at h
    · cases h
    · exact Component.name.inj h

theorem componentOf_eq (piece : Text) :
    componentOf? piece = if isIdle piece then none else some (namedComponent piece) := by
  unfold componentOf? namedComponent isIdle
  by_cases h : piece = [] ∨ piece = ['.']
  · rcases h with rfl | rfl <;> rfl
  · have hi : (piece.isEmpty || piece == ['.']) = false := by simpa [not_or] using h
    rw [if_neg h, hi]
    simp only [Bool.false_eq_true, ite_false]
    split <;> rfl

theorem filterMap_componentOf (pieces : List Text) :
    pieces.filterMap componentOf? = (pieces.filter (!isIdle ·)).map namedComponent := by
  induction pieces with
  | nil => rfl
  | cons piece rest ih =>
    rw [List.filterMap_cons, componentOf_eq, ih]
    cases hi : isIdle piece
    · rw [List.filter_cons_of_pos (by rw [hi]; rfl), List.map_cons]
      rfl
    · rw [List.filter_cons_of_neg (by rw [hi]; decide)]
      rfl

/-- The component that a path starts with and that no named piece stands for. -/
def leadingComponent (p : Path) : List Component :=
  if p.isAbsolute then [.root]
  else if p.text.takeWhile (· != '/') = ['.'] then [.current]
  else []

theorem firstPiece_of_isAbsolute (p : Path) (h : p.isAbsolute = true) :
    p.text.takeWhile (· != '/') = [] := by
  cases ht : p.text with
  | nil => rfl
  | cons c t =>
    by_cases hc : ('/' == c) = true
    · rw [← beq_iff_eq.mp hc]
      rfl
    · simp [isAbsolute, ht, Text.startsWith, Text.dropStart?, hc] at h

theorem components_eq (p : Path) :
    p.components = leadingComponent p ++ (namedPieces p.text).map namedComponent := by
  have hhead := splitOn_head p.text
  cases hs : p.text.splitOn (· == '/') with
  | nil => exact absurd hs (splitOn_ne_nil _ _)
  | cons first rest =>
    rw [hs, List.head?_cons, Option.some.injEq] at hhead
    have hnamed : namedPieces p.text = (first :: rest).filter (!isIdle ·) := by
      rw [namedPieces, hs]
    simp only [components, leadingComponent, hs, hnamed, filterMap_componentOf, ← hhead]
    by_cases ha : p.isAbsolute = true
    · have hfirst : first = [] := hhead.trans (firstPiece_of_isAbsolute p ha)
      simp [ha, hfirst, isIdle]
    · by_cases hd : first = ['.']
      · simp [ha, hd, isIdle]
      · simp only [ha, Bool.false_eq_true, ite_false, hd, componentOf_eq, List.nil_append]
        cases hi : isIdle first <;> simp [hi]

theorem named_leadingComponent (p : Path) : (leadingComponent p).filter Component.isNamed = [] := by
  unfold leadingComponent
  split
  · rfl
  · split <;> rfl

theorem named_components (p : Path) :
    p.components.filter Component.isNamed = (namedPieces p.text).map namedComponent := by
  rw [components_eq, List.filter_append, named_leadingComponent, List.nil_append,
    List.filter_eq_self]
  intro c hc
  obtain ⟨piece, -, rfl⟩ := List.mem_map.mp hc
  exact isNamed_namedComponent piece

theorem leadingDot_of_components (p : Path) (rest : List Component)
    (h : p.components = .current :: rest) : p.text.takeWhile (· != '/') = ['.'] := by
  rw [components_eq] at h
  unfold leadingComponent at h
  split at h
  · cases h
  · split at h
    · assumption
    · have hm : Component.current ∈ (namedPieces p.text).map namedComponent := by
        rw [← List.nil_append (List.map _ _), h]
        exact List.mem_cons_self
      obtain ⟨piece, -, hp⟩ := List.mem_map.mp hm
      have hn := isNamed_namedComponent piece
      rw [hp] at hn
      cases hn

/-- The file name is the last named piece, unless that is a pair of dots. -/
theorem fileName_eq (p : Path) :
    p.fileName? = (namedPieces p.text).getLast?.bind fun piece =>
      if piece = ['.', '.'] then none else some piece := by
  rw [fileName?, components_eq, List.getLast?_append, List.getLast?_map]
  cases hn : (namedPieces p.text).getLast? with
  | some piece =>
    simp only [Option.map_some, Option.some_or, Option.bind_some, namedComponent]
    by_cases hd : piece = ['.', '.'] <;> simp [hd]
  | none =>
    simp only [Option.map_none, Option.none_or, Option.bind_none, leadingComponent]
    split
    · rename_i n h
      split at h
      · cases h
      · split at h <;> cases h
    · rfl

/-! ### Relative spellings -/

theorem startsWithComponents_eq (list base : List Component)
    (h : startsWithComponents list base = true) : ∃ rest, list = base ++ rest := by
  induction base generalizing list with
  | nil => exact ⟨list, rfl⟩
  | cons b base ih =>
    cases list with
    | nil => cases h
    | cons a list =>
      simp only [startsWithComponents, Bool.and_eq_true, beq_iff_eq] at h
      obtain ⟨rest, hr⟩ := ih list h.2
      exact ⟨rest, by rw [h.1, hr, List.cons_append]⟩

theorem take_namedPieces (p base : Path)
    (h : startsWithComponents p.components base.components = true) :
    (namedPieces p.text).take (namedPieces base.text).length = namedPieces base.text := by
  obtain ⟨rest, hr⟩ := startsWithComponents_eq _ _ h
  have hmap : (namedPieces p.text).map namedComponent =
      (namedPieces base.text).map namedComponent ++ rest.filter Component.isNamed := by
    rw [← named_components p, hr, List.filter_append, named_components base]
  apply (List.map_inj_right namedComponent_injective).mp
  rw [List.map_take, hmap, List.take_left' (List.length_map _)]

theorem relativeTo_drop (p base r : Path) (h : p.relativeTo? base = some r) :
    startsWithComponents p.components base.components = true ∧
      namedPieces r.text = (namedPieces p.text).drop (namedPieces base.text).length := by
  have hcount : (base.components.filter fun c => c != .root && c != .current).length =
      (namedPieces base.text).length := by
    rw [show (base.components.filter fun c => c != .root && c != .current) =
      base.components.filter Component.isNamed from rfl, named_components, List.length_map]
  simp only [relativeTo?, hcount] at h
  split at h
  · rename_i hs
    refine ⟨hs, ?_⟩
    cases hb : base.components with
    | nil =>
      rw [hb] at h hcount
      rw [← hcount, ← Option.some.inj h, namedPieces_trimmed]
      rfl
    | cons c list =>
      rw [hb] at h
      cases c with
      | current =>
        obtain ⟨rest, hr⟩ := startsWithComponents_eq _ _ hs
        have hdot := leadingDot_of_components p (list ++ rest) (by rw [hr, hb, List.cons_append])
        rw [← Option.some.inj h, namedPieces_trimmed, namedPieces_dropPieces,
          namedPieces_leadingDot _ hdot]
      | root => rw [← Option.some.inj h, namedPieces_trimmed, namedPieces_dropPieces]
      | parent => rw [← Option.some.inj h, namedPieces_trimmed, namedPieces_dropPieces]
      | name n => rw [← Option.some.inj h, namedPieces_trimmed, namedPieces_dropPieces]
  · cases h

/-- The named pieces of a path are those of the other path, and those of what it says from there on. -/
theorem relativeTo_pieces (p base r : Path) (h : p.relativeTo? base = some r) :
    namedPieces p.text = namedPieces base.text ++ namedPieces r.text := by
  obtain ⟨hs, hdrop⟩ := relativeTo_drop p base r h
  have happend := List.take_append_drop (namedPieces base.text).length (namedPieces p.text)
  rw [take_namedPieces p base hs, ← hdrop] at happend
  exact happend.symm

/-- Paths with one relative spelling, or with one spelling in full, have one file name. -/
theorem fileName_of_pieces (p q : Path) (base k : List Text) (hp : namedPieces p.text = base ++ k)
    (hq : namedPieces q.text = k) (h : q.fileName?.isSome) : p.fileName? = q.fileName? := by
  rw [fileName_eq] at h ⊢
  rw [fileName_eq, hp, hq, List.getLast?_append]
  cases hk : k.getLast? with
  | none =>
    rw [hq, hk] at h
    cases h
  | some piece => rfl

end CodeIndex
