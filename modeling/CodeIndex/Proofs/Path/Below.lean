import CodeIndex.Proofs.Path.Relative
import CodeIndex.Proofs.Text.Places
import CodeIndex.Tree.Walk

/-!
# Paths below a path

The path that names lead to from another path has the named pieces of that path and then the names, so
different names lead to different paths. Its file name is the last of the names, and its extension is
what follows the last dot of that.
-/

namespace CodeIndex

open CodeIndex.Path

/-- The path that names lead to from a path. -/
def Path.below (p : Path) (names : List Text) : Path :=
  names.foldl entry p

/-- Whether a name is a piece of a path that stands for an entry: it is not empty, has no slash and does
not start with a dot. -/
structure IsShownName (name : Text) : Prop where
  nonempty : name ≠ []
  whole : '/' ∉ name
  shown : ¬['.'] <+: name

/-! ### Pieces -/

theorem IsShownName.namedPieces {name : Text} (h : IsShownName name) : namedPieces name = [name] := by
  refine namedPieces_one name (fun c hc => beq_eq_false_iff_ne.mpr fun he => h.whole (he ▸ hc)) ?_
  rw [isIdle, Bool.or_eq_false_iff, beq_eq_false_iff_ne, List.isEmpty_eq_false_iff]
  exact ⟨h.nonempty, fun he => h.shown (he ▸ List.prefix_rfl)⟩

theorem namedPieces_entry (p : Path) (name : Text) (h : IsShownName name) :
    namedPieces (p.entry name).text = namedPieces p.text ++ [name] := by
  have hrelative : ¬(Path.mk name).isAbsolute = true := by
    rw [isAbsolute, startsWith_iff]
    rintro ⟨rest, he⟩
    have he : '/' :: rest = name := he
    exact h.whole (he ▸ List.mem_cons_self)
  rw [entry, join]
  split
  · next hor =>
    rw [List.isEmpty_iff] at hor
    rw [hor.resolve_left hrelative, h.namedPieces]
    rfl
  · split
    · next hend =>
      -- the slash at the end of the path is the one before the name
      rw [Text.endsWith, startsWith_iff] at hend
      obtain ⟨rest, hrest⟩ := hend
      have htext : p.text = rest.reverse ++ '/' :: [] := by
        rw [← List.reverse_reverse p.text, ← hrest]
        simp
      rw [htext, List.append_assoc, List.cons_append, List.nil_append, namedPieces_append,
        namedPieces_append, h.namedPieces, namedPieces_nil, List.append_nil]
    · rw [namedPieces_append, h.namedPieces]

theorem namedPieces_below (p : Path) (names : List Text) (h : ∀ name ∈ names, IsShownName name) :
    namedPieces (p.below names).text = namedPieces p.text ++ names := by
  induction names generalizing p with
  | nil => exact (List.append_nil _).symm
  | cons name names ih =>
    rw [below, List.foldl_cons, ← below, ih _ (List.forall_mem_cons.mp h).2,
      namedPieces_entry p name (List.forall_mem_cons.mp h).1, List.append_assoc, List.singleton_append]

theorem below_injective (p : Path) (names others : List Text) (h : ∀ name ∈ names, IsShownName name)
    (h' : ∀ name ∈ others, IsShownName name) (he : p.below names = p.below others) : names = others := by
  have hpieces := namedPieces_below p names h
  rw [he, namedPieces_below p others h'] at hpieces
  exact (List.append_cancel_left hpieces).symm

/-! ### Extensions -/

theorem fileName?_below (p : Path) (names : List Text) (h : ∀ name ∈ names, IsShownName name)
    (name : Text) (hlast : names.getLast? = some name) : (p.below names).fileName? = some name := by
  have hdots : name ≠ ['.', '.'] := fun he =>
    (h name (List.mem_of_getLast? hlast)).shown (he ▸ ⟨['.'], rfl⟩)
  rw [fileName_eq, namedPieces_below p names h, List.getLast?_append, hlast, Option.some_or,
    Option.bind_some, if_neg hdots]

theorem extension?_eq_some (p : Path) (name e : Text) (hname : p.fileName? = some name) :
    p.extension? = some e ↔ ∃ stem, stem ≠ [] ∧ name = stem ++ '.' :: e ∧ '.' ∉ e := by
  rw [extension?, hname]
  constructor
  · intro h
    simp only at h
    split at h
    · next c stem after hsplit =>
      cases h
      exact ⟨c :: stem, List.cons_ne_nil c stem, (Text.splitLast?_char_iff ..).mp hsplit⟩
    · cases h
  · rintro ⟨stem, hstem, hsplit⟩
    obtain ⟨c, stem, rfl⟩ := List.exists_cons_of_ne_nil hstem
    simp only [(Text.splitLast?_char_iff ..).mpr hsplit]

/-- Whether a name ends in one of the given extensions, whatever the case; the dots that one of them
starts with do not count. -/
def EndsInOneOf (extensions : List String) (name : Text) : Prop :=
  ∃ stem e, (stem ≠ [] ∧ name = stem ++ '.' :: e ∧ '.' ∉ e) ∧
    ∃ s ∈ extensions, Text.lower (s.toList.dropWhile (· == '.')) = Text.lower e

theorem hasExtension_iff (extensions : List String) (p : Path) (name : Text)
    (hname : p.fileName? = some name) :
    hasExtension extensions p = true ↔ EndsInOneOf extensions name := by
  have hiff := fun e => extension?_eq_some p name e hname
  rw [hasExtension]
  constructor
  · intro h
    cases he : p.extension? with
    | none =>
      rw [he] at h
      cases h
    | some e =>
      rw [he] at h
      obtain ⟨s, hs, heq⟩ := List.any_eq_true.mp h
      obtain ⟨stem, hstem⟩ := (hiff e).mp he
      exact ⟨stem, e, hstem, s, hs, beq_iff_eq.mp heq⟩
  · rintro ⟨stem, e, hstem, s, hs, heq⟩
    rw [(hiff e).mpr ⟨stem, hstem⟩]
    exact List.any_eq_true.mpr ⟨s, hs, beq_iff_eq.mpr heq⟩

end CodeIndex
