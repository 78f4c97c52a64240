import CodeIndex.Proofs.Text.Name
import CodeIndex.Structure.ParameterList
import Mathlib.Data.List.Infix

/-!
# Brackets of a text

Read from left to right, an opener leads one level deeper, and a closer leads one level up or is ignored
where nothing is open. The depth that a list of parameters is split by counts ignored closers too: it is
the depth of the reading less the closers that it has ignored.
-/

namespace CodeIndex

/-! ### Reading -/

def isOpener (c : Char) : Bool :=
  c == '(' || c == '[' || c == '{' || c == '<'

def isCloser (c : Char) : Bool :=
  c == ')' || c == ']' || c == '}' || c == '>'

/-- A bracket is neither a blank nor a comma. -/
theorem bracket_visible {c : Char} (h : isOpener c = true ∨ isCloser c = true) :
    isBlank c = false ∧ c ≠ ',' := by
  simp only [isOpener, isCloser, Bool.or_eq_true, beq_iff_eq] at h
  rcases h with ((((rfl | rfl) | rfl) | rfl) | (((rfl | rfl) | rfl) | rfl)) <;> exact ⟨rfl, by decide⟩

/-- What was read of the brackets of a text: how many are open, and how many closers were ignored. -/
structure BracketCount where
  depth : Nat
  ignored : Nat
  deriving DecidableEq

namespace BracketCount

def read (b : BracketCount) (c : Char) : BracketCount :=
  if isOpener c then { b with depth := b.depth + 1 }
  else if isCloser c then
    match b.depth with
    | 0 => { b with ignored := b.ignored + 1 }
    | depth + 1 => { b with depth }
  else b

/-- The depth less the ignored closers. -/
def level (b : BracketCount) : Int :=
  b.depth - b.ignored

theorem level_read (b : BracketCount) (c : Char) (d : Int) :
    depthAfter (d + b.level) c = d + (b.read c).level := by
  have hafter : depthAfter (d + b.level) c =
      if isOpener c then d + b.level + 1 else if isCloser c then d + b.level - 1 else d + b.level := rfl
  rw [hafter, read]
  split
  · simp only [level]
    omega
  · split
    · cases hdepth : b.depth with
      | zero =>
        simp only [level, hdepth]
        omega
      | succ depth =>
        simp only [level, hdepth]
        omega
    · rfl

theorem read_plain (b : BracketCount) (c : Char) (ho : isOpener c = false) (hc : isCloser c = false) :
    b.read c = b := by
  rw [read, ho, hc]
  rfl

theorem ignored_le_read (b : BracketCount) (c : Char) : b.ignored ≤ (b.read c).ignored := by
  rw [read]
  split
  · exact Nat.le_refl _
  · split
    · split
      · exact Nat.le_succ _
      · exact Nat.le_refl _
    · exact Nat.le_refl _

theorem ignored_le_foldl (b : BracketCount) (t : Text) : b.ignored ≤ (t.foldl read b).ignored := by
  induction t generalizing b with
  | nil => exact Nat.le_refl _
  | cons c t ih => exact Nat.le_trans (b.ignored_le_read c) (ih (b.read c))

theorem foldl_depth_le (b : BracketCount) (t : Text) (h : ∀ c ∈ t, isOpener c = false) :
    (t.foldl read b).depth ≤ b.depth := by
  induction t generalizing b with
  | nil => exact Nat.le_refl _
  | cons c t ih =>
    obtain ⟨hc, ht⟩ := List.forall_mem_cons.mp h
    refine Nat.le_trans (ih (b.read c) ht) ?_
    rw [read, hc, if_neg Bool.false_ne_true]
    split
    · split
      · exact Nat.le_refl _
      · next hdepth => exact hdepth ▸ Nat.le_succ _
    · exact Nat.le_refl _

theorem le_foldl_depth (b : BracketCount) (t : Text) (h : ∀ c ∈ t, isCloser c = false) :
    b.depth ≤ (t.foldl read b).depth := by
  induction t generalizing b with
  | nil => exact Nat.le_refl _
  | cons c t ih =>
    obtain ⟨hc, ht⟩ := List.forall_mem_cons.mp h
    refine Nat.le_trans ?_ (ih (b.read c) ht)
    rw [read]
    split
    · exact Nat.le_succ _
    · rw [hc, if_neg Bool.false_ne_true]

end BracketCount

namespace Text

/-- What is read of the brackets of a text. -/
def brackets (t : Text) : BracketCount :=
  t.foldl BracketCount.read ⟨0, 0⟩

/-- The depth behind a text, counted with every closer. -/
def level (t : Text) : Int :=
  t.brackets.level

@[simp] theorem level_nil : level [] = 0 := rfl

theorem brackets_append (t u : Text) : (t ++ u).brackets = u.foldl BracketCount.read t.brackets :=
  List.foldl_append

theorem foldl_depthAfter (t : Text) (d : Int) (b : BracketCount) :
    t.foldl depthAfter (d + b.level) = d + (t.foldl BracketCount.read b).level := by
  induction t generalizing b with
  | nil => rfl
  | cons c t ih => rw [List.foldl_cons, List.foldl_cons, b.level_read c d, ih]

theorem depthAfter_foldl (t : Text) (d : Int) : t.foldl depthAfter d = d + t.level := by
  have h := foldl_depthAfter t d ⟨0, 0⟩
  rwa [BracketCount.level, Int.sub_self, Int.add_zero] at h

theorem level_foldl (t : Text) (b : BracketCount) :
    (t.foldl BracketCount.read b).level = b.level + t.level := by
  have h := foldl_depthAfter t 0 b
  rw [depthAfter_foldl, Int.zero_add, Int.zero_add] at h
  exact h.symm

theorem level_cons (c : Char) (t : Text) (d : Int) : d + level (c :: t) = depthAfter d c + t.level := by
  rw [← depthAfter_foldl, List.foldl_cons, depthAfter_foldl]

/-! ### Bracketed texts -/

/-- Whether a text comes back to depth 0, with every comma at depth 1 or more. -/
structure WellBracketed (t : Text) : Prop where
  closed : t.brackets.depth = 0
  inside : ∀ before : Text, before ++ [','] <+: t → 0 < before.brackets.depth

instance (t : Text) : Decidable t.WellBracketed :=
  decidable_of_iff (t.brackets.depth = 0 ∧
      ∀ before ∈ t.inits, before ++ [','] <+: t → 0 < (brackets before).depth)
    ⟨fun h => ⟨h.1, fun before hb =>
        h.2 before ((List.mem_inits before t).mpr ((List.prefix_append _ _).trans hb)) hb⟩,
      fun h => ⟨h.closed, fun before _ hb => h.inside before hb⟩⟩

/-- What stands around a comma of such a text has characters that are neither blanks nor commas. -/
theorem WellBracketed.around {t : Text} (h : t.WellBracketed) (before after : Text)
    (ht : t = before ++ ',' :: after) :
    (∃ c ∈ before, isOpener c = true) ∧ ∃ c ∈ after, isCloser c = true := by
  have hinside : 0 < before.brackets.depth := h.inside before ⟨after, by simp [ht]⟩
  have hcomma : before.brackets.read ',' = before.brackets := before.brackets.read_plain ',' rfl rfl
  have hclosed := h.closed
  rw [ht, brackets_append, List.foldl_cons, hcomma] at hclosed
  constructor
  · by_contra hnone
    have hle := BracketCount.foldl_depth_le ⟨0, 0⟩ before fun c hc =>
      Bool.eq_false_iff.mpr fun ho => hnone ⟨c, hc, ho⟩
    exact absurd hinside (Nat.not_lt.mpr hle)
  · by_contra hnone
    have hle := BracketCount.le_foldl_depth before.brackets after fun c hc =>
      Bool.eq_false_iff.mpr fun hcloser => hnone ⟨c, hc, hcloser⟩
    omega

theorem WellBracketed.level_le {t : Text} (h : t.WellBracketed) : t.level ≤ 0 := by
  rw [level, BracketCount.level, h.closed]
  omega

end Text

end CodeIndex
