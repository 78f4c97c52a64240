import CodeIndex.Proofs.Text.Brace
import Mathlib.Data.List.Infix

/-!
# Texts with balanced braces

A text whose braces are balanced leaves the depth of the blocks around it as it was. So the block around it
ends behind it, and a mask turns all of it into white space.
-/

namespace CodeIndex

/-- Whether the braces of a text are balanced: none closes more than was opened, and none stays open. -/
structure Text.Balanced (t : Text) : Prop where
  opens : t.LeavesOpen
  closes : t.count '}' = t.count '{'

instance (t : Text) : Decidable t.Balanced :=
  decidable_of_iff ((∀ before ∈ t.inits, before.count '}' ≤ before.count '{') ∧ t.count '}' = t.count '{')
    ⟨fun h => ⟨fun before hb => h.1 before ((List.mem_inits before t).mpr hb), h.2⟩,
      fun h => ⟨fun before hb => h.opens before ((List.mem_inits before t).mp hb), h.closes⟩⟩

/-- A text from one depth of open blocks to another that never closes more than was open. -/
inductive Text.Leads : Nat → Text → Nat → Prop where
  | nil (depth : Nat) : Leads depth [] depth
  | opening {depth last : Nat} {t : Text} (h : Leads (depth + 1) t last) : Leads depth ('{' :: t) last
  | closing {depth last : Nat} {t : Text} (h : Leads depth t last) : Leads (depth + 1) ('}' :: t) last
  | other {depth last : Nat} {t : Text} (c : Char) (ho : c ≠ '{') (hc : c ≠ '}') (h : Leads depth t last) :
      Leads depth (c :: t) last

namespace Text

theorem Leads.append {depth middle last : Nat} {t u : Text} (h : Leads depth t middle)
    (h' : Leads middle u last) : Leads depth (t ++ u) last := by
  induction h with
  | nil => exact h'
  | opening _ ih => exact .opening (ih h')
  | closing _ ih => exact .closing (ih h')
  | other c ho hc _ ih => exact .other c ho hc (ih h')

theorem leads_plain (depth : Nat) (t : Text) (h : ∀ c ∈ t, c ≠ '{' ∧ c ≠ '}') : Leads depth t depth := by
  induction t with
  | nil => exact .nil depth
  | cons c t ih =>
    obtain ⟨⟨ho, hc⟩, ht⟩ := List.forall_mem_cons.mp h
    exact .other c ho hc (ih ht)

theorem leads_of_counts (t : Text) (depth last : Nat)
    (hopen : ∀ before, before <+: t → before.count '}' ≤ before.count '{' + depth)
    (hlast : t.count '}' + last = t.count '{' + depth) : Leads depth t last := by
  induction t generalizing depth with
  | nil =>
    obtain rfl : last = depth := by simpa using hlast
    exact .nil last
  | cons c t ih =>
    have htail : ∀ before, before <+: t →
        [c].count '}' + before.count '}' ≤ [c].count '{' + before.count '{' + depth := by
      intro before hb
      have hle := hopen (c :: before) (List.cons_prefix_cons.mpr ⟨rfl, hb⟩)
      rwa [← List.singleton_append, List.count_append, List.count_append] at hle
    rw [← List.singleton_append, List.count_append, List.count_append] at hlast
    by_cases hopening : c = '{'
    · subst hopening
      have hone : ['{'].count '{' = 1 := rfl
      have hno : ['{'].count '}' = 0 := rfl
      refine .opening (ih (depth + 1) (fun before hb => ?_) (by omega))
      have hle := htail before hb
      omega
    · by_cases hclosing : c = '}'
      · subst hclosing
        have hone : ['}'].count '}' = 1 := rfl
        have hno : ['}'].count '{' = 0 := rfl
        have hpos := htail [] List.nil_prefix
        rw [List.count_nil, List.count_nil] at hpos
        obtain ⟨depth, rfl⟩ : ∃ n, depth = n + 1 := ⟨depth - 1, by omega⟩
        refine .closing (ih depth (fun before hb => ?_) (by omega))
        have hle := htail before hb
        omega
      · have hno : [c].count '{' = 0 := List.count_eq_zero.mpr fun h => hopening (List.mem_singleton.mp h).symm
        have hno' : [c].count '}' = 0 := List.count_eq_zero.mpr fun h => hclosing (List.mem_singleton.mp h).symm
        refine .other c hopening hclosing (ih depth (fun before hb => ?_) (by omega))
        have hle := htail before hb
        omega

theorem Balanced.leads {t : Text} (h : t.Balanced) : Leads 0 t 0 :=
  leads_of_counts t 0 0 h.opens h.closes

/-- Inside of another block a text leads where it led. -/
theorem Leads.inside {depth last : Nat} {t : Text} (h : Leads depth t last) : Leads (depth + 1) t (last + 1) := by
  induction h with
  | nil depth => exact .nil (depth + 1)
  | opening _ ih => exact .opening ih
  | closing _ ih => exact .closing ih
  | other c ho hc _ ih => exact .other c ho hc ih

/-! ### Blocks -/

theorem Leads.block {depth : Nat} {t : Text} (h : Leads depth t depth) :
    Leads depth ('{' :: (t ++ ['}'])) depth :=
  .opening (h.inside.append (.closing (.nil depth)))

/-- The end of the blocks around a text is looked for behind it. -/
theorem Leads.blockEndFrom {depth last : Nat} {t : Text} (h : Leads depth t last) (offset : Nat)
    (rest : Text) :
    blockEndFrom (depth + 1) offset (t ++ rest) = blockEndFrom (last + 1) (offset + t.width) rest := by
  induction h generalizing offset with
  | nil => rfl
  | opening _ ih => exact (ih (offset + 1)).trans (congrArg (CodeIndex.blockEndFrom _ · _) (Nat.add_assoc ..))
  | closing _ ih =>
    rw [List.cons_append, CodeIndex.blockEndFrom, if_neg (by decide), if_pos (by decide), if_neg (by omega),
      Nat.add_sub_cancel, ih, width, Nat.add_assoc]
  | other c ho hc _ ih =>
    rw [List.cons_append, CodeIndex.blockEndFrom, if_neg (by simpa using ho), if_neg (by simpa using hc), ih,
      width, Nat.add_assoc]

end Text

theorem blockEndFrom_balanced (offset : Nat) (inner rest : Text) (h : Text.Leads 0 inner 0) :
    blockEndFrom 1 offset (inner ++ '}' :: rest) = offset + inner.width + 1 :=
  h.blockEndFrom offset ('}' :: rest)

/-- The block around a balanced text. -/
theorem blockText?_balanced (before inner rest : Text) (h : Text.Leads 0 inner 0) :
    blockText? (before ++ '{' :: (inner ++ '}' :: rest)) before.width = some ('{' :: (inner ++ ['}'])) := by
  have hslice := Text.slice?_between before ('{' :: (inner ++ ['}'])) rest
  have hwidth : Text.width ('{' :: (inner ++ ['}'])) = 1 + inner.width + 1 := by
    rw [Text.width, Text.width_append, ← Nat.add_assoc]
    rfl
  rw [blockText?, balancedBlock_brace, blockEndFrom_balanced _ inner rest h, ← hslice, hwidth]
  simp only [List.cons_append, List.append_assoc, List.nil_append, Nat.add_assoc]

/-! ### Masks -/

/-- White space in the place of a text of the same width. -/
structure Text.Blanks (blank t : Text) : Prop where
  width : blank.width = t.width
  only : ∀ c ∈ blank, c = ' ' ∨ c = '\n'

theorem Text.Blanks.append {blank blank' t u : Text} (h : blank.Blanks t) (h' : blank'.Blanks u) :
    Text.Blanks (blank ++ blank') (t ++ u) :=
  ⟨by rw [Text.width_append, Text.width_append, h.width, h'.width], List.forall_mem_append.mpr ⟨h.only, h'.only⟩⟩

/-- A mask of one character inside a block. -/
theorem Text.Blanks.cons {blank t : Text} (c d : Char) (h : blank.Blanks t) (hwidth : d.utf8Size = c.utf8Size)
    (honly : d = ' ' ∨ d = '\n') : Text.Blanks (d :: blank) (c :: t) :=
  ⟨by rw [Text.width, Text.width, hwidth, h.width], List.forall_mem_cons.mpr ⟨honly, h.only⟩⟩

theorem Text.Leads.maskFrom {depth last : Nat} {t : Text} (h : Leads depth t last) (rest : Text) :
    ∃ blank : Text, maskFrom (depth + 1) (t ++ rest) = blank ++ maskFrom (last + 1) rest ∧ blank.Blanks t := by
  induction h with
  | nil => exact ⟨[], rfl, rfl, List.forall_mem_nil _⟩
  | opening _ ih =>
    obtain ⟨blank, hmask, hblank⟩ := ih
    exact ⟨' ' :: blank, congrArg (' ' :: ·) hmask, hblank.cons '{' ' ' rfl (Or.inl rfl)⟩
  | closing _ ih =>
    obtain ⟨blank, hmask, hblank⟩ := ih
    refine ⟨' ' :: blank, ?_, hblank.cons '}' ' ' rfl (Or.inl rfl)⟩
    rw [List.cons_append, CodeIndex.maskFrom, if_neg (by decide), if_pos (by decide), if_neg (by omega),
      Nat.add_sub_cancel, hmask]
    rfl
  | @other depth _ t c ho hc _ ih =>
    obtain ⟨blank, hmask, hblank⟩ := ih
    rw [List.cons_append, CodeIndex.maskFrom, if_neg (by simpa using ho), if_neg (by simpa using hc)]
    by_cases hfeed : c = '\n'
    · subst hfeed
      exact ⟨'\n' :: blank, congrArg ('\n' :: ·) hmask, hblank.cons '\n' '\n' rfl (Or.inr rfl)⟩
    · refine ⟨List.replicate c.utf8Size ' ' ++ blank, ?_, ?_⟩
      · rw [if_neg (by simpa using hfeed), if_pos (Nat.succ_pos depth), hmask, List.append_assoc]
      · refine Text.Blanks.append (t := [c]) ⟨?_, fun d hd => Or.inl (List.eq_of_mem_replicate hd)⟩ hblank
        exact Text.width_spaces c.utf8Size

/-- Outside of blocks a mask is the text. -/
theorem maskFrom_plain (t rest : Text) (h : ∀ c ∈ t, c ≠ '{' ∧ c ≠ '}') :
    maskFrom 0 (t ++ rest) = t ++ maskFrom 0 rest := by
  induction t with
  | nil => rfl
  | cons c t ih =>
    obtain ⟨⟨ho, hc⟩, ht⟩ := List.forall_mem_cons.mp h
    rw [List.cons_append, maskFrom, if_neg (by simpa using ho), if_neg (by simpa using hc), ih ht]
    split
    · next hfeed => rw [beq_iff_eq.mp hfeed, List.cons_append]
    · rfl

/-- The mask of a block with a balanced text in it. -/
theorem maskFrom_block (inner rest : Text) (h : Text.Leads 0 inner 0) :
    ∃ blank : Text, maskFrom 0 ('{' :: (inner ++ '}' :: rest)) = '{' :: (blank ++ '}' :: maskFrom 0 rest) ∧
      blank.Blanks inner := by
  obtain ⟨blank, hmask, hblank⟩ := h.maskFrom ('}' :: rest)
  exact ⟨blank, congrArg ('{' :: ·) hmask, hblank⟩

end CodeIndex
