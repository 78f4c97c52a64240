import CodeIndex.Proofs.Text.Places
import CodeIndex.Text.Brace

/-!
# Brace blocks and places

A block ends behind the brace that closes it, or at the end of the text when no prefix of what follows
the opening brace has more closing braces than opening ones. Either place is between characters. A mask
has the places of its text, and braces only where the text has them.
-/

namespace CodeIndex

/-! ### Ends of blocks -/

theorem opening_utf8Size : ('{').utf8Size = 1 := rfl

theorem closing_utf8Size : ('}').utf8Size = 1 := rfl

/-- Whether a block that is open in front of a text stays open in it. -/
def Text.LeavesOpen (t : Text) : Prop :=
  ∀ before, before <+: t → before.count '}' ≤ before.count '{'

/-- Where `depth` open blocks end in a text that starts at `offset`: behind the brace that closes the
last of them, or at the end of the text if no prefix closes them all. -/
inductive BlocksEnd (depth offset : Nat) (t : Text) (stop : Nat) : Prop where
  | closed (inner rest : Text) (split : t = inner ++ '}' :: rest)
      (last : inner.count '{' + depth = inner.count '}' + 1) (place : stop = offset + inner.width + 1)
  | unclosed (opens : ∀ before, before <+: t → before.count '}' < before.count '{' + depth)
      (place : stop = offset + t.width)

/-- One character before, unless it closes the last block. -/
theorem BlocksEnd.cons {depth offset stop : Nat} {t : Text} (c : Char) (behind : Nat) (hd : 0 < depth)
    (hcount : [c].count '{' + depth = [c].count '}' + behind)
    (h : BlocksEnd behind (offset + c.utf8Size) t stop) : BlocksEnd depth offset (c :: t) stop := by
  cases h with
  | closed inner rest split last place =>
    refine .closed (c :: inner) rest (congrArg (c :: ·) split) ?_ ?_
    · rw [← List.singleton_append, List.count_append, List.count_append]
      omega
    · rw [place, Text.width]
      omega
  | unclosed opens place =>
    refine .unclosed (fun before hb => ?_) ?_
    · cases before with
      | nil =>
        rw [List.count_nil, List.count_nil]
        omega
      | cons d before =>
        obtain ⟨rfl, hrest⟩ := List.cons_prefix_cons.mp hb
        have hlt := opens before hrest
        rw [← List.singleton_append, List.count_append, List.count_append]
        omega
    · rw [place, Text.width, Nat.add_assoc]

theorem blockEndFrom_ends (depth offset : Nat) (t : Text) (hd : 0 < depth) :
    BlocksEnd depth offset t (blockEndFrom depth offset t) := by
  induction t generalizing depth offset with
  | nil =>
    refine .unclosed (fun before hb => ?_) rfl
    rw [List.prefix_nil.mp hb, List.count_nil, List.count_nil]
    omega
  | cons c t ih =>
    by_cases hopening : c = '{'
    · subst hopening
      refine BlocksEnd.cons '{' (depth + 1) hd ?_ (ih (depth + 1) _ (Nat.succ_pos depth))
      have hone : ['{'].count '{' = 1 := rfl
      have hno : ['{'].count '}' = 0 := rfl
      omega
    · by_cases hclosing : c = '}'
      · subst hclosing
        rw [blockEndFrom, if_neg (by decide), if_pos (by decide)]
        split
        · next hlast => exact .closed [] t rfl (by simp only [List.count_nil]; omega) rfl
        · next hlast =>
          refine BlocksEnd.cons '}' (depth - 1) hd ?_ (ih (depth - 1) _ (by omega))
          have hone : ['}'].count '}' = 1 := rfl
          have hno : ['}'].count '{' = 0 := rfl
          omega
      · rw [blockEndFrom, if_neg (by simpa using hopening), if_neg (by simpa using hclosing)]
        refine BlocksEnd.cons c depth hd ?_ (ih depth _ hd)
        rw [List.count_cons_of_ne hopening, List.count_cons_of_ne hclosing, List.count_nil,
          List.count_nil]

/-- What follows an opening brace: the inner text, the closing brace and the rest, or an open block. -/
theorem blockEndFrom_brace (offset : Nat) (t : Text) :
    (∃ inner rest : Text, t = inner ++ '}' :: rest ∧
      blockEndFrom 1 offset t = offset + inner.width + 1 ∧ ¬t.LeavesOpen) ∨
    t.LeavesOpen ∧ blockEndFrom 1 offset t = offset + t.width := by
  cases blockEndFrom_ends 1 offset t Nat.one_pos with
  | closed inner rest split last place =>
    refine Or.inl ⟨inner, rest, split, place, fun hopen => ?_⟩
    have hle := hopen (inner ++ ['}']) ⟨rest, by simp [split]⟩
    have hno : ['}'].count '{' = 0 := rfl
    have hone : ['}'].count '}' = 1 := rfl
    rw [List.count_append, List.count_append, hno, hone] at hle
    omega
  | unclosed opens place => exact Or.inr ⟨fun before hb => Nat.le_of_lt_succ (opens before hb), place⟩

theorem blockEndAt_width (offset : Nat) (before rest : Text) :
    blockEndAt (offset + before.width) offset (before ++ rest) =
      blockEndFrom 0 (offset + before.width) rest := by
  induction before generalizing offset with
  | nil =>
    cases rest with
    | nil => rfl
    | cons c rest => rw [List.nil_append, Text.width, Nat.add_zero, blockEndAt, if_neg (Nat.lt_irrefl _)]
  | cons c before ih =>
    have hpos := c.utf8Size_pos
    have hrest := ih (offset + c.utf8Size)
    rw [Nat.add_assoc] at hrest
    rw [List.cons_append, Text.width, blockEndAt, if_pos (by omega), hrest]

/-- The block that opens at a brace. -/
theorem balancedBlock_brace (before rest : Text) :
    balancedBlock (before ++ '{' :: rest) before.width =
      (before.width, blockEndFrom 1 (before.width + 1) rest) := by
  have hend := blockEndAt_width 0 before ('{' :: rest)
  rw [Nat.zero_add] at hend
  rw [balancedBlock, hend]
  rfl

theorem blockText?_eq (before block rest behind : Text) (hrest : '{' :: rest = block ++ behind)
    (hend : blockEndFrom 1 (before.width + 1) rest = before.width + block.width) :
    blockText? (before ++ '{' :: rest) before.width = some block := by
  rw [blockText?, balancedBlock_brace, hend, hrest]
  exact Text.slice?_between before block behind

theorem width_block (inner : Text) : Text.width ('{' :: inner ++ ['}']) = inner.width + 2 := by
  rw [Text.width_append, Text.width, opening_utf8Size, Text.width, Text.width, closing_utf8Size]
  omega

/-- A block that opens at a brace is at places between characters; it ends in a brace or with the text. -/
theorem blockText?_split (before rest : Text) :
    ∃ block behind : Text, '{' :: rest = block ++ behind ∧
      blockText? (before ++ '{' :: rest) before.width = some block ∧
      (behind = [] ∨ ∃ inner : Text, block = '{' :: inner ++ ['}']) := by
  obtain ⟨inner, behind, rfl, hstop, -⟩ | ⟨-, hstop⟩ := blockEndFrom_brace (before.width + 1) rest
  · have hrest : '{' :: (inner ++ '}' :: behind) = '{' :: inner ++ ['}'] ++ behind := by simp
    refine ⟨_, behind, hrest, blockText?_eq before _ _ behind hrest ?_, Or.inr ⟨inner, rfl⟩⟩
    rw [hstop, width_block]
    omega
  · have hrest : '{' :: rest = '{' :: rest ++ [] := (List.append_nil _).symm
    refine ⟨'{' :: rest, [], hrest, blockText?_eq before _ _ [] hrest ?_, Or.inl rfl⟩
    rw [hstop, Text.width, opening_utf8Size, Nat.add_assoc]

theorem blockText?_brace (before rest : Text) :
    ∃ block, blockText? (before ++ '{' :: rest) before.width = some block := by
  obtain ⟨block, _, -, hblock, -⟩ := blockText?_split before rest
  exact ⟨block, hblock⟩

theorem balancedBlock_le (before rest : Text) :
    (balancedBlock (before ++ '{' :: rest) before.width).2 ≤ (before ++ '{' :: rest).width := by
  rw [balancedBlock_brace, Text.width_append, Text.width, opening_utf8Size]
  obtain ⟨inner, rest, rfl, hstop, -⟩ | ⟨-, hstop⟩ := blockEndFrom_brace (before.width + 1) rest
  · rw [hstop, Text.width_append, Text.width, closing_utf8Size]
    omega
  · rw [hstop]
    omega

/-! ### Masks -/

theorem Text.width_spaces (n : Nat) : Text.width (List.replicate n ' ') = n := by
  induction n with
  | zero => rfl
  | succ n ih =>
    rw [List.replicate_succ, Text.width, ih, Nat.add_comm]
    rfl

/-- A mask is made of one piece for each character, of the same width; a piece with an opening brace
stands for one. -/
theorem maskFrom_cons (depth : Nat) (c : Char) (rest : Text) :
    ∃ piece behind, maskFrom depth (c :: rest) = piece ++ maskFrom behind rest ∧
      Text.width piece = c.utf8Size ∧ (c = '{' ∨ '{' ∉ piece) := by
  rw [maskFrom]
  split
  · next h =>
    rw [beq_iff_eq] at h
    subst h
    refine ⟨[if depth = 0 then '{' else ' '], depth + 1, rfl, ?_, Or.inl rfl⟩
    split <;> rfl
  split
  · next h =>
    rw [beq_iff_eq] at h
    subst h
    refine ⟨[if depth = 1 then '}' else ' '], depth - 1, rfl, ?_, Or.inr ?_⟩
    · split <;> rfl
    · split <;> decide
  split
  · next h =>
    rw [beq_iff_eq] at h
    subst h
    exact ⟨['\n'], depth, rfl, rfl, Or.inr (by decide)⟩
  split
  · exact ⟨List.replicate c.utf8Size ' ', depth, rfl, Text.width_spaces _, Or.inr fun h =>
      absurd (List.eq_of_mem_replicate h) (by decide)⟩
  · next h _ _ _ =>
    exact ⟨[c], depth, rfl, Nat.add_zero _, Or.inr fun hm =>
      h (beq_iff_eq.mpr (List.mem_singleton.mp hm).symm)⟩

theorem maskFrom_width (depth : Nat) (t : Text) : Text.width (maskFrom depth t) = t.width := by
  induction t generalizing depth with
  | nil => rfl
  | cons c t ih =>
    obtain ⟨piece, behind, hpiece, hwidth, -⟩ := maskFrom_cons depth c t
    rw [hpiece, Text.width_append, hwidth, ih, Text.width]

/-- Where a mask has an opening brace, its text has one. -/
theorem maskFrom_brace (depth : Nat) (t before rest : Text)
    (h : maskFrom depth t = before ++ '{' :: rest) :
    ∃ before' rest' : Text, t = before' ++ '{' :: rest' ∧ before'.width = before.width := by
  induction t generalizing depth before with
  | nil => cases before <;> cases h
  | cons c t ih =>
    obtain ⟨piece, behind, hpiece, hwidth, hc⟩ := maskFrom_cons depth c t
    rw [hpiece] at h
    obtain ⟨later, rfl, hlater⟩ | ⟨later, rfl, hlater⟩ := List.append_eq_append_iff.mp h
    · obtain ⟨before', rest', rfl, hbefore⟩ := ih behind later hlater
      refine ⟨c :: before', rest', rfl, ?_⟩
      rw [Text.width, Text.width_append, hwidth, hbefore]
    · cases later with
      | nil =>
        obtain ⟨before', rest', rfl, hbefore⟩ := ih behind [] hlater.symm
        refine ⟨c :: before', rest', rfl, ?_⟩
        rw [List.append_nil] at hwidth
        rw [Text.width, hbefore, hwidth, Text.width, Nat.add_zero]
      | cons d later =>
        obtain ⟨rfl, -⟩ := List.cons.inj hlater
        obtain rfl | hnot := hc
        · have hempty : before = [] := by
            rw [Text.width_append, Text.width, opening_utf8Size] at hwidth
            cases before with
            | nil => rfl
            | cons e before =>
              have hpos := e.utf8Size_pos
              rw [Text.width] at hwidth
              omega
          subst hempty
          exact ⟨[], t, rfl, rfl⟩
        · exact absurd (List.mem_append_right before List.mem_cons_self) hnot

end CodeIndex
