import CodeIndex.Proofs.Text.Complexity
import CodeIndex.Proofs.Text.LineIndex
import CodeIndex.RuleSet.Basic

/-!
# A line feed at the end

A line feed that is put behind a text changes no line of a place, no count of branches and no block that
is closed; a block that is left open runs on to the new end.
-/

namespace CodeIndex

/-! ### Branches -/

theorem complexity_lineFeed (t : Text) : complexity (t ++ ['\n']) = complexity t := by
  have hsum := complexity_separated (s := '\n') t [] (by decide) (by decide)
  have hnone : complexity [] = 1 := rfl
  omega

/-! ### Lines -/

theorem LineIndex.lineNumber_lineFeed (t : Text) (offset : Nat) (h : offset ≤ t.width) :
    (LineIndex.ofText (t ++ ['\n'])).lineNumber offset = (LineIndex.ofText t).lineNumber offset := by
  have hlast : (lineFeedsFrom (0 + t.width) ['\n']).countP (· < offset) = 0 := by
    rw [List.countP_eq_zero]
    intro feed hfeed
    have hge := lineFeedsFrom_ge _ _ feed hfeed
    simp only [decide_eq_true_eq]
    omega
  rw [lineNumber, lineNumber, lineAt_eq, lineAt_eq, lineFeedsFrom_append, List.countP_append, hlast]

/-! ### Blocks -/

/-- A block that is closed ends where it does in a longer text. -/
theorem blockEndFrom_append (depth offset : Nat) (t more : Text) (hd : 0 < depth)
    (h : ∃ before, before <+: t ∧ before.count '{' + depth ≤ before.count '}') :
    blockEndFrom depth offset (t ++ more) = blockEndFrom depth offset t := by
  induction t generalizing depth offset with
  | nil =>
    obtain ⟨before, hbefore, hcount⟩ := h
    rw [List.prefix_nil.mp hbefore, List.count_nil, List.count_nil] at hcount
    omega
  | cons c t ih =>
    obtain ⟨before, hbefore, hcount⟩ := h
    cases before with
    | nil =>
      rw [List.count_nil, List.count_nil] at hcount
      omega
    | cons d before =>
      obtain ⟨rfl, hrest⟩ := List.cons_prefix_cons.mp hbefore
      rw [List.cons_append, blockEndFrom, blockEndFrom]
      by_cases hopening : d = '{'
      · subst hopening
        rw [List.count_cons_self, List.count_cons_of_ne (by decide)] at hcount
        exact ih (depth + 1) _ (by omega) ⟨before, hrest, by omega⟩
      · have hnot : ¬(d == '{') = true := by simpa using hopening
        rw [List.count_cons_of_ne hopening] at hcount
        rw [if_neg hnot, if_neg hnot]
        by_cases hclosing : d = '}'
        · subst hclosing
          rw [List.count_cons_self] at hcount
          rw [if_pos (beq_self_eq_true '}'), if_pos (beq_self_eq_true '}')]
          split
          · rfl
          · exact ih (depth - 1) _ (by omega) ⟨before, hrest, by omega⟩
        · have hnot' : ¬(d == '}') = true := by simpa using hclosing
          rw [List.count_cons_of_ne hclosing] at hcount
          rw [if_neg hnot', if_neg hnot']
          exact ih depth _ hd ⟨before, hrest, hcount⟩

theorem blockEndFrom_closed (offset : Nat) (t more : Text) (h : ¬t.LeavesOpen) :
    blockEndFrom 1 offset (t ++ more) = blockEndFrom 1 offset t := by
  obtain ⟨before, hbefore⟩ := Classical.not_forall.mp h
  obtain ⟨hleading, hcount⟩ := Classical.not_imp.mp hbefore
  exact blockEndFrom_append 1 offset t more Nat.one_pos ⟨before, hleading, Nat.not_le.mp hcount⟩

theorem Text.LeavesOpen.lineFeed {t : Text} (h : t.LeavesOpen) : Text.LeavesOpen (t ++ ['\n']) := by
  intro before hbefore
  rcases List.prefix_concat_iff.mp hbefore with rfl | hbefore
  · have hle := h t (List.prefix_refl t)
    rw [List.count_append, List.count_append]
    exact Nat.add_le_add_right hle 0
  · exact h before hbefore

theorem blockEndFrom_open (offset : Nat) (t : Text) (h : t.LeavesOpen) :
    blockEndFrom 1 offset t = offset + t.width := by
  obtain ⟨_, _, -, -, hclosed⟩ | ⟨-, hstop⟩ := blockEndFrom_brace offset t
  · exact absurd h hclosed
  · exact hstop

/-- The block behind a brace is the same if it is closed, and has the line feed at its end if not. -/
theorem blockText?_lineFeed (before rest : Text) :
    ∃ block, blockText? (before ++ '{' :: rest) before.width = some block ∧
      (blockText? (before ++ '{' :: (rest ++ ['\n'])) before.width = some block ∨
        blockText? (before ++ '{' :: (rest ++ ['\n'])) before.width = some (block ++ ['\n'])) := by
  obtain ⟨inner, more, hrest, hstop, hclosed⟩ | ⟨hopen, hstop⟩ := blockEndFrom_brace (before.width + 1) rest
  · have hend : blockEndFrom 1 (before.width + 1) rest = before.width + Text.width ('{' :: inner ++ ['}']) := by
      rw [hstop, width_block]
      omega
    refine ⟨'{' :: inner ++ ['}'], blockText?_eq before _ rest more (by simp [hrest]) hend, Or.inl ?_⟩
    refine blockText?_eq before _ _ (more ++ ['\n']) (by simp [hrest]) ?_
    rw [blockEndFrom_closed _ rest _ hclosed, hend]
  · refine ⟨'{' :: rest, blockText?_eq before _ _ [] (List.append_nil _).symm ?_, Or.inr ?_⟩
    · rw [hstop, Text.width, opening_utf8Size, Nat.add_assoc]
    · refine blockText?_eq before _ _ [] (List.append_nil _).symm ?_
      rw [blockEndFrom_open _ _ hopen.lineFeed, List.cons_append, Text.width, opening_utf8Size, Nat.add_assoc]

theorem blockComplexity?_lineFeed (before rest : Text) :
    blockComplexity? (before ++ '{' :: (rest ++ ['\n'])) before.width =
      blockComplexity? (before ++ '{' :: rest) before.width := by
  obtain ⟨block, hblock, hlonger | hlonger⟩ := blockText?_lineFeed before rest
  · rw [blockComplexity?, blockComplexity?, hblock, hlonger]
  · rw [blockComplexity?, blockComplexity?, hblock, hlonger, Option.map_some, Option.map_some,
      complexity_lineFeed]

end CodeIndex
