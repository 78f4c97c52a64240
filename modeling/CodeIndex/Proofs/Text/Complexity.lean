import CodeIndex.Proofs.Path.Pieces
import CodeIndex.Proofs.Text.Brace
import CodeIndex.Text.Complexity

/-!
# Branches of a text and of its parts

No keyword and no operator goes over a character that is neither a word character nor a mark of an operator. So
the branches of a text are those in front of such a character and those behind it, and a block in braces has the
same branches inside a longer text as alone.
-/

namespace CodeIndex

variable {a b : Text} {s : Char}

/-! ### Separated texts -/

theorem wordRuns_separated (a b : Text) (hword : isWord s = false) :
    Text.wordRuns (a ++ s :: b) = Text.wordRuns a ++ Text.wordRuns b := by
  have hbreak : (!isWord s) = true := by rw [hword]; rfl
  rw [Text.wordRuns, splitOn_append (!isWord ·) a b s hbreak, List.filter_append, Text.wordRuns, Text.wordRuns]

theorem countKeywords_separated (keywords : List String) (a b : Text) (hword : isWord s = false) :
    countKeywords keywords (a ++ s :: b) = countKeywords keywords a + countKeywords keywords b := by
  rw [countKeywords, wordRuns_separated a b hword, List.countP_append, countKeywords, countKeywords]

/-- The characters of branch operators, and the dot that turns a question mark into an access. -/
def operatorMarks : List Char :=
  ['&', '|', '?', '.']

theorem not_head_separated {rest : Text} {c : Char} (hc : c ≠ s) (h : ∀ more, rest = c :: more → False) :
    ∀ more, rest ++ s :: b = c :: more → False := by
  intro more heq
  cases rest with
  | nil => exact hc (List.cons.inj heq).1.symm
  | cons d rest => exact h rest (by rw [(List.cons.inj heq).1])

theorem countOperators_separator (b : Text) (hmark : s ∉ operatorMarks) :
    countOperators (s :: b) = countOperators b := by
  simp only [operatorMarks, List.mem_cons, List.not_mem_nil, or_false, not_or] at hmark
  obtain ⟨hand, hor, hquestion, -⟩ := hmark
  rw [countOperators]
  · exact fun _ hc => absurd hc hand
  · exact fun _ hc => absurd hc hor
  · exact fun _ hc => absurd hc hquestion
  · exact fun _ hc => absurd hc hquestion
  · exact hquestion

/-- The scan for operators takes one or two characters at a time, and never the separator as the second of two. -/
theorem countOperators_separated (a b : Text) (hmark : s ∉ operatorMarks) :
    countOperators (a ++ s :: b) = countOperators a + countOperators b := by
  have hne : ∀ c ∈ operatorMarks, c ≠ s := fun c hc h => hmark (h ▸ hc)
  fun_induction countOperators a with
  | case1 rest ih => rw [List.cons_append, List.cons_append, countOperators, ih, Nat.add_right_comm]
  | case2 rest ih => rw [List.cons_append, List.cons_append, countOperators, ih, Nat.add_right_comm]
  | case3 rest ih => rw [List.cons_append, List.cons_append, countOperators, ih]
  | case4 rest ih => rw [List.cons_append, List.cons_append, countOperators, ih]
  | case5 rest hdot hquestion ih =>
    rw [List.cons_append, countOperators, ih, Nat.add_right_comm]
    · exact not_head_separated (hne '.' (by decide)) hdot
    · exact not_head_separated (hne '?' (by decide)) hquestion
  | case6 c rest hand hor hdot hmark' hquestion ih =>
    rw [List.cons_append, countOperators, ih]
    · exact fun more hc => not_head_separated (hne '&' (by decide)) (fun kept => hand kept hc) more
    · exact fun more hc => not_head_separated (hne '|' (by decide)) (fun kept => hor kept hc) more
    · exact fun more hc => absurd hc hquestion
    · exact fun more hc => absurd hc hquestion
    · exact hquestion
  | case7 => rw [List.nil_append, countOperators_separator b hmark, Nat.zero_add]

theorem complexity_separated (a b : Text) (hword : isWord s = false) (hmark : s ∉ operatorMarks) :
    complexity (a ++ s :: b) + 1 = complexity a + complexity b := by
  rw [complexity, countKeywords_separated _ a b hword, countOperators_separated a b hmark, complexity, complexity]
  omega

/-! ### Blocks -/

/-- A brace adds nothing in front of a text. -/
theorem complexity_opening (t : Text) : complexity ('{' :: t) = complexity t := by
  have hsum := complexity_separated (s := '{') [] t (by decide) (by decide)
  have hnone : complexity [] = 1 := rfl
  rw [List.nil_append] at hsum
  omega

theorem complexity_closing (t : Text) : complexity (t ++ ['}']) = complexity t := by
  have hsum := complexity_separated (s := '}') t [] (by decide) (by decide)
  have hnone : complexity [] = 1 := rfl
  omega

/-- The branches of a text around a separator add up. In particular those of the block behind a brace, closed or
not, are a part of the branches of the text, whatever stands around the block. -/
theorem complexity_splits :
    (∀ (a b : Text) (s : Char), isWord s = false → s ∉ ['&', '|', '?', '.'] →
      complexity (a ++ s :: b) = complexity a + complexity b - 1) ∧
    ∀ before rest : Text, ∃ block behind : Text, '{' :: rest = block ++ behind ∧
      blockText? (before ++ '{' :: rest) before.width = some block ∧
      complexity (before ++ '{' :: rest) = complexity before + complexity block + complexity behind - 2 := by
  constructor
  · intro a b s hword hmark
    have hsum := complexity_separated a b hword hmark
    omega
  · intro before rest
    obtain ⟨block, behind, hrest, hblock, hends⟩ := blockText?_split before rest
    refine ⟨block, behind, hrest, hblock, ?_⟩
    have hbefore := complexity_separated (s := '{') before rest (by decide) (by decide)
    have hpos : 1 ≤ complexity before := Nat.le_add_right 1 _
    rcases hends with rfl | ⟨inner, rfl⟩
    · have hall : complexity block = complexity rest := by
        rw [← List.append_nil block, ← hrest, complexity_opening]
      have hnone : complexity [] = 1 := rfl
      omega
    · have hinner : complexity ('{' :: inner ++ ['}']) = complexity inner := by
        rw [complexity_closing, complexity_opening]
      have hbehind := complexity_separated (s := '}') inner behind (by decide) (by decide)
      have hsplit : rest = inner ++ '}' :: behind := by
        simpa using hrest
      rw [← hsplit] at hbehind
      omega

/-- Operators and keywords up to the separator, and around a block. -/
theorem complexity_splits_marks :
    complexity ("if (a ??? &".toList ++ ';' :: "& b) else".toList) =
        complexity "if (a ??? &".toList + complexity "& b) else".toList - 1 ∧
      complexity "if (a ??? &".toList = 3 ∧ complexity "& b) else".toList = 2 := by
  have hword : isWord ';' = false := by decide
  exact ⟨complexity_splits.1 _ _ ';' hword (by decide), by decide +kernel, by decide +kernel⟩

end CodeIndex
