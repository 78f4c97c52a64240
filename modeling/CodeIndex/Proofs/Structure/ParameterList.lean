import CodeIndex.Proofs.Text.Places
import CodeIndex.Structure.ParameterList

/-!
# Parameter lists by places

A list is cut at the places of its commas, and a declaration at the place where its type ends. All
these places are between characters, so nothing is left out and every cut gives the pieces that
reading the characters one by one gives.
-/

namespace CodeIndex

theorem splitAtDepth_ne_nil (depth : Int) (t : Text) : splitAtDepth depth t ≠ [] := by
  cases t with
  | nil => exact List.cons_ne_nil _ _
  | cons c rest =>
    rw [splitAtDepth]
    split
    · exact List.cons_ne_nil _ _
    · split <;> exact List.cons_ne_nil _ _

/-- The piece under way starts behind `before` and has come to `piece`; the commas of the rest cut it
and all pieces behind it. -/
theorem piecesFrom?_commas (before piece rest : Text) (depth : Int) :
    piecesFrom? (before ++ (piece ++ rest)) before.width
        (topLevelCommas depth (before.width + piece.width) rest) =
      some ((splitAtDepth depth rest).modifyHead (piece ++ ·)) := by
  induction rest generalizing before piece depth with
  | nil =>
    have hwidth : (before ++ (piece ++ [])).width = before.width + piece.width := by
      rw [List.append_nil, Text.width_append]
    rw [topLevelCommas, piecesFrom?, hwidth, Text.slice?_between, splitAtDepth]
    simp only [Option.map_some, List.modifyHead, List.append_nil]
  | cons c rest ih =>
    rw [topLevelCommas, splitAtDepth]
    split
    · next hcut =>
      have hc : c = ',' := by
        rw [Bool.and_eq_true] at hcut
        exact beq_iff_eq.mp hcut.1
      subst hc
      have hrest := ih (before ++ (piece ++ [','])) [] depth
      have hplace : (before ++ (piece ++ [','])).width = before.width + piece.width + 1 := by
        rw [Text.width_append, Text.width_append, Nat.add_assoc]
        rfl
      rw [hplace] at hrest
      simp only [List.nil_append, List.append_assoc, List.singleton_append, Text.width,
        Nat.add_zero] at hrest
      rw [piecesFrom?, Text.slice?_between before piece (',' :: rest), hrest]
      cases hs : splitAtDepth depth rest with
      | nil => exact absurd hs (splitAtDepth_ne_nil depth rest)
      | cons first others => simp [List.modifyHead]
    · have hrest := ih before (piece ++ [c]) (depthAfter depth c)
      have hplace : before.width + (piece ++ [c]).width = before.width + piece.width + c.utf8Size := by
        rw [Text.width_append, Nat.add_assoc]
        rfl
      rw [hplace, List.append_assoc, List.singleton_append] at hrest
      rw [hrest]
      cases hs : splitAtDepth (depthAfter depth c) rest with
      | nil => exact absurd hs (splitAtDepth_ne_nil _ rest)
      | cons first others => simp [List.modifyHead]

/-- A list has its items also when it is cut by places. -/
theorem splitTopLevel?_eq (t : Text) : splitTopLevel? t = some (splitTopLevel t) := by
  have hpieces := piecesFrom?_commas [] [] t 0
  simp only [List.nil_append, Text.width, Nat.add_zero] at hpieces
  rw [splitTopLevel?, hpieces, splitTopLevel]
  cases hs : splitAtDepth 0 t with
  | nil => exact absurd hs (splitAtDepth_ne_nil 0 t)
  | cons first others => rfl

theorem annotatedParameters?_eq (t : Text) :
    annotatedParameters? t = some (annotatedParameters t) := by
  rw [annotatedParameters?, splitTopLevel?_eq]
  rfl

theorem typedParameter?_eq (item : Text) : typedParameter? item = some (typedParameter item) := by
  rcases hsplit : splitDefault item with ⟨declaration, default⟩
  have hparts := List.takeWhile_append_dropWhile (p := (!endsType ·)) (l := declaration.trim.reverse)
  simp only [typedParameter?, typedParameter, hsplit, typeEnd?]
  cases htype : declaration.trim.reverse.dropWhile (!endsType ·) with
  | nil =>
    rw [htype, List.append_nil] at hparts
    simp only [hparts, List.reverse_reverse]
    rfl
  | cons c type =>
    -- the declaration is its type and then its name
    have hdeclared : (c :: type).reverse ++ (declaration.trim.reverse.takeWhile (!endsType ·)).reverse =
        declaration.trim := by
      rw [← List.reverse_append, ← htype, hparts, List.reverse_reverse]
    have hstop := Text.width_reverse (c :: type)
    have htake := Text.takeBytes?_width (c :: type).reverse
      (declaration.trim.reverse.takeWhile (!endsType ·)).reverse
    have hdrop := Text.dropBytes?_width (c :: type).reverse
      (declaration.trim.reverse.takeWhile (!endsType ·)).reverse
    rw [hdeclared, hstop] at htake hdrop
    simp only [htake, hdrop]
    rfl

theorem mapM_option_eq {α β : Type} (f : α → Option β) (g : α → β) (list : List α)
    (h : ∀ a ∈ list, f a = some (g a)) : list.mapM f = some (list.map g) := by
  induction list with
  | nil => rfl
  | cons a rest ih =>
    rw [List.mapM_cons, h a List.mem_cons_self, ih fun b hb => h b (List.mem_cons_of_mem a hb)]
    rfl

theorem typedParameters?_eq (t : Text) : typedParameters? t = some (typedParameters t) := by
  rw [typedParameters?, splitTopLevel?_eq]
  exact mapM_option_eq _ _ _ fun item _ => typedParameter?_eq item

end CodeIndex
