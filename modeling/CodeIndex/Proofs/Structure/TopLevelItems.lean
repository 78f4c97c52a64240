import CodeIndex.Proofs.Structure.ParameterList
import CodeIndex.Proofs.Text.Bracket
import Mathlib.Data.List.TakeWhile

/-!
# Items of a list

A list of items that are joined by commas is split into the items again, unless a comma of some item
stands under no more open brackets than closers were ignored before it: the split counts an ignored
closer, such as the one of an arrow, for the rest of the list.
-/

namespace CodeIndex

/-! ### Cuts -/

/-- The trimmed non-empty items of a text whose first character stands at the given depth. -/
def itemsAt (depth : Int) (t : Text) : List Text :=
  ((splitAtDepth depth t).map Text.trim).filter (!·.isEmpty)

/-- A comma that is cut at parts the text. -/
theorem splitAtDepth_cut (depth : Int) (s rest : Text) (h : depth + s.level ≤ 0) :
    splitAtDepth depth (s ++ ',' :: rest) =
      splitAtDepth depth s ++ splitAtDepth (depth + s.level) rest := by
  induction s generalizing depth with
  | nil =>
    rw [Text.level_nil, Int.add_zero] at h ⊢
    have hcut : (',' == ',' && decide (depth ≤ 0)) = true := by
      rw [decide_eq_true h]
      rfl
    rw [List.nil_append, splitAtDepth, splitAtDepth, if_pos hcut]
    rfl
  | cons c s ih =>
    rw [Text.level_cons] at h ⊢
    rw [List.cons_append, splitAtDepth, splitAtDepth]
    split
    · next hcut =>
      have hplain : depthAfter depth c = depth := by
        rw [Bool.and_eq_true] at hcut
        rw [beq_iff_eq.mp hcut.1]
        rfl
      rw [hplain] at h ⊢
      rw [ih depth h, List.cons_append]
    · rw [ih (depthAfter depth c) h]
      cases hs : splitAtDepth (depthAfter depth c) s with
      | nil => exact absurd hs (splitAtDepth_ne_nil _ s)
      | cons piece pieces => rfl

/-- A text none of whose commas is cut at is one piece. -/
theorem splitAtDepth_whole (depth : Int) (t : Text)
    (h : ∀ before : Text, before ++ [','] <+: t → 0 < depth + before.level) :
    splitAtDepth depth t = [t] := by
  induction t generalizing depth with
  | nil => rfl
  | cons c t ih =>
    have hcut : ¬(c == ',' && decide (depth ≤ 0)) = true := by
      intro hcut
      rw [Bool.and_eq_true, beq_iff_eq, decide_eq_true_eq] at hcut
      have hstart := h [] (hcut.1 ▸ List.prefix_append [','] t)
      rw [Text.level_nil] at hstart
      omega
    rw [splitAtDepth, if_neg hcut, ih (depthAfter depth c)]
    intro before hbefore
    rw [← Text.level_cons]
    exact h (c :: before) ((List.prefix_cons_inj c).mpr hbefore)

/-- A character that is no comma stands in a piece. -/
theorem mem_splitAtDepth {c : Char} (hcomma : c ≠ ',') (depth : Int) (t : Text) (hc : c ∈ t) :
    ∃ piece ∈ splitAtDepth depth t, c ∈ piece := by
  induction t generalizing depth with
  | nil => cases hc
  | cons first t ih =>
    rw [splitAtDepth]
    split
    · next hcut =>
      rw [Bool.and_eq_true, beq_iff_eq] at hcut
      have hrest : c ∈ t := (List.mem_cons.mp hc).resolve_left fun heq => hcomma (heq.trans hcut.1)
      obtain ⟨piece, hpiece, hmem⟩ := ih depth hrest
      exact ⟨piece, List.mem_cons_of_mem _ hpiece, hmem⟩
    · cases hs : splitAtDepth (depthAfter depth first) t with
      | nil => exact absurd hs (splitAtDepth_ne_nil _ t)
      | cons piece pieces =>
        rcases List.mem_cons.mp hc with rfl | hrest
        · exact ⟨c :: piece, List.mem_cons_self, List.mem_cons_self⟩
        · obtain ⟨found, hfound, hmem⟩ := ih (depthAfter depth first) hrest
          rcases List.mem_cons.mp (hs ▸ hfound) with rfl | hlater
          · exact ⟨first :: found, List.mem_cons_self, List.mem_cons_of_mem _ hmem⟩
          · exact ⟨found, List.mem_cons_of_mem _ hlater, hmem⟩

/-! ### Items -/

theorem itemsAt_cut (depth : Int) (s rest : Text) (h : depth + s.level ≤ 0) :
    itemsAt depth (s ++ ',' :: rest) = itemsAt depth s ++ itemsAt (depth + s.level) rest := by
  simp only [itemsAt, splitAtDepth_cut depth s rest h, List.map_append, List.filter_append]

theorem itemsAt_whole (depth : Int) (t : Text) (htrim : t.trim = t) (hne : t ≠ [])
    (h : ∀ before : Text, before ++ [','] <+: t → 0 < depth + before.level) : itemsAt depth t = [t] := by
  have hsome : t.isEmpty = false := List.isEmpty_eq_false_iff.mpr hne
  rw [itemsAt, splitAtDepth_whole depth t h, List.map_singleton, htrim,
    List.filter_cons_of_pos (by rw [hsome]; rfl)]
  rfl

theorem Text.mem_trim {c : Char} (hc : isBlank c = false) (t : Text) (h : c ∈ t) : c ∈ t.trim := by
  have hdrop : ∀ u : Text, c ∈ u → c ∈ u.dropWhile isBlank := by
    intro u hu
    rw [← List.takeWhile_append_dropWhile (p := isBlank) (l := u)] at hu
    refine (List.mem_append.mp hu).resolve_left fun htake => ?_
    rw [List.mem_takeWhile_imp htake] at hc
    cases hc
  rw [trim, trimStart, trimEnd, dropEndWhile, List.mem_reverse]
  exact hdrop _ (List.mem_reverse.mpr (hdrop t h))

/-- A character that is neither a blank nor a comma makes an item. -/
theorem itemsAt_ne_nil {c : Char} (hblank : isBlank c = false) (hcomma : c ≠ ',') (depth : Int) (t : Text)
    (hc : c ∈ t) : itemsAt depth t ≠ [] := by
  obtain ⟨piece, hpiece, hmem⟩ := mem_splitAtDepth hcomma depth t hc
  have hkept : piece.trim ∈ itemsAt depth t := by
    refine List.mem_filter.mpr ⟨List.mem_map_of_mem hpiece, ?_⟩
    rw [List.isEmpty_eq_false_iff.mpr (List.ne_nil_of_mem (Text.mem_trim hblank piece hmem))]
    rfl
  exact List.ne_nil_of_mem hkept

/-- Leading white space does not matter. -/
theorem itemsAt_blank {c : Char} (hc : isBlank c = true) (depth : Int) (t : Text) :
    itemsAt depth (c :: t) = itemsAt depth t := by
  have hne : ∀ d : Char, isBlank d = false → c ≠ d := by
    rintro d hd rfl
    rw [hc] at hd
    cases hd
  have hplain : depthAfter depth c = depth := by
    simp [depthAfter, hne '(' rfl, hne '[' rfl, hne '{' rfl, hne '<' rfl, hne ')' rfl, hne ']' rfl,
      hne '}' rfl, hne '>' rfl]
  have htrim : ∀ u : Text, Text.trim (c :: u) = Text.trim u := by
    intro u
    rw [Text.trim, Text.trimStart, List.dropWhile_cons_of_pos hc]
    rfl
  have hcut : ¬(c == ',' && decide (depth ≤ 0)) = true := by simp [hne ',' rfl]
  rw [itemsAt, itemsAt, splitAtDepth, if_neg hcut, hplain]
  cases hs : splitAtDepth depth t with
  | nil => exact absurd hs (splitAtDepth_ne_nil depth t)
  | cons piece pieces => simp only [List.map_cons, htrim]

/-! ### Joined items -/

/-- An item of a list: a well bracketed text, trimmed and not empty. -/
structure Text.IsItem (t : Text) : Prop where
  bracketed : t.WellBracketed
  trimmed : t.trim = t
  nonempty : t ≠ []

instance (t : Text) : Decidable t.IsItem :=
  decidable_of_iff (t.WellBracketed ∧ t.trim = t ∧ t ≠ [])
    ⟨fun h => ⟨h.1, h.2.1, h.2.2⟩, fun h => ⟨h.bracketed, h.trimmed, h.nonempty⟩⟩

/-- Whether every comma of the items stands under more open brackets than closers were ignored before it,
in this item or an earlier one; `b` is what was read before the items. -/
def Sheltered : BracketCount → List Text → Prop
  | _, [] => True
  | b, item :: items =>
    (∀ before : Text, before ++ [','] <+: item →
      (before.foldl BracketCount.read b).ignored < (before.foldl BracketCount.read b).depth) ∧
    Sheltered (item.foldl BracketCount.read b) items

theorem Text.join_cons (separator item next : Text) (items : List Text) :
    Text.join separator (item :: next :: items) = item ++ (separator ++ Text.join separator (next :: items)) :=
  List.append_assoc ..

theorem itemsAt_blanks (gap : Text) (hgap : ∀ c ∈ gap, isBlank c = true) (depth : Int) (t : Text) :
    itemsAt depth (gap ++ t) = itemsAt depth t := by
  induction gap with
  | nil => rfl
  | cons c gap ih =>
    rw [List.cons_append, itemsAt_blank (hgap c List.mem_cons_self),
      ih fun d hd => hgap d (List.mem_cons_of_mem c hd)]

/-- The items of a list are those of its first item and those of the others. -/
theorem itemsAt_join_cons (gap : Text) (hgap : ∀ c ∈ gap, isBlank c = true) (b : BracketCount)
    (item next : Text) (items : List Text) (h : (item.foldl BracketCount.read b).level ≤ 0) :
    itemsAt b.level (Text.join (',' :: gap) (item :: next :: items)) =
      itemsAt b.level item ++
        itemsAt (item.foldl BracketCount.read b).level (Text.join (',' :: gap) (next :: items)) := by
  rw [Text.level_foldl] at h ⊢
  rw [Text.join_cons, List.cons_append, itemsAt_cut _ item _ h, itemsAt_blanks gap hgap]

/-- An item falls into two or more where it is cut at a comma. -/
theorem itemsAt_item (depth : Int) (item : Text) (h : item.IsItem) :
    1 ≤ (itemsAt depth item).length ∧ ((itemsAt depth item).length = 1 →
      ∀ before : Text, before ++ [','] <+: item → 0 < depth + before.level) := by
  by_cases hwhole : ∀ before : Text, before ++ [','] <+: item → 0 < depth + before.level
  · rw [itemsAt_whole depth item h.trimmed h.nonempty hwhole]
    exact ⟨Nat.le_refl 1, fun _ => hwhole⟩
  · obtain ⟨before, hbefore⟩ := not_forall.mp hwhole
    obtain ⟨⟨after, hparts⟩, hlevel⟩ := Classical.not_imp.mp hbefore
    have hcut : depth + before.level ≤ 0 := Int.not_lt.mp hlevel
    rw [List.append_assoc, List.singleton_append] at hparts
    obtain ⟨⟨opener, hopener, ho⟩, closer, hcloser, hc⟩ := h.bracketed.around before after hparts.symm
    obtain ⟨hoblank, hocomma⟩ := bracket_visible (.inl ho)
    obtain ⟨hcblank, hccomma⟩ := bracket_visible (.inr hc)
    have hleft := List.length_pos_of_ne_nil (itemsAt_ne_nil hoblank hocomma depth before hopener)
    have hright := List.length_pos_of_ne_nil
      (itemsAt_ne_nil hcblank hccomma (depth + before.level) after hcloser)
    rw [← hparts, itemsAt_cut depth before after hcut, List.length_append]
    omega

section
variable (gap : Text) (hgap : ∀ c ∈ gap, isBlank c = true)
include hgap

theorem itemsAt_join (b : BracketCount) (hb : b.level ≤ 0) (items : List Text)
    (h : ∀ item ∈ items, item.IsItem) (hs : Sheltered b items) :
    itemsAt b.level (Text.join (',' :: gap) items) = items := by
  induction items generalizing b with
  | nil => rfl
  | cons item items ih =>
    obtain ⟨hitem, hitems⟩ := List.forall_mem_cons.mp h
    have hfirst : itemsAt b.level item = [item] := by
      refine itemsAt_whole b.level item hitem.trimmed hitem.nonempty fun before hbefore => ?_
      have hcomma := hs.1 before hbefore
      rw [← Text.level_foldl, BracketCount.level]
      omega
    cases items with
    | nil => exact hfirst
    | cons next items =>
      have hdown : (item.foldl BracketCount.read b).level ≤ 0 := by
        have hlevel := hitem.bracketed.level_le
        rw [Text.level_foldl]
        omega
      rw [itemsAt_join_cons gap hgap b item next items hdown, hfirst, ih _ hdown hitems hs.2]
      rfl

/-- Items that are cut become more. -/
theorem length_itemsAt_join (b : BracketCount) (hb : b.level ≤ 0) (items : List Text)
    (h : ∀ item ∈ items, item.IsItem) :
    items.length ≤ (itemsAt b.level (Text.join (',' :: gap) items)).length ∧
      ((itemsAt b.level (Text.join (',' :: gap) items)).length = items.length → Sheltered b items) := by
  induction items generalizing b with
  | nil => exact ⟨Nat.zero_le _, fun _ => trivial⟩
  | cons item items ih =>
    obtain ⟨hitem, hitems⟩ := List.forall_mem_cons.mp h
    obtain ⟨hone, hwhole⟩ := itemsAt_item b.level item hitem
    have hcovered : (itemsAt b.level item).length = 1 → ∀ before : Text, before ++ [','] <+: item →
        (before.foldl BracketCount.read b).ignored < (before.foldl BracketCount.read b).depth := by
      intro hlength before hbefore
      have hcomma := hwhole hlength before hbefore
      rw [← Text.level_foldl, BracketCount.level] at hcomma
      omega
    cases items with
    | nil => exact ⟨hone, fun hlength => ⟨hcovered hlength, trivial⟩⟩
    | cons next items =>
      have hdown : (item.foldl BracketCount.read b).level ≤ 0 := by
        have hlevel := hitem.bracketed.level_le
        rw [Text.level_foldl]
        omega
      obtain ⟨hothers, hrest⟩ := ih _ hdown hitems
      rw [itemsAt_join_cons gap hgap b item next items hdown, List.length_append, List.length_cons]
      exact ⟨by omega, fun hlength => ⟨hcovered (by omega), hrest (by omega)⟩⟩

end

/-- A list of items that are joined by commas is split into these items, and has as many parameters as
items, if and only if the items are sheltered: the split counts an ignored closer for all commas behind it. -/
theorem splitTopLevel_join (items : List Text) (h : ∀ item ∈ items, item.IsItem) :
    (splitTopLevel? (Text.join [','] items) = some items ↔ Sheltered ⟨0, 0⟩ items) ∧
    ∃ parameters, annotatedParameters? (Text.join [','] items) = some parameters ∧
      (parameters.length = items.length ↔ Sheltered ⟨0, 0⟩ items) := by
  have hgap : ∀ c ∈ ([] : Text), isBlank c = true := List.forall_mem_nil _
  obtain ⟨-, hlength⟩ := length_itemsAt_join [] hgap ⟨0, 0⟩ (Int.le_refl 0) items h
  have hfound : Sheltered ⟨0, 0⟩ items → splitTopLevel (Text.join [','] items) = items :=
    itemsAt_join [] hgap ⟨0, 0⟩ (Int.le_refl 0) items h
  constructor
  · rw [splitTopLevel?_eq, Option.some_inj]
    exact ⟨fun hsame => hlength (congrArg List.length hsame), hfound⟩
  · refine ⟨_, annotatedParameters?_eq _, ?_⟩
    rw [annotatedParameters, List.length_map]
    exact ⟨hlength, fun hs => congrArg List.length (hfound hs)⟩

/-- An arrow shelters the brackets behind it no longer than to their second level. -/
theorem splitTopLevel_join_arrow :
    (splitTopLevel? (Text.join [','] ["f = x => x".toList, "p = [[1, 2]]".toList]) =
        some ["f = x => x".toList, "p = [[1, 2]]".toList] ↔
      Sheltered ⟨0, 0⟩ ["f = x => x".toList, "p = [[1, 2]]".toList]) ∧
    ∃ parameters, annotatedParameters? (Text.join [','] ["f = x => x".toList, "p = [[1, 2]]".toList]) =
        some parameters ∧
      (parameters.length = 2 ↔ Sheltered ⟨0, 0⟩ ["f = x => x".toList, "p = [[1, 2]]".toList]) :=
  splitTopLevel_join ["f = x => x".toList, "p = [[1, 2]]".toList] (by decide)

/-- Behind an arrow a type is cut at the comma of its arguments. -/
theorem splitTopLevel_cuts_type :
    (∀ item ∈ ["a = x => x".toList, "m: Map<A, B>".toList], Text.IsItem item) ∧
    splitTopLevel? (Text.join [','] ["a = x => x".toList, "m: Map<A, B>".toList]) =
      some ["a = x => x".toList, "m: Map<A".toList, "B>".toList] ∧
    (annotatedParameters? (Text.join [','] ["a = x => x".toList, "m: Map<A, B>".toList])).map List.length =
      some 3 := by
  refine ⟨by decide, ?_, ?_⟩
  · rw [splitTopLevel?_eq]
    decide
  · rw [annotatedParameters?_eq]
    decide

end CodeIndex
