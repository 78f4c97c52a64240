import CodeIndex.Proofs.Structure.TopLevelItems
import CodeIndex.Proofs.Text.Places

/-!
# Printed parameters

A parameter is printed as `name: Type = default` or as `Type name = default`, without the parts that it
does not have. A list of printed parameters is read back: its commas outside brackets are the printed
ones, the first equals sign of an item is the one before the default, and the name ends at the first
colon or begins behind the last blank, star or ampersand.
-/

namespace CodeIndex

/-! ### Trimmed texts -/

theorem dropWhile_eq_self {drops : Char → Bool} (t : Text) :
    t.dropWhile drops = t ↔ ∀ c ∈ t.head?, drops c = false := by
  rw [List.dropWhile_eq_self_iff]
  cases t <;> simp

namespace Text

/-- A trimmed text is one whose first and last characters are no white space. -/
theorem trim_eq_self (t : Text) : t.trim = t ↔
    (∀ c ∈ t.head?, isBlank c = false) ∧ ∀ c ∈ t.getLast?, isBlank c = false := by
  have hend : ∀ u : Text, u.trimEnd = u ↔ ∀ c ∈ u.getLast?, isBlank c = false := by
    intro u
    rw [trimEnd, dropEndWhile, List.reverse_eq_iff, dropWhile_eq_self, List.head?_reverse]
  constructor
  · intro htrim
    have hstart : t.trimStart = t := by
      refine (List.dropWhile_suffix isBlank).eq_of_length_le ?_
      have hlength : t.trim.length ≤ t.trimStart.length := by
        have hdropped := (List.dropWhile_sublist (l := t.trimStart.reverse) isBlank).length_le
        rw [List.length_reverse] at hdropped
        rwa [trim, trimEnd, dropEndWhile, List.length_reverse]
      rwa [htrim] at hlength
    rw [trim, hstart] at htrim
    exact ⟨(dropWhile_eq_self t).mp hstart, (hend t).mp htrim⟩
  · rintro ⟨hhead, hlast⟩
    rw [trim, trimStart, (dropWhile_eq_self t).mpr hhead]
    exact (hend t).mpr hlast

/-- White space around a trimmed text is trimmed. -/
theorem trim_between (u t v : Text) (hu : ∀ c ∈ u, isBlank c = true) (hv : ∀ c ∈ v, isBlank c = true)
    (ht : t.trim = t) : (u ++ (t ++ v)).trim = t := by
  obtain ⟨hhead, hlast⟩ := (trim_eq_self t).mp ht
  have hkept : t.reverse.dropWhile isBlank = t.reverse :=
    (dropWhile_eq_self _).mpr (by rwa [List.head?_reverse])
  have hstart : (u ++ (t ++ v)).trimStart = t ++ v ∨ t = [] := by
    cases t with
    | nil => exact .inr rfl
    | cons c t =>
      rw [trimStart, List.dropWhile_append_of_pos hu]
      exact .inl ((dropWhile_eq_self _).mpr hhead)
  rcases hstart with hstart | rfl
  · rw [trim, hstart, trimEnd, dropEndWhile, List.reverse_append,
      List.dropWhile_append_of_pos fun c hc => hv c (List.mem_reverse.mp hc), hkept, List.reverse_reverse]
  · have hnone : (u ++ ([] ++ v)).trimStart = [] :=
      List.dropWhile_eq_nil_iff.mpr (List.forall_mem_append.mpr ⟨hu, hv⟩)
    rw [trim, hnone]
    rfl

theorem trim_append (t u : Text) (ht : t.trim = t) (hne : t ≠ [])
    (hu : ∀ c ∈ u.getLast?, isBlank c = false) : (t ++ u).trim = t ++ u := by
  obtain ⟨hhead, hlast⟩ := (trim_eq_self t).mp ht
  refine (trim_eq_self _).mpr ⟨by rwa [List.head?_append_of_ne_nil t hne], fun c hc => ?_⟩
  rw [List.getLast?_append, Option.mem_def, Option.or_eq_some_iff] at hc
  rcases hc with hc | ⟨-, hc⟩
  · exact hu c hc
  · exact hlast c hc

/-! ### Clauses -/

/-- A text in which every bracket is closed behind its opener and every comma stands inside brackets. -/
structure Enclosed (t : Text) : Prop where
  closed : t.brackets = ⟨0, 0⟩
  inside : ∀ before : Text, before ++ [','] <+: t → 0 < before.brackets.depth

instance (t : Text) : Decidable t.Enclosed :=
  decidable_of_iff (t.WellBracketed ∧ t.brackets = ⟨0, 0⟩)
    ⟨fun h => ⟨h.2, h.1.inside⟩, fun h => ⟨⟨congrArg BracketCount.depth h.closed, h.inside⟩, h.closed⟩⟩

theorem enclosed_of_plain (t : Text)
    (h : ∀ c ∈ t, isOpener c = false ∧ isCloser c = false ∧ c ≠ ',') : t.Enclosed where
  closed := by
    suffices hread : ∀ b : BracketCount, t.foldl BracketCount.read b = b from hread ⟨0, 0⟩
    intro b
    induction t with
    | nil => rfl
    | cons c t ih =>
      obtain ⟨⟨ho, hc, -⟩, ht⟩ := List.forall_mem_cons.mp h
      rw [List.foldl_cons, b.read_plain c ho hc, ih ht]
  inside := fun before hbefore =>
    absurd rfl (h ',' (hbefore.subset (List.mem_append_right before List.mem_cons_self))).2.2

theorem Enclosed.append {t u : Text} (ht : t.Enclosed) (hu : u.Enclosed) : (t ++ u).Enclosed where
  closed := by
    rw [brackets_append, ht.closed]
    exact hu.closed
  inside := fun before hbefore => by
    rcases List.prefix_or_prefix_of_prefix hbefore (List.prefix_append t u) with hfirst | ⟨more, hmore⟩
    · exact ht.inside before hfirst
    · -- the comma stands behind `t`, unless it is the last of its characters
      rcases List.eq_nil_or_concat more with rfl | ⟨within, c, rfl⟩
      · exact ht.inside before (by rw [← hmore, List.append_nil])
      · rw [List.concat_eq_append, ← List.append_assoc] at hmore
        obtain ⟨rfl, hcomma⟩ := List.append_inj' hmore rfl
        rw [List.append_assoc, hcomma.symm, List.prefix_append_right_inj] at hbefore
        rw [brackets_append, ht.closed]
        exact hu.inside within (by rwa [hcomma] at hbefore)

/-- A clause of a parameter: an enclosed text, trimmed and not empty. -/
structure IsClause (t : Text) : Prop where
  enclosed : t.Enclosed
  trimmed : t.trim = t
  nonempty : t ≠ []

instance (t : Text) : Decidable t.IsClause :=
  decidable_of_iff (t.Enclosed ∧ t.trim = t ∧ t ≠ [])
    ⟨fun h => ⟨h.1, h.2.1, h.2.2⟩, fun h => ⟨h.enclosed, h.trimmed, h.nonempty⟩⟩

theorem IsClause.last {t : Text} (h : t.IsClause) : ∀ c ∈ t.getLast?, isBlank c = false :=
  ((trim_eq_self t).mp h.trimmed).2

theorem IsClause.isItem {t : Text} (h : t.IsClause) : t.IsItem :=
  ⟨⟨congrArg BracketCount.depth h.enclosed.closed, h.enclosed.inside⟩, h.trimmed, h.nonempty⟩

end Text

/-- No closer is ignored in an enclosed text. -/
theorem sheltered_of_enclosed (items : List Text) (h : ∀ item ∈ items, item.Enclosed) :
    Sheltered ⟨0, 0⟩ items := by
  induction items with
  | nil => trivial
  | cons item items ih =>
    obtain ⟨hitem, hitems⟩ := List.forall_mem_cons.mp h
    constructor
    · rintro before ⟨after, hparts⟩
      have hignored : before.brackets.ignored ≤ item.brackets.ignored := by
        rw [← hparts, List.append_assoc, Text.brackets_append]
        exact BracketCount.ignored_le_foldl _ _
      rw [hitem.closed] at hignored
      exact Nat.lt_of_le_of_lt hignored (hitem.inside before ⟨after, hparts⟩)
    · rw [show item.foldl BracketCount.read ⟨0, 0⟩ = ⟨0, 0⟩ from hitem.closed]
      exact ih hitems

/-- Clauses that are joined by commas and spaces are found again. -/
theorem splitTopLevel_clauses (clauses : List Text) (h : ∀ t ∈ clauses, t.IsClause) :
    splitTopLevel (Text.join ", ".toList clauses) = clauses :=
  itemsAt_join [' '] (Text.forall_mem _ (by decide)) ⟨0, 0⟩ (Int.le_refl 0) clauses
    (fun t ht => (h t ht).isItem) (sheltered_of_enclosed clauses fun t ht => (h t ht).enclosed)

/-! ### Printing -/

/-- A part behind its mark, or nothing. -/
def printedPart (mark : Text) : Option String → Text
  | some part => mark ++ part.toList
  | none => []

/-- The parameter in the syntax `name: Type = default`. -/
def Parameter.annotated (p : Parameter) : Text :=
  p.name.toList ++ printedPart ": ".toList p.typeName ++ printedPart " = ".toList p.defaultValue

/-- The parameter in the syntax `Type name = default`. -/
def Parameter.typed (p : Parameter) : Text :=
  match p.typeName with
  | some type => type.toList ++ ' ' :: p.name.toList ++ printedPart " = ".toList p.defaultValue
  | none => p.name.toList ++ printedPart " = ".toList p.defaultValue

/-- The characters that a printed name does not have. -/
def isNameBreak (c : Char) : Bool :=
  isBlank c || isOpener c || isCloser c || [',', ':', '=', '?', '*', '&'].contains c

theorem isNameBreak_of_endsType {c : Char} (h : endsType c = true) : isNameBreak c = true := by
  simp only [endsType, Bool.or_eq_true, beq_iff_eq] at h
  rcases h with (h | rfl) | rfl
  · rw [isNameBreak, h]
    rfl
  · rfl
  · rfl

/-- A parameter that can be printed: a name without breaks, and clauses for the type and the default, no
equals sign in the type. -/
structure Parameter.Printable (p : Parameter) : Prop where
  named : p.name.toList ≠ []
  name_whole : ∀ c ∈ p.name.toList, isNameBreak c = false
  type_clause : ∀ type ∈ p.typeName, Text.IsClause type.toList ∧ '=' ∉ type.toList
  default_clause : ∀ value ∈ p.defaultValue, Text.IsClause value.toList

instance (p : Parameter) : Decidable p.Printable :=
  decidable_of_iff (p.name.toList ≠ [] ∧ p.name.toList.all (isNameBreak · = false) = true ∧
      (∀ type ∈ p.typeName, Text.IsClause type.toList ∧ '=' ∉ type.toList) ∧
      ∀ value ∈ p.defaultValue, Text.IsClause value.toList)
    ⟨fun h => ⟨h.1, Text.forall_mem _ h.2.1, h.2.2.1, h.2.2.2⟩,
      fun h => ⟨h.named, List.all_eq_true.mpr fun c hc => decide_eq_true (h.name_whole c hc),
        h.type_clause, h.default_clause⟩⟩

namespace Parameter.Printable

variable {p : Parameter} (h : p.Printable)
include h

theorem name_not_mem {c : Char} (hc : isNameBreak c = true) : c ∉ p.name.toList := fun hmem => by
  rw [h.name_whole c hmem] at hc
  cases hc

theorem name_not_blank : ∀ c ∈ p.name.toList, isBlank c = false := fun c hc =>
  Bool.eq_false_iff.mpr fun hblank => h.name_not_mem (by rw [isNameBreak, hblank]; rfl) hc

theorem name_trimmed : Text.trim p.name.toList = p.name.toList :=
  (Text.trim_eq_self _).mpr ⟨fun c hc => h.name_not_blank c (List.mem_of_head? hc),
    fun c hc => h.name_not_blank c (List.mem_of_getLast? hc)⟩

theorem name_last : ∀ c ∈ (' ' :: p.name.toList).getLast?, isBlank c = false := fun c hc => by
  rw [← List.singleton_append, List.getLast?_append_of_ne_nil _ h.named] at hc
  exact h.name_not_blank c (List.mem_of_getLast? hc)

theorem name_enclosed : Text.Enclosed p.name.toList := by
  refine Text.enclosed_of_plain _ fun c hc => ?_
  have hplain := h.name_whole c hc
  simp only [isNameBreak, Bool.or_eq_false_iff] at hplain
  exact ⟨hplain.1.1.2, hplain.1.2, fun hcomma => h.name_not_mem (c := c) (by rw [hcomma]; rfl) hc⟩

end Parameter.Printable

/-! ### Reading a printed parameter -/

theorem nonEmptyString?_between (s : String) (hs : Text.IsClause s.toList) (u v : Text)
    (hu : ∀ c ∈ u, isBlank c = true) (hv : ∀ c ∈ v, isBlank c = true) :
    nonEmptyString? (u ++ (s.toList ++ v)) = some s := by
  have hsome : List.isEmpty s.toList = false := List.isEmpty_eq_false_iff.mpr hs.nonempty
  rw [nonEmptyString?, Text.nonEmpty?, Text.trim_between u s.toList v hu hv hs.trimmed, hsome,
    if_neg Bool.false_ne_true, Option.map_some, String.ofList_toList]

/-- The default is found; the declaration keeps the blank before the equals sign. -/
theorem splitDefault_printed (declaration : Text) (hequals : '=' ∉ declaration) (value : Option String)
    (hvalue : ∀ v ∈ value, Text.IsClause v.toList) :
    ∃ gap : Text, (∀ c ∈ gap, isBlank c = true) ∧
      splitDefault (declaration ++ printedPart " = ".toList value) = (declaration ++ gap, value) := by
  cases value with
  | none =>
    refine ⟨[], List.forall_mem_nil _, ?_⟩
    rw [printedPart, List.append_nil, splitDefault, Text.splitFirst?_none '=' declaration hequals]
  | some v =>
    refine ⟨[' '], Text.forall_mem _ (by decide), ?_⟩
    have hprinted : declaration ++ printedPart " = ".toList (some v) =
        (declaration ++ [' ']) ++ '=' :: ([' '] ++ (v.toList ++ [])) := by
      rw [List.append_nil, List.append_assoc]
      rfl
    have hgap : '=' ∉ declaration ++ [' '] := by
      rw [List.mem_append, not_or]
      exact ⟨hequals, by decide⟩
    rw [hprinted, splitDefault, Text.splitFirst?_char '=' _ _ hgap]
    simp only [nonEmptyString?_between v (hvalue v rfl) [' '] [] (Text.forall_mem _ (by decide))
      (List.forall_mem_nil _)]

/-- A name has no question marks to drop. -/
theorem Parameter.Printable.read_name {p : Parameter} (h : p.Printable) (gap : Text)
    (hgap : ∀ c ∈ gap, isBlank c = true) :
    String.ofList (Text.dropEndWhile (· == '?') (Text.trim (p.name.toList ++ gap))) = p.name := by
  have htrim : Text.trim (p.name.toList ++ gap) = p.name.toList :=
    Text.trim_between [] p.name.toList gap (List.forall_mem_nil _) hgap h.name_trimmed
  have hkept : p.name.toList.reverse.dropWhile (· == '?') = p.name.toList.reverse := by
    refine (dropWhile_eq_self _).mpr fun c hc => beq_eq_false_iff_ne.mpr ?_
    rintro rfl
    exact h.name_not_mem rfl (List.mem_reverse.mp (List.mem_of_head? hc))
  rw [htrim, Text.dropEndWhile, hkept, List.reverse_reverse, String.ofList_toList]

theorem annotatedParameter_annotated (p : Parameter) (h : p.Printable) :
    annotatedParameter p.annotated = p := by
  have hequals : '=' ∉ p.name.toList := h.name_not_mem rfl
  have hcolon : ':' ∉ p.name.toList := h.name_not_mem rfl
  cases htype : p.typeName with
  | none =>
    obtain ⟨gap, hgap, hdefault⟩ :=
      splitDefault_printed p.name.toList hequals p.defaultValue h.default_clause
    have hnone : ':' ∉ p.name.toList ++ gap := by
      rw [List.mem_append, not_or]
      exact ⟨hcolon, fun hmem => absurd (hgap ':' hmem) (by decide)⟩
    have hname := h.read_name gap hgap
    rw [Parameter.annotated, htype, printedPart, List.append_nil, annotatedParameter]
    simp only [hdefault, Text.splitFirst?_none ':' _ hnone, hname, ← htype]
  | some type =>
    obtain ⟨hclause, hplain⟩ := h.type_clause type htype
    have hdeclared : '=' ∉ p.name.toList ++ (": ".toList ++ type.toList) := by
      rw [List.mem_append, List.mem_append, not_or, not_or]
      exact ⟨hequals, by decide, hplain⟩
    obtain ⟨gap, hgap, hdefault⟩ :=
      splitDefault_printed _ hdeclared p.defaultValue h.default_clause
    have hparts : p.name.toList ++ (": ".toList ++ type.toList) ++ gap =
        p.name.toList ++ ':' :: ([' '] ++ (type.toList ++ gap)) := by
      rw [List.append_assoc, List.append_assoc]
      rfl
    have hname := h.read_name [] (List.forall_mem_nil _)
    rw [List.append_nil] at hname
    rw [Parameter.annotated, htype, printedPart, annotatedParameter]
    simp only [hdefault, hparts, Text.splitFirst?_char ':' _ _ hcolon, hname,
      nonEmptyString?_between type hclause [' '] gap (Text.forall_mem _ (by decide)) hgap, ← htype]

theorem typedParameter_typed (p : Parameter) (h : p.Printable) (htyped : p.typeName.isSome) :
    typedParameter p.typed = p := by
  obtain ⟨type, htype⟩ := Option.isSome_iff_exists.mp htyped
  obtain ⟨hclause, hplain⟩ := h.type_clause type htype
  have hdeclared : '=' ∉ type.toList ++ ' ' :: p.name.toList := by
    rw [List.mem_append, List.mem_cons, not_or, not_or]
    exact ⟨hplain, by decide, h.name_not_mem rfl⟩
  obtain ⟨gap, hgap, hdefault⟩ := splitDefault_printed _ hdeclared p.defaultValue h.default_clause
  have htrim : Text.trim (type.toList ++ ' ' :: p.name.toList ++ gap) = type.toList ++ ' ' :: p.name.toList := by
    refine Text.trim_between [] _ gap (List.forall_mem_nil _) hgap ?_
    exact Text.trim_append _ _ hclause.trimmed hclause.nonempty h.name_last
  have hname : ∀ c ∈ p.name.toList.reverse, (!endsType c) = true := by
    intro c hc
    have hwhole := h.name_whole c (List.mem_reverse.mp hc)
    rw [Bool.not_eq_true', Bool.eq_false_iff]
    exact fun hends => absurd (isNameBreak_of_endsType hends) (by rw [hwhole]; decide)
  have hreversed : (type.toList ++ ' ' :: p.name.toList).reverse =
      p.name.toList.reverse ++ ' ' :: type.toList.reverse := by
    rw [List.reverse_append, List.reverse_cons, List.append_assoc]
    rfl
  have htake : (type.toList ++ ' ' :: p.name.toList).reverse.takeWhile (!endsType ·) =
      p.name.toList.reverse := by
    rw [hreversed, List.takeWhile_append_of_pos hname, List.takeWhile_cons_of_neg (by decide),
      List.append_nil]
  have hdrop : (type.toList ++ ' ' :: p.name.toList).reverse.dropWhile (!endsType ·) =
      ' ' :: type.toList.reverse := by
    rw [hreversed, List.dropWhile_append_of_pos hname, List.dropWhile_cons_of_neg (by decide)]
  have hsome : List.isEmpty p.name.toList = false := List.isEmpty_eq_false_iff.mpr h.named
  have htypeName := nonEmptyString?_between type hclause [] [' '] (List.forall_mem_nil _)
    (Text.forall_mem _ (by decide))
  rw [List.nil_append] at htypeName
  rw [Parameter.typed, htype, typedParameter]
  simp only [hdefault, htrim, htake, hdrop, List.reverse_cons, List.reverse_reverse, hsome,
    String.ofList_toList, htypeName, ← htype]
  rfl

/-! ### Lists -/

theorem printedPart_enclosed (mark : Text) (hmark : mark.Enclosed) (part : Option String)
    (h : ∀ t ∈ part, Text.IsClause t.toList) : (printedPart mark part).Enclosed := by
  cases part with
  | none => exact ⟨rfl, fun before hbefore => absurd (List.prefix_nil.mp hbefore) (by simp)⟩
  | some t => exact hmark.append (h t rfl).enclosed

theorem printedPart_last (mark : Text) (part : Option String) (h : ∀ t ∈ part, Text.IsClause t.toList) :
    ∀ c ∈ (printedPart mark part).getLast?, isBlank c = false := by
  cases part with
  | none => exact fun c hc => by cases hc
  | some t =>
    rw [printedPart, List.getLast?_append_of_ne_nil _ (h t rfl).nonempty]
    exact (h t rfl).last

theorem Parameter.annotated_isClause (p : Parameter) (h : p.Printable) : p.annotated.IsClause := by
  have htype : ∀ t ∈ p.typeName, Text.IsClause t.toList := fun t ht => (h.type_clause t ht).1
  have hdeclared : Text.trim (p.name.toList ++ printedPart ": ".toList p.typeName) =
      p.name.toList ++ printedPart ": ".toList p.typeName :=
    Text.trim_append _ _ h.name_trimmed h.named (printedPart_last _ _ htype)
  have hsome : p.name.toList ++ printedPart ": ".toList p.typeName ≠ [] :=
    List.append_ne_nil_of_left_ne_nil h.named _
  refine ⟨?_, ?_, List.append_ne_nil_of_left_ne_nil hsome _⟩
  · exact (h.name_enclosed.append (printedPart_enclosed _ (by decide) _ htype)).append
      (printedPart_enclosed _ (by decide) _ h.default_clause)
  · exact Text.trim_append _ _ hdeclared hsome (printedPart_last _ _ h.default_clause)

theorem Parameter.typed_isClause (p : Parameter) (h : p.Printable) (htyped : p.typeName.isSome) :
    p.typed.IsClause := by
  obtain ⟨type, htype⟩ := Option.isSome_iff_exists.mp htyped
  obtain ⟨hclause, -⟩ := h.type_clause type htype
  have hdeclared : Text.trim (type.toList ++ ' ' :: p.name.toList) = type.toList ++ ' ' :: p.name.toList :=
    Text.trim_append _ _ hclause.trimmed hclause.nonempty h.name_last
  have hsome : type.toList ++ ' ' :: p.name.toList ≠ [] :=
    List.append_ne_nil_of_left_ne_nil hclause.nonempty _
  have hspace : Text.Enclosed [' '] := by decide
  rw [Parameter.typed, htype]
  refine ⟨?_, ?_, List.append_ne_nil_of_left_ne_nil hsome _⟩
  · exact (hclause.enclosed.append (hspace.append h.name_enclosed)).append
      (printedPart_enclosed _ (by decide) _ h.default_clause)
  · exact Text.trim_append _ _ hdeclared hsome (printedPart_last _ _ h.default_clause)

/-- An item with a type has a space in it. -/
theorem Parameter.typed_ne_void (p : Parameter) (htyped : p.typeName.isSome) : p.typed ≠ "void".toList := by
  obtain ⟨type, htype⟩ := Option.isSome_iff_exists.mp htyped
  have hspace : ' ' ∈ p.typed := by
    rw [Parameter.typed, htype]
    simp
  intro hvoid
  rw [hvoid] at hspace
  exact absurd hspace (by decide)

/-- A list of printed parameters is read back, in the syntax with the types behind the names and, when
every parameter has a type, in the syntax with the types before them. -/
theorem printed_parameters_read (parameters : List Parameter) (h : ∀ p ∈ parameters, p.Printable) :
    annotatedParameters? (Text.join ", ".toList (parameters.map Parameter.annotated)) = some parameters ∧
    ((∀ p ∈ parameters, p.typeName.isSome) →
      typedParameters? (Text.join ", ".toList (parameters.map Parameter.typed)) = some parameters) := by
  have hsame : ∀ (read : Text → Parameter) (print : Parameter → Text),
      (∀ p ∈ parameters, read (print p) = p) → (parameters.map print).map read = parameters := by
    intro read print hread
    rw [List.map_map]
    exact (List.map_congr_left hread).trans (List.map_id parameters)
  constructor
  · rw [annotatedParameters?_eq, annotatedParameters,
      splitTopLevel_clauses _ (List.forall_mem_map.mpr fun p hp => p.annotated_isClause (h p hp)),
      hsame _ _ fun p hp => annotatedParameter_annotated p (h p hp)]
  · intro htyped
    have hkept : (parameters.map Parameter.typed).filter (· != "void".toList) =
        parameters.map Parameter.typed :=
      List.filter_eq_self.mpr (List.forall_mem_map.mpr fun p hp =>
        bne_iff_ne.mpr (p.typed_ne_void (htyped p hp)))
    rw [typedParameters?_eq, typedParameters,
      splitTopLevel_clauses _ (List.forall_mem_map.mpr fun p hp => p.typed_isClause (h p hp) (htyped p hp)),
      hkept, hsame _ _ fun p hp => typedParameter_typed p (h p hp) (htyped p hp)]

/-- Commas, colons, stars and equals signs in the types and the defaults do not matter. -/
theorem printed_parameters_read_marks :
    (∀ p ∈ [⟨"m", some "Map<K, [V: *]>", some "new Map([[a, b = {c: d}]])"⟩, ⟨"p", some "char * &", none⟩],
      Parameter.Printable p) ∧
    annotatedParameters? "m: Map<K, [V: *]> = new Map([[a, b = {c: d}]]), p: char * &".toList =
      some [⟨"m", some "Map<K, [V: *]>", some "new Map([[a, b = {c: d}]])"⟩, ⟨"p", some "char * &", none⟩] ∧
    typedParameters? "Map<K, [V: *]> m = new Map([[a, b = {c: d}]]), char * & p".toList =
      some [⟨"m", some "Map<K, [V: *]>", some "new Map([[a, b = {c: d}]])"⟩, ⟨"p", some "char * &", none⟩] := by
  have hprintable : ∀ p ∈ [⟨"m", some "Map<K, [V: *]>", some "new Map([[a, b = {c: d}]])"⟩,
      ⟨"p", some "char * &", none⟩], Parameter.Printable p := by decide
  obtain ⟨hannotated, htyped⟩ := printed_parameters_read _ hprintable
  exact ⟨hprintable, hannotated, htyped (by decide)⟩

end CodeIndex
