import CodeIndex.Proofs.Text.Name

/-!
# Lists of types with arguments

A list of types, each a name with or without a list of types between brackets. When such a list is split at
every comma, the commas between arguments split it too: a type with several arguments is torn apart, and the
pieces are the types just where no type has more than one.
-/

namespace CodeIndex

/-- Types one after another. The gap of a type is the white space behind the comma in front of the next one. -/
inductive TypeList where
  | nil
  | plain (name : Name) (gap : Gap) (rest : TypeList)
  | applied (name : Name) (arguments : TypeList) (gap : Gap) (rest : TypeList)

namespace TypeList

/-! ### Texts and types -/

/-- What stands behind a type in front of the others, whose text is given. -/
def behind (gap : Gap) (rest : TypeList) (text : Text) : Text :=
  match rest with
  | .nil => []
  | _ => ',' :: (gap.text ++ text)

def text (opening closing : Char) : TypeList → Text
  | .nil => []
  | .plain name gap rest => name.text ++ behind gap rest (rest.text opening closing)
  | .applied name arguments gap rest =>
    name.text ++ opening :: (arguments.text opening closing ++ closing ::
      behind gap rest (rest.text opening closing))

/-- The types of the list as they are written. -/
def types (opening closing : Char) : TypeList → List Text
  | .nil => []
  | .plain name _ rest => name.text :: rest.types opening closing
  | .applied name arguments _ rest =>
    (name.text ++ opening :: (arguments.text opening closing ++ [closing])) :: rest.types opening closing

def count : TypeList → Nat
  | .nil => 0
  | .plain _ _ rest => rest.count + 1
  | .applied _ _ _ rest => rest.count + 1

/-- Whether no type of the list has more than one argument, and no argument has. -/
def OneArgument : TypeList → Prop
  | .nil => True
  | .plain _ _ rest => rest.OneArgument
  | .applied _ arguments _ rest => arguments.count ≤ 1 ∧ arguments.OneArgument ∧ rest.OneArgument

/-- Pieces with a text in front of the first and a text behind the last. -/
def enclose (lead trail : Text) : List Text → List Text
  | [] => [lead ++ trail]
  | [piece] => [lead ++ (piece ++ trail)]
  | piece :: next :: more => (lead ++ piece) :: enclose [] trail (next :: more)

/-- The pieces between all commas of the list. -/
def pieces (opening closing : Char) : TypeList → List Text
  | .nil => []
  | .plain name _ rest => name.text :: rest.pieces opening closing
  | .applied name arguments _ rest =>
    enclose (name.text ++ [opening]) [closing] (arguments.pieces opening closing)
      ++ rest.pieces opening closing

variable {opening closing : Char}

theorem behind_of_ne {gap : Gap} {rest : TypeList} (h : rest ≠ .nil) (t : Text) :
    behind gap rest t = ',' :: (gap.text ++ t) := by
  cases rest with
  | nil => exact absurd rfl h
  | plain _ _ _ => rfl
  | applied _ _ _ _ => rfl

/-! ### Enclosed pieces -/

theorem enclose_ne_nil (lead trail : Text) (list : List Text) : enclose lead trail list ≠ [] := by
  unfold enclose
  split <;> exact List.cons_ne_nil _ _

theorem length_enclose (lead trail : Text) (list : List Text) :
    (enclose lead trail list).length = max 1 list.length := by
  induction list generalizing lead with
  | nil => rfl
  | cons piece more ih =>
    cases more with
    | nil => rfl
    | cons next more =>
      rw [enclose, List.length_cons, ih]
      simp only [List.length_cons]
      omega

theorem enclose_nothing (list : List Text) (hne : list ≠ []) : enclose [] [] list = list := by
  induction list with
  | nil => exact absurd rfl hne
  | cons piece more ih =>
    cases more with
    | nil => rw [enclose, List.nil_append, List.append_nil]
    | cons next more => rw [enclose, ih (List.cons_ne_nil next more), List.nil_append]

theorem enclose_append (lead trail : Text) (front back : List Text) (hfront : front ≠ []) (hback : back ≠ []) :
    enclose lead trail (front ++ back) = enclose lead [] front ++ enclose [] trail back := by
  induction front generalizing lead with
  | nil => exact absurd rfl hfront
  | cons piece more ih =>
    cases more with
    | nil =>
      obtain ⟨next, later, rfl⟩ := List.exists_cons_of_ne_nil hback
      rw [List.singleton_append, enclose, enclose, List.append_nil, List.singleton_append]
    | cons next more =>
      have hmore := ih [] (List.cons_ne_nil next more)
      rw [List.cons_append] at hmore
      rw [List.cons_append, List.cons_append, enclose, hmore, enclose, List.cons_append]

theorem enclose_enclose (lead trail first last : Text) (list : List Text) :
    enclose lead trail (enclose first last list) = enclose (lead ++ first) (last ++ trail) list := by
  induction list generalizing lead first with
  | nil => simp only [enclose, List.append_assoc]
  | cons piece more ih =>
    cases more with
    | nil => simp only [enclose, List.append_assoc]
    | cons next more =>
      have hmore := ih [] []
      obtain ⟨a, later, hlater⟩ := List.exists_cons_of_ne_nil (enclose_ne_nil [] last (next :: more))
      rw [hlater, List.append_nil] at hmore
      rw [enclose, hlater, enclose, hmore, enclose, List.append_assoc]

theorem forall_enclose {good : Char → Prop} {lead trail : Text} {list : List Text} (hlead : ∀ c ∈ lead, good c)
    (htrail : ∀ c ∈ trail, good c) (hlist : ∀ piece ∈ list, ∀ c ∈ piece, good c) :
    ∀ piece ∈ enclose lead trail list, ∀ c ∈ piece, good c := by
  induction list generalizing lead with
  | nil => exact List.forall_mem_singleton.mpr (List.forall_mem_append.mpr ⟨hlead, htrail⟩)
  | cons piece more ih =>
    obtain ⟨hpiece, hmore⟩ := List.forall_mem_cons.mp hlist
    cases more with
    | nil =>
      exact List.forall_mem_singleton.mpr (List.forall_mem_append.mpr ⟨hlead, List.forall_mem_append.mpr ⟨hpiece, htrail⟩⟩)
    | cons next more =>
      exact List.forall_mem_cons.mpr ⟨List.forall_mem_append.mpr ⟨hlead, hpiece⟩, ih (List.forall_mem_nil _) hmore⟩

/-! ### Splitting at every comma -/

theorem pieces_ne_nil {list : TypeList} (h : list ≠ .nil) : list.pieces opening closing ≠ [] := by
  cases list with
  | nil => exact absurd rfl h
  | plain name gap rest => exact List.cons_ne_nil _ _
  | applied name arguments gap rest => exact List.append_ne_nil_of_left_ne_nil (enclose_ne_nil _ _ _) _

/-- What stands around the arguments of a type: no comma and no white space. -/
def Plain (t : Text) : Prop :=
  ∀ c ∈ t, isBlank c = false ∧ c ≠ ','

theorem Plain.append {t u : Text} (ht : Plain t) (hu : Plain u) : Plain (t ++ u) :=
  List.forall_mem_append.mpr ⟨ht, hu⟩

/-- A first part of a list with plain text around it, and what follows in the list. -/
theorem commaList_behind {lead trail first : Text} {front : List Text} (gap : Gap) (rest : TypeList)
    (hfront : front ≠ []) (halone : ∀ trail, Plain trail → Text.commaList (lead ++ (first ++ trail)) =
      enclose lead trail front)
    (hrest : Text.commaList ([] ++ (rest.text opening closing ++ trail)) =
      enclose [] trail (rest.pieces opening closing) ∨ rest = .nil) (htrail : Plain trail) :
    Text.commaList (lead ++ (first ++ (behind gap rest (rest.text opening closing) ++ trail))) =
      enclose lead trail (front ++ rest.pieces opening closing) := by
  by_cases hnil : rest = .nil
  · subst hnil
    rw [behind, List.nil_append, pieces, List.append_nil]
    exact halone trail htrail
  · have hfirst := halone [] (List.forall_mem_nil _)
    rw [List.append_nil] at hfirst
    rw [behind_of_ne hnil, List.cons_append, ← List.append_assoc lead, commaList_append, hfirst, List.append_assoc,
      commaList_gap, enclose_append _ _ _ _ hfront (pieces_ne_nil hnil), ← hrest.resolve_right hnil]
    rfl

variable (hopening : isBlank opening = false ∧ opening ≠ ',') (hclosing : isBlank closing = false ∧ closing ≠ ',')
include hopening hclosing

theorem commaList_enclosed (list : TypeList) (lead trail : Text) (hlead : Plain lead) (htrail : Plain trail)
    (hne : lead ≠ [] ∨ list ≠ .nil) :
    Text.commaList (lead ++ (list.text opening closing ++ trail)) =
      enclose lead trail (list.pieces opening closing) := by
  -- for the arguments of a type the text around them grows by its name and its brackets
  induction list generalizing lead trail with
  | nil =>
    have hlead' : lead ≠ [] := hne.resolve_right fun h => h rfl
    exact commaList_plain _ (List.append_ne_nil_of_left_ne_nil hlead' _) (hlead.append htrail)
  | plain name gap rest ih =>
    rw [text, List.append_assoc]
    refine commaList_behind gap rest (List.cons_ne_nil name.text []) (fun trail htrail => ?_) ?_
      htrail
    · have hname : name.text ++ trail ≠ [] := List.append_ne_nil_of_left_ne_nil name.nonempty _
      exact commaList_plain _ (List.append_ne_nil_of_right_ne_nil _ hname)
        (hlead.append (Plain.append name.plain htrail))
    · exact (Classical.em (rest = .nil)).symm.imp_left fun h => ih [] trail (List.forall_mem_nil _) htrail (Or.inr h)
  | applied name arguments gap rest iharguments ih =>
    have hparts : lead ++ (text opening closing (.applied name arguments gap rest) ++ trail) =
        lead ++ ((name.text ++ opening :: (arguments.text opening closing ++ [closing])) ++
          (behind gap rest (rest.text opening closing) ++ trail)) := by
      simp only [text, List.append_assoc, List.cons_append, List.nil_append]
    rw [hparts]
    refine commaList_behind gap rest (enclose_ne_nil _ _ _) (fun trail htrail => ?_) ?_ htrail
    · have hinner := iharguments (lead ++ (name.text ++ [opening])) (closing :: trail)
        (hlead.append (Plain.append name.plain (List.forall_mem_singleton.mpr hopening)))
        (List.forall_mem_cons.mpr ⟨hclosing, htrail⟩) (Or.inl (by simp))
      rw [enclose_enclose, List.singleton_append, ← hinner]
      simp only [List.append_assoc, List.cons_append, List.nil_append]
    · exact (Classical.em (rest = .nil)).symm.imp_left fun h => ih [] trail (List.forall_mem_nil _) htrail (Or.inr h)

theorem commaList_text (list : TypeList) :
    Text.commaList (list.text opening closing) = list.pieces opening closing := by
  by_cases hnil : list = .nil
  · subst hnil
    rfl
  · have hall := commaList_enclosed hopening hclosing list [] [] (List.forall_mem_nil _) (List.forall_mem_nil _)
      (Or.inr hnil)
    rwa [List.nil_append, List.append_nil, enclose_nothing _ (pieces_ne_nil hnil)] at hall

omit hopening hclosing

/-! ### Pieces and types -/

theorem length_types (list : TypeList) : (list.types opening closing).length = list.count := by
  induction list with
  | nil => rfl
  | plain name gap rest ih => rw [types, List.length_cons, ih, count]
  | applied name arguments gap rest _ ih => rw [types, List.length_cons, ih, count]

theorem count_le_pieces (list : TypeList) : list.count ≤ (list.pieces opening closing).length := by
  induction list with
  | nil => exact Nat.le_refl 0
  | plain name gap rest ih =>
    rw [count, pieces, List.length_cons]
    omega
  | applied name arguments gap rest _ ih =>
    rw [count, pieces, List.length_append, length_enclose]
    omega

theorem oneArgument_of_length (list : TypeList) (h : (list.pieces opening closing).length = list.count) :
    list.OneArgument := by
  induction list with
  | nil => trivial
  | plain name gap rest ih =>
    rw [pieces, count, List.length_cons] at h
    exact ih (by omega)
  | applied name arguments gap rest iharguments ih =>
    have harguments := @count_le_pieces opening closing arguments
    have hrest := @count_le_pieces opening closing rest
    rw [pieces, count, List.length_append, length_enclose] at h
    have hone : (arguments.pieces opening closing).length ≤ 1 := by omega
    refine ⟨by omega, iharguments ?_, ih (by omega)⟩
    by_cases hnil : arguments = .nil
    · subst hnil
      rfl
    · have hsome := List.length_pos_iff.mpr (@pieces_ne_nil opening closing arguments hnil)
      have hcount : 1 ≤ arguments.count := by
        cases arguments with
        | nil => exact absurd rfl hnil
        | plain name gap rest => exact Nat.le_add_left 1 _
        | applied name arguments gap rest => exact Nat.le_add_left 1 _
      omega

theorem types_of_count (list : TypeList) (h : list.count = 1) : list.types opening closing = [list.text opening closing] := by
  cases list with
  | nil => cases h
  | plain name gap rest =>
    cases rest with
    | nil => rw [types, types, text, behind, List.append_nil]
    | plain _ _ _ => simp [count] at h
    | applied _ _ _ _ => simp [count] at h
  | applied name arguments gap rest =>
    cases rest with
    | nil => rw [types, types, text, behind]
    | plain _ _ _ => simp [count] at h
    | applied _ _ _ _ => simp [count] at h

theorem pieces_eq_types (list : TypeList) (h : list.OneArgument) :
    list.pieces opening closing = list.types opening closing := by
  induction list with
  | nil => rfl
  | plain name gap rest ih => rw [pieces, types, ih h]
  | applied name arguments gap rest iharguments ih =>
    obtain ⟨hcount, harguments, hrest⟩ := h
    rw [pieces, types, ih hrest, iharguments harguments]
    suffices hone : enclose (name.text ++ [opening]) [closing] (arguments.types opening closing) =
        [name.text ++ opening :: (arguments.text opening closing ++ [closing])] by
      rw [hone, List.singleton_append]
    cases hone : arguments.count with
    | zero =>
      obtain rfl : arguments = .nil := by
        cases arguments with
        | nil => rfl
        | plain _ _ _ => simp [count] at hone
        | applied _ _ _ _ => simp [count] at hone
      rw [types, enclose, text, List.nil_append, List.append_assoc, List.singleton_append]
    | succ n =>
      rw [types_of_count arguments (by omega), enclose, List.append_assoc, List.singleton_append]

/-- The pieces are the types just where no comma stands between arguments. -/
theorem pieces_eq_types_iff {α : Type} (read : Text → α) (list : TypeList) :
    (list.pieces opening closing).map read = (list.types opening closing).map read ↔ list.OneArgument := by
  refine ⟨fun h => ?_, fun h => by rw [pieces_eq_types list h]⟩
  -- there are never fewer pieces than types, so equal lists leave no comma inside of a type
  have hlength := congrArg List.length h
  rw [List.length_map, List.length_map, length_types] at hlength
  exact oneArgument_of_length list hlength

/-! ### Characters -/

theorem forall_pieces {good : Char → Prop} (hword : ∀ c, isWord c = true → good c) (hopening : good opening)
    (hclosing : good closing) (list : TypeList) : ∀ piece ∈ list.pieces opening closing, ∀ c ∈ piece, good c := by
  induction list with
  | nil => exact List.forall_mem_nil _
  | plain name gap rest ih => exact List.forall_mem_cons.mpr ⟨fun c hc => hword c (name.word c hc), ih⟩
  | applied name arguments gap rest iharguments ih =>
    have hlead : ∀ c ∈ name.text ++ [opening], good c :=
      List.forall_mem_append.mpr ⟨fun c hc => hword c (name.word c hc), List.forall_mem_singleton.mpr hopening⟩
    exact List.forall_mem_append.mpr
      ⟨forall_enclose hlead (List.forall_mem_singleton.mpr hclosing) iharguments, ih⟩

theorem text_mem (list : TypeList) : ∀ c ∈ list.text opening closing,
    isWord c = true ∨ isBlank c = true ∨ c = ',' ∨ c = opening ∨ c = closing := by
  have hbehind : ∀ (gap : Gap) (rest : TypeList) (t : Text),
      (∀ c ∈ t, isWord c = true ∨ isBlank c = true ∨ c = ',' ∨ c = opening ∨ c = closing) →
      ∀ c ∈ behind gap rest t, isWord c = true ∨ isBlank c = true ∨ c = ',' ∨ c = opening ∨ c = closing := by
    intro gap rest t ht c hc
    cases rest <;> simp only [behind, List.not_mem_nil, List.mem_cons, List.mem_append] at hc
    all_goals
      rcases hc with rfl | hc | hc
      · exact .inr (.inr (.inl rfl))
      · exact .inr (.inl (gap.blank c hc))
      · exact ht c hc
  induction list with
  | nil => exact List.forall_mem_nil _
  | plain name gap rest ih =>
    exact List.forall_mem_append.mpr ⟨fun c hc => .inl (name.word c hc), hbehind gap rest _ ih⟩
  | applied name arguments gap rest iharguments ih =>
    refine List.forall_mem_append.mpr ⟨fun c hc => .inl (name.word c hc), List.forall_mem_cons.mpr
      ⟨.inr (.inr (.inr (.inl rfl))), List.forall_mem_append.mpr ⟨iharguments, List.forall_mem_cons.mpr
        ⟨.inr (.inr (.inr (.inr rfl))), hbehind gap rest _ ih⟩⟩⟩⟩

theorem text_first {list : TypeList} (h : list ≠ .nil) :
    ∃ c rest, list.text opening closing = c :: rest ∧ isWord c = true := by
  cases list with
  | nil => exact absurd rfl h
  | plain name gap rest =>
    obtain ⟨c, letters, hname, hc⟩ := name.exists_cons
    exact ⟨c, _, by rw [text, hname, List.cons_append], hc⟩
  | applied name arguments gap rest =>
    obtain ⟨c, letters, hname, hc⟩ := name.exists_cons
    exact ⟨c, _, by rw [text, hname, List.cons_append], hc⟩

theorem text_last {list : TypeList} (h : list ≠ .nil) :
    ∃ c, (list.text opening closing).getLast? = some c ∧ (isWord c = true ∨ c = closing) := by
  have hbehind : ∀ (front : Text) (gap : Gap) (rest : TypeList),
      (∃ c, front.getLast? = some c ∧ (isWord c = true ∨ c = closing)) →
      (rest ≠ .nil → ∃ c, (rest.text opening closing).getLast? = some c ∧ (isWord c = true ∨ c = closing)) →
      ∃ c, (front ++ behind gap rest (rest.text opening closing)).getLast? = some c ∧
        (isWord c = true ∨ c = closing) := by
    intro front gap rest hfront hrest
    by_cases hnil : rest = .nil
    · subst hnil
      rwa [behind, List.append_nil]
    · obtain ⟨c, hc, hlast⟩ := hrest hnil
      refine ⟨c, ?_, hlast⟩
      rw [behind_of_ne hnil, List.getLast?_append, ← List.cons_append, List.getLast?_append, hc]
      rfl
  induction list with
  | nil => exact absurd rfl h
  | plain name gap rest ih =>
    have hname := List.getLast?_eq_some_getLast name.nonempty
    exact hbehind name.text gap rest ⟨_, hname, .inl (name.word _ (List.getLast_mem name.nonempty))⟩ ih
  | applied name arguments gap rest _ ih =>
    have hparts : text opening closing (.applied name arguments gap rest) =
        (name.text ++ opening :: (arguments.text opening closing ++ [closing])) ++
          behind gap rest (rest.text opening closing) := by
      simp only [text, List.append_assoc, List.cons_append, List.nil_append]
    rw [hparts]
    refine hbehind _ gap rest ⟨closing, ?_, .inr rfl⟩ ih
    rw [← List.cons_append, ← List.append_assoc, List.getLast?_concat]

end TypeList

end CodeIndex
