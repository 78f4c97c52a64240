import CodeIndex.Insight.Relation
import CodeIndex.Proofs.RuleSet.ClassForest
import CodeIndex.Proofs.RuleSet.ClassHeader
import CodeIndex.Proofs.RuleSet.TriedHeaders
import CodeIndex.Proofs.Text.TypeList

/-!
# Lists of types in class headers

The interfaces of a Java class and the bases of a Python class, each a list of types with arguments of any
depth. The header rules take the whole list as it is meant, but the list is then split at every comma.
-/

namespace CodeIndex

open Regex

/-! ### Classes that report a list -/

/-- What a class reports of a list of types: the pieces between all commas, and an edge to each piece. So it
reports the types, and has one edge to each, just where no type has more than one argument. -/
structure ClassDecl.Lists (c : ClassDecl) (list : TypeList) (opening closing : Char) (kind : RelationKind)
    (reported : List String) : Prop where
  pieces : reported = (list.pieces opening closing).map String.ofList
  types : reported = (list.types opening closing).map String.ofList ↔ list.OneArgument
  edges : ∀ path, classRelations path c =
    reported.map fun target => .of path target kind (.object [("class", .string c.name)])
  targets : ∀ path, (classRelations path c).map (·.target) = (list.types opening closing).map String.ofList ↔
    list.OneArgument

theorem ClassDecl.lists_of {c : ClassDecl} {list : TypeList} {opening closing : Char} {kind : RelationKind}
    {reported : List String} (hpieces : reported = (list.pieces opening closing).map String.ofList)
    (hedges : ∀ path, classRelations path c =
      reported.map fun target => .of path target kind (.object [("class", .string c.name)])) :
    c.Lists list opening closing kind reported := by
  have htypes : reported = (list.types opening closing).map String.ofList ↔ list.OneArgument := by
    rw [hpieces]
    exact list.pieces_eq_types_iff String.ofList
  have htargets : ∀ path, (classRelations path c).map (·.target) = reported := by
    intro path
    rw [hedges, List.map_map]
    exact List.map_id _
  exact ⟨hpieces, htypes, hedges, fun path => by rw [htargets, htypes]⟩

end CodeIndex

namespace CodeIndex.Java

open Regex

variable {fuel : Nat} {p : Cursor}

/-! ### Java headers -/

/-- The modifiers of the header rule. -/
def classModifiers : List String :=
  ["public", "private", "protected", "abstract", "final", "static", "sealed"]

/-- A class header with modifiers and a list of interfaces. -/
structure InterfaceHead where
  modifiers : List String
  name : Name
  interfaces : TypeList
  known : ∀ m ∈ modifiers, m ∈ classModifiers
  listed : interfaces ≠ .nil

def modifierText (modifiers : List String) : Text :=
  modifiers.flatMap fun m => m.toList ++ [' ']

def interfacesClause (interfaces : TypeList) : Text :=
  ([' '] ++ "implements".toList ++ [' ']) ++ (interfaces.text '<' '>' ++ " \x7b".toList)

def InterfaceHead.text (head : InterfaceHead) : Text :=
  modifierText head.modifiers ++ ("class".toList ++ ([' '] ++ (head.name.text ++ interfacesClause head.interfaces)))

theorem InterfaceHead.text_eq (head : InterfaceHead) :
    head.text = modifierText head.modifiers ++ "class".toList ++ [' '] ++ head.name.text
      ++ interfacesClause head.interfaces := by
  simp only [text, List.append_assoc]

theorem modifiers_begin (modifiers : List String) (hknown : ∀ m ∈ modifiers, m ∈ classModifiers) (rest : Text) :
    ∃ c more, modifierText modifiers ++ ("class".toList ++ rest) = c :: more ∧ isWord c = true := by
  cases modifiers with
  | nil => exact ⟨'c', _, rfl, by decide⟩
  | cons m more =>
    have hletters : ∀ m ∈ classModifiers, ∃ c letters, m.toList = c :: letters ∧ isWord c = true := by
      simp only [classModifiers, List.forall_mem_cons, List.not_mem_nil, false_implies, implies_true, and_true]
      exact ⟨⟨'p', _, rfl, by decide⟩, ⟨'p', _, rfl, by decide⟩, ⟨'p', _, rfl, by decide⟩,
        ⟨'a', _, rfl, by decide⟩, ⟨'f', _, rfl, by decide⟩, ⟨'s', _, rfl, by decide⟩, ⟨'s', _, rfl, by decide⟩⟩
    obtain ⟨c, letters, hm, hc⟩ := hletters m (hknown m List.mem_cons_self)
    exact ⟨c, _, by rw [modifierText, List.flatMap_cons, hm]; rfl, hc⟩

theorem modifiers_roundsTake (modifiers : List String) (hknown : ∀ m ∈ modifiers, m ∈ classModifiers)
    {rest : Text} (h : p.rest = modifierText modifiers ++ ("class".toList ++ rest)) (n : Nat)
    (hn : modifiers.length ≤ n) :
    RoundsTake fuel n (words classModifiers ++ blanks1) p (modifierText modifiers) ("class".toList ++ rest) := by
  induction modifiers generalizing p n with
  | nil =>
    exact Refuses.roundsTake (refuses_at h rfl rfl) n h
  | cons m more ih =>
    obtain ⟨hm, hmore⟩ := List.forall_mem_cons.mp hknown
    obtain ⟨n, rfl⟩ : ∃ k, n = k + 1 := ⟨n - 1, by rw [List.length_cons] at hn; omega⟩
    obtain ⟨c, later, hlater, hc⟩ := modifiers_begin more hmore rest
    have hbehind := isBlank_eq_false hc
    rw [modifierText, List.flatMap_cons, ← modifierText, List.append_assoc, List.append_assoc] at h
    have hword := @takes_words fuel p classModifiers m hm (by decide) _ h
    have hround : (words classModifiers ++ blanks1).Takes fuel p (m.toList ++ [' ']) (modifierText more
        ++ ("class".toList ++ rest)) [] := hword.seq (by
      rw [hlater]
      exact takes_space rfl hbehind)
    exact hround.roundsTake (List.append_ne_nil_of_right_ne_nil _ (List.cons_ne_nil ' ' []))
      (ih hmore rfl n (by rw [List.length_cons] at hn; omega))

theorem length_modifierText (modifiers : List String) :
    modifiers.length ≤ (modifierText modifiers).length := by
  induction modifiers with
  | nil => exact Nat.le_refl 0
  | cons m more ih =>
    simp only [modifierText, List.flatMap_cons, List.length_append, List.length_cons, List.length_nil] at ih ⊢
    omega

theorem headerFront_takes (modifiers : List String) (hknown : ∀ m ∈ modifiers, m ∈ classModifiers) {rest : Text}
    (h : p.rest = modifierText modifiers ++ ("class".toList ++ rest)) (hbefore : p.before.any isWord = false)
    (hfuel : modifiers.length ≤ fuel) :
    (Regex.group 1 annotationList ++ .group 2 (modifierList classModifiers) ++ edge).Takes fuel p
      (modifierText modifiers) ("class".toList ++ rest)
      [(2, ⟨p, p.offset + (modifierText modifiers).width⟩), (1, ⟨p, p.offset⟩)] := by
  obtain ⟨c, more, hbegins, hc⟩ := modifiers_begin modifiers hknown rest
  -- no sign of an annotation, so the list of them is empty
  have hannotations : annotationList.Takes fuel p [] (modifierText modifiers ++ ("class".toList ++ rest)) [] := by
    have hsign : (char '@').Refuses fuel p :=
      refuses_at (h.trans hbegins) rfl (beq_eq_false_iff_ne.mpr (ne_of_isWord hc (by decide)))
    exact Refuses.takes_rounds (((hsign.seq _).seq _).seq _) h
  have hrounds := (@modifiers_roundsTake fuel p modifiers hknown rest h fuel hfuel).takes h
  have hedge : Anchor.wordBoundary.holds (p.after (modifierText modifiers) ("class".toList ++ rest)) = true := by
    have hplace : (p.after (modifierText modifiers) ("class".toList ++ rest)).before.any isWord = false := by
      rw [Cursor.after]
      rcases List.eq_nil_or_concat modifiers with rfl | ⟨front, m, rfl⟩
      · exact hbefore
      · rw [modifierText, List.concat_eq_append, List.flatMap_append, List.flatMap_singleton, ← List.append_assoc,
          List.getLast?_concat]
        rfl
    rw [Anchor.holds, hplace]
    rfl
  have hmodifiers := hrounds.group 2
  rw [← Cursor.after_nil h] at hmodifiers
  have hfront := ((hannotations.group 1).seq hmodifiers).seq_nothing (takes_anchor hedge rfl)
  rw [Cursor.after_nil h] at hfront
  exact hfront

/-- Behind the name of such a class nothing else comes in front of the list of interfaces. -/
theorem interfaces_first (interfaces : TypeList) {rest : Text} (h : p.rest = interfacesClause interfaces ++ rest) :
    (opt typeArguments ++ (opt (blanks ++ enclosed '(' ')')
      ++ opt (blanks1 ++ lit "extends" ++ blanks1 ++ .group 4 dottedName ++ opt typeArguments))).Takes fuel p []
        (interfacesClause interfaces ++ rest) [] := by
  have hnot : ∀ (c : Char), isBlank c = false → c ≠ 'i' → (blanks ++ char c).Refuses fuel p := by
    intro c hblank hne
    refine (refuses_behind_space rfl (fun d hd => ?_) h rfl ?_).1
    · obtain rfl := beq_iff_eq.mp hd
      exact hblank
    · exact beq_eq_false_iff_ne.mpr hne.symm
  have hparen : (blanks ++ enclosed '(' ')').Refuses fuel p := by
    have hfront := ((hnot '(' rfl (by decide)).seq (any (· != ')'))).seq (char ')')
    exact hfront
  have hextends : (blanks1 ++ lit "extends").Refuses fuel p :=
    JavaScript.clause_refuses rfl rfl h rfl (by decide)
  have htyped : typeArguments.Refuses fuel p := ((hnot '<' rfl (by decide)).seq _).seq _
  have hparent := (((hextends.seq blanks1).seq (.group 4 dottedName)).seq (opt typeArguments)).takes_opt h
  exact (htyped.takes_opt h).nothing_nothing ((hparen.takes_opt h).nothing_nothing hparent)

theorem interfaces_take (interfaces : TypeList) (hlisted : interfaces ≠ .nil) (rest : Text)
    (h : p.rest = interfacesClause interfaces ++ rest) :
    ∃ added,
      (opt (blanks1 ++ lit "implements" ++ blanks1 ++ .group 5 typeList) ++ (blanks ++ char '{')).Takes fuel p
        (interfacesClause interfaces) rest added ∧ Carries 5 added (some (interfaces.text '<' '>')) := by
  obtain ⟨c, letters, hfirst, hc⟩ : ∃ c letters, interfaces.text '<' '>' = c :: letters ∧ isWord c = true :=
    interfaces.text_first hlisted
  obtain ⟨last, hlast, hend⟩ : ∃ last, (interfaces.text '<' '>').getLast? = some last ∧
      (isWord last = true ∨ last = '>') := interfaces.text_last hlisted
  have hmem : ∀ e ∈ interfaces.text '<' '>', isWord e = true ∨ isBlank e = true ∨ e = ',' ∨ e = '<' ∨ e = '>' :=
    interfaces.text_mem
  have haccepts : ∀ e ∈ interfaces.text '<' '>', (wordOr [',', '.', '<', '>'] e || isBlank e) = true := by
    intro e he
    rcases hmem e he with hword | hblank | rfl | rfl | rfl
    · rw [wordOr, hword, Bool.true_or, Bool.true_or]
    · rw [hblank, Bool.or_true]
    · rfl
    · rfl
    · rfl
  have hbrace : '{' ∉ interfaces.text '<' '>' := fun hin => by
    rcases hmem '{' hin with h | h | h | h | h <;> exact absurd h (by decide)
  have hblank : isBlank last = false := by
    rcases hend with hword | rfl
    · exact isBlank_eq_false hword
    · rfl
  have hclause : (blanks1 ++ lit "implements" ++ blanks1).Takes fuel p ([' '] ++ "implements".toList ++ [' '])
      (interfaces.text '<' '>' ++ " \x7b".toList ++ rest) [] := by
    rw [interfacesClause, List.append_assoc] at h
    rw [hfirst] at h ⊢
    exact JavaScript.clause_takes rfl rfl h (isBlank_eq_false hc)
  have htypes := hclause.seq (takes_listed 5 (List.append_assoc ..) hlast hblank haccepts hbrace)
  exact ⟨_, Takes.opt_seq htypes.assoc, _, rfl, Cursor.span_text (List.append_assoc ..)⟩

/-- What the groups of a match hold of a header. -/
structure InterfaceHead.Held (head : InterfaceHead) (p : Cursor) (groups : List (Nat × Span)) : Prop where
  modifiers : groups.lookup 2 = some ⟨p, p.offset + (modifierText head.modifiers).width⟩
  name : (groups.lookup 3).map Span.text = some head.name.text
  superclass : groups.lookup 4 = none
  interfaces : (groups.lookup 5).map Span.text = some (head.interfaces.text '<' '>')

theorem classHeader_takes (head : InterfaceHead) {rest : Text} (h : p.rest = head.text ++ rest)
    (hbefore : p.before.any isWord = false) (hfuel : head.modifiers.length ≤ fuel) :
    ∃ groups, classHeader.Takes fuel p head.text rest groups ∧ head.Held p groups := by
  rw [head.text_eq] at h ⊢
  simp only [List.append_assoc] at h
  have hfront := headerFront_takes head.modifiers head.known h hbefore hfuel
  have hkeyword := hfront.seq ((takes_lit (s := "class") rfl).alt (s := words ["record", "enum"]))
  have hnamed := (hkeyword.seq (takes_space_name head.name rfl)).seq ((takes_name head.name rfl rfl).group 3)
  have hplain := hnamed.seq_nothing (interfaces_first head.interfaces rfl)
  obtain ⟨added, hlisted, hcarries⟩ := @interfaces_take fuel _ head.interfaces head.listed rest
    (Cursor.after_rest _ _ _)
  have hall := hplain.seq hlisted
  refine ⟨_, ⟨hall.ahead, hall.prefers⟩, ?_⟩
  exact
    { modifiers := hcarries.lookup_of_ne _ (by decide)
      name := by
        rw [hcarries.lookup_of_ne _ (by decide)]
        exact congrArg some (Cursor.span_text rfl)
      superclass := hcarries.lookup_of_ne _ (by decide)
      interfaces := hcarries.lookup _ rfl }

/-! ### Java classes -/

theorem withMembers?_header {t : Text} {lines : LineIndex} {body : Cursor} {c c' : ClassDecl}
    (h : withMembers? t lines body c = some c') :
    c'.name = c.name ∧ c'.line = c.line ∧ c'.bases = c.bases ∧ c'.interfaces = c.interfaces := by
  simp only [withMembers?, Option.bind_eq_bind, Option.bind_eq_some_iff] at h
  obtain ⟨constructors, -, methods, -, h⟩ := h
  cases h
  exact ⟨rfl, rfl, rfl, rfl⟩

theorem InterfaceHead.class_lists (head : InterfaceHead) {t : Text} {header : Match} {c : ClassDecl}
    (hheld : head.Held header.start header.groups) (h : (maskedBody? t header).bind (classWith? t header) = some c) :
    c.name = head.name.string ∧ c.line = (LineIndex.ofText t).lineNumber header.start.offset ∧ c.bases = [] ∧
      c.Lists head.interfaces '<' '>' .implementation c.interfaces := by
  simp only [classWith?, Option.bind_eq_some_iff] at h
  obtain ⟨body, -, h⟩ := h
  obtain ⟨hname, hline, hbases, hinterfaces⟩ := withMembers?_header h
  have hgroup : header.string 3 = head.name.string := by
    rw [Match.string, Match.group, Match.group?, Match.span?, hheld.name]
    rfl
  have hstart : header.groupStart 2 = header.start.offset := by
    rw [Match.groupStart, Match.span?, hheld.modifiers]
    rfl
  have hnone : c.bases = [] := by
    rw [hbases, ClassDecl.bases, Match.string?, Match.group?, Match.span?, hheld.superclass]
    rfl
  have hpieces : c.interfaces = (head.interfaces.pieces '<' '>').map String.ofList := by
    rw [hinterfaces, commaStrings, Match.group, Match.group?, Match.span?, hheld.interfaces, Option.getD_some,
      head.interfaces.commaList_text (by decide) (by decide)]
  refine ⟨hname.trans hgroup, hline.trans (congrArg (LineIndex.ofText t).lineNumber hstart), hnone,
    ClassDecl.lists_of hpieces fun path => ?_⟩
  rw [classRelations, hnone]
  rfl

end CodeIndex.Java

namespace CodeIndex.Python

open Regex

variable {fuel : Nat} {p : Cursor}

/-! ### Python headers -/

/-- A class header with its indentation and a list of bases. -/
structure BasesHead where
  indent : Text
  name : Name
  bases : TypeList
  indents : ∀ c ∈ indent, isTabOrSpace c = true

def typesClause (bases : TypeList) : Text :=
  ['('] ++ (bases.text '[' ']' ++ [')'])

def BasesHead.text (head : BasesHead) : Text :=
  head.indent ++ ("class".toList ++ ([' '] ++ (head.name.text ++ (typesClause head.bases ++ [':']))))

theorem BasesHead.text_eq (head : BasesHead) :
    head.text = head.indent ++ "class".toList ++ [' '] ++ head.name.text ++ typesClause head.bases ++ [':'] := by
  simp only [text, List.append_assoc]

/-- What the groups of a match hold of a header. -/
structure BasesHead.Held (head : BasesHead) (groups : List (Nat × Span)) : Prop where
  name : (groups.lookup 2).map Span.text = some head.name.text
  bases : (groups.lookup 3).map Span.text = some (head.bases.text '[' ']')

theorem bases_take (bases : TypeList) {rest : Text}
    (h : p.rest = typesClause bases ++ ([':'] ++ rest)) :
    ∃ added, (opt (blanks ++ char '(' ++ .group 3 (any (· != ')')) ++ char ')')).Takes fuel p
      (typesClause bases) ([':'] ++ rest) added ∧ Carries 3 added (some (bases.text '[' ']')) := by
  simp only [typesClause, List.append_assoc] at h
  have hlist : ∀ c ∈ bases.text '[' ']', (c != ')') = true := by
    intro c hc
    refine bne_iff_ne.mpr ?_
    rintro rfl
    rcases bases.text_mem ')' hc with h | h | h | h | h <;> exact absurd h (by decide)
  have hopened := (@takes_no_blanks fuel _ _ _ h rfl).nothing_seq (takes_char h)
  have hnames := hopened.seq ((takes_many rfl hlist (outside_head rfl)).group 3)
  have hclosed := (hnames.seq (takes_char rfl)).opt
  rw [List.append_assoc] at hclosed
  exact ⟨_, hclosed, _, rfl, Cursor.span_text rfl⟩

theorem basesHead_takes (head : BasesHead) {rest : Text} (hp : StartsLine p) (h : p.rest = head.text ++ rest) :
    ∃ groups, classHeader.Takes fuel p head.text rest groups ∧ head.Held groups := by
  rw [head.text_eq] at h ⊢
  simp only [List.append_assoc] at h
  have hindent : indentation.Takes fuel p head.indent _ _ :=
    (takes_anchor hp h).nothing_seq ((takes_many h head.indents (outside_head rfl)).group 1)
  have hword := hindent.seq (takes_lit (s := "class") rfl)
  have hnamed := (hword.seq (takes_space_name head.name rfl)).seq ((takes_name head.name rfl rfl).group 2)
  obtain ⟨added, hclause, hcarries⟩ := @bases_take fuel _ head.bases rest (Cursor.after_rest _ _ _)
  have hall := ((hnamed.seq hclause).seq_nothing (takes_no_blanks rfl rfl)).seq (takes_char rfl)
  refine ⟨_, hall, ?_⟩
  exact
    { name := by
        rw [List.nil_append, hcarries.lookup_of_ne _ (by decide)]
        exact congrArg some (Cursor.span_text rfl)
      bases := hcarries.lookup _ rfl }

/-! ### Python classes -/

/-- The bases that the rules report are the pieces between commas; no piece has an equals sign. -/
theorem basesOf_types (m : Match) (bases : TypeList) (h : m.group 3 = bases.text '[' ']') :
    basesOf m = (bases.pieces '[' ']').map String.ofList := by
  have hplain : ∀ piece ∈ bases.pieces '[' ']', (!piece.contains '=') = true := by
    intro piece hpiece
    have hall : ∀ piece ∈ bases.pieces '[' ']', ∀ c ∈ piece, c ≠ '=' :=
      bases.forall_pieces (fun c hc => ne_of_isWord hc (by decide)) (by decide) (by decide)
    have hnot : '=' ∉ piece := fun hin => hall piece hpiece '=' hin rfl
    rw [List.contains_eq_mem, decide_eq_false hnot]
    rfl
  rw [basesOf, h, bases.commaList_text (by decide) (by decide), List.filter_eq_self.mpr hplain]

theorem BasesHead.keywordOffset (head : BasesHead) (before rest : Text) (groups : List (Nat × Span)) :
    let place := (before ++ (head.text ++ rest)).start.after before (head.text ++ rest)
    Python.keywordOffset ⟨place, place.after head.text rest, groups⟩ = (before ++ head.indent).width := by
  intro place
  have hplace : place.offset = before.width := Nat.zero_add _
  have htext : Match.text ⟨place, place.after head.text rest, groups⟩ = head.text := by
    rw [Match.text, Cursor.after_offset, Nat.add_sub_cancel_left]
    exact Text.takeBytes_width head.text rest
  have hblank : ∀ c ∈ head.indent, isBlank c = true := by
    intro c hc
    have htab := head.indents c hc
    simp only [isTabOrSpace, Bool.or_eq_true, beq_iff_eq] at htab
    rcases htab with rfl | rfl <;> rfl
  have htake : head.text.takeWhile isBlank = head.indent := by
    rw [BasesHead.text, List.takeWhile_append_of_pos hblank]
    exact List.append_nil _
  rw [Python.keywordOffset, htext, htake, Text.width_append, hplace]

theorem BasesHead.class_lists (head : BasesHead) (before rest : Text) {groups : List (Nat × Span)}
    (hheld : head.Held groups) {c : ClassDecl} :
    let t := before ++ (head.text ++ rest)
    let place := t.start.after before (head.text ++ rest)
    classOf? t (.ofText t) ⟨place, place.after head.text rest, groups⟩ = some c →
      c.name = head.name.string ∧ c.line = .ofNat (before.count '\n' + 1) ∧
        c.bases = (head.bases.pieces '[' ']').map String.ofList ∧ c.superclass = c.bases.head? ∧ c.interfaces = [] := by
  intro t place h
  have hcontent := classOf?_content h
  obtain ⟨hline, -⟩ := classOf?_line t _ _ c h
  have hbases := basesOf_types ⟨place, place.after head.text rest, groups⟩ head.bases
    (congrArg (Option.getD · []) hheld.bases)
  simp only [Prod.mk.injEq, hbases] at hcontent
  obtain ⟨hname, hfirst, hmore⟩ := hcontent
  have hfeeds : head.indent.count '\n' = 0 := by
    refine List.count_eq_zero.mpr fun hin => ?_
    exact absurd (head.indents '\n' hin) (by decide)
  have hsplit : t = (before ++ head.indent) ++ (("class".toList ++ ([' '] ++ (head.name.text
      ++ (typesClause head.bases ++ [':'])))) ++ rest) := by
    simp only [t, BasesHead.text, List.append_assoc]
  have hlisted : c.bases = (head.bases.pieces '[' ']').map String.ofList := by
    rw [ClassDecl.bases, hfirst, hmore]
    cases (head.bases.pieces '[' ']').map String.ofList <;> rfl
  refine ⟨hname.trans ?_, ?_, hlisted, by rw [hlisted, hfirst], ?_⟩
  · rw [Match.string, Match.group, Match.group?, Match.span?, hheld.name]
    rfl
  · rw [hline, head.keywordOffset, LineIndex.lineNumber, hsplit, LineIndex.lineAt_width, List.count_append, hfeeds]
  · rw [classOf?, Option.bind_eq_bind, Option.bind_eq_some_iff] at h
    obtain ⟨decorators, -, hc⟩ := h
    cases hc
    rfl

end CodeIndex.Python

namespace CodeIndex

/-! ### Descriptions -/

theorem Java.interfaces_reported (head : Java.InterfaceHead) (before rest : Text)
    (hbefore : before.getLast?.any isWord = false)
    (htried : Java.classHeader.TriesAt before (head.text ++ rest))
    (hcuts : ¬Language.java.Cuts (before ++ (head.text ++ rest))) :
    ∃ d, Registry.standard.extract .java (before ++ (head.text ++ rest)) = .ok d ∧
      ∃ c ∈ d.classes, c.name = head.name.string ∧ c.line = .ofNat (before.count '\n' + 1) ∧ c.bases = [] ∧
        c.Lists head.interfaces '<' '>' .implementation c.interfaces := by
  have hfuel : head.modifiers.length ≤ (before ++ (head.text ++ rest)).length := by
    have hmodifiers := Java.length_modifierText head.modifiers
    simp only [Java.InterfaceHead.text, List.length_append]
    omega
  obtain ⟨groups, htakes, hheld⟩ := Java.classHeader_takes head
    (p := (before ++ (head.text ++ rest)).start.after before (head.text ++ rest)) (Cursor.after_rest _ _ _)
    (by rw [start_after_before, hbefore]) hfuel
  obtain ⟨d, hd, c, hc, hclass⟩ := Java.rules.class_at (by decide) htried htakes hcuts
  obtain ⟨hname, hline, hbases, hlists⟩ := head.class_lists hheld hclass
  exact ⟨d, hd, c, hc, hname, hline.trans (lineNumber_start_after before _), hbases, hlists⟩

theorem Python.bases_reported (head : Python.BasesHead) (before rest : Text)
    (hbefore : before.getLast?.all (· == '\n') = true)
    (htried : Python.classHeader.TriesAt before (head.text ++ rest)) :
    ∃ d, Registry.standard.extract .python (before ++ (head.text ++ rest)) = .ok d ∧
      ∃ c ∈ d.classes, c.name = head.name.string ∧ c.line = .ofNat (before.count '\n' + 1) ∧ c.interfaces = [] ∧
        c.superclass = c.bases.head? ∧ c.Lists head.bases '[' ']' .inheritance c.bases := by
  obtain ⟨d, hd⟩ := Python.describe?_some .python (before ++ (head.text ++ rest))
  obtain ⟨_, classes, functions, properties, -, hclasses, -, -, hall⟩ := Python.describe?_parts hd
  have hplace : Python.StartsLine ((before ++ (head.text ++ rest)).start.after before (head.text ++ rest)) := by
    rw [Python.StartsLine, Anchor.holds, start_after_before, hbefore]
  obtain ⟨groups, htakes, hheld⟩ := @Python.basesHead_takes (before ++ (head.text ++ rest)).length _ head rest
    hplace rfl
  obtain ⟨c, hc, hclass⟩ := mapM_of_mem hclasses (htried.mem_findAll htakes)
  obtain ⟨hname, hline, hbases, hfirst, hinterfaces⟩ := head.class_lists before rest hheld hclass
  obtain ⟨i, hi, rfl⟩ := List.mem_iff_getElem.mp hc
  let reported : ClassDecl :=
    { classes[i] with methods := (Python.ownedBy (some i) functions).map Python.methodOf, properties := properties i }
  refine ⟨d, congrArg (foundOrCut "python" .python) hd, reported, ?_, hname, hline, hinterfaces, hfirst, ?_⟩
  · rw [hall]
    exact List.mem_mapIdx.mpr ⟨i, hi, rfl⟩
  · refine ClassDecl.lists_of hbases fun path => ?_
    rw [classRelations, hinterfaces]
    exact List.append_nil _

/-- Interfaces of a Java class and bases of a Python class, each a list of types with arguments of any depth, are
reported as the pieces of the list between all its commas. So the class reports the types as they are written, and
has one edge to each, just where no type has more than one argument, at any depth. -/
theorem extract_listed_types (before rest : Text) :
    (∀ head : Java.InterfaceHead, before.getLast?.any isWord = false →
      Java.classHeader.TriesAt before (head.text ++ rest) → ¬Language.java.Cuts (before ++ (head.text ++ rest)) →
      ∃ d, Registry.standard.extract .java (before ++ (head.text ++ rest)) = .ok d ∧
        ∃ c ∈ d.classes, c.name = head.name.string ∧ c.line = .ofNat (before.count '\n' + 1) ∧ c.bases = [] ∧
          c.Lists head.interfaces '<' '>' .implementation c.interfaces) ∧
    ∀ head : Python.BasesHead, before.getLast?.all (· == '\n') = true →
      Python.classHeader.TriesAt before (head.text ++ rest) →
      ∃ d, Registry.standard.extract .python (before ++ (head.text ++ rest)) = .ok d ∧
        ∃ c ∈ d.classes, c.name = head.name.string ∧ c.line = .ofNat (before.count '\n' + 1) ∧ c.interfaces = [] ∧
          c.superclass = c.bases.head? ∧ c.Lists head.bases '[' ']' .inheritance c.bases :=
  ⟨fun head => Java.interfaces_reported head before rest, fun head => Python.bases_reported head before rest⟩

/-- `class A implements Map<K, V> {` -/
def mapHead : Java.InterfaceHead where
  modifiers := []
  name := .ofString "A" (by decide)
  interfaces := .applied (.ofString "Map" (by decide))
    (.plain (.ofString "K" (by decide)) .space (.plain (.ofString "V" (by decide)) .none .nil)) .none .nil
  known := List.forall_mem_nil _
  listed := nofun

/-- `class A(List[int], Base):` -/
def genericHead : Python.BasesHead where
  indent := []
  name := .ofString "A" (by decide)
  bases := .applied (.ofString "List" (by decide)) (.plain (.ofString "int" (by decide)) .none .nil) .space
    (.plain (.ofString "Base" (by decide)) .none .nil)
  indents := List.forall_mem_nil _

theorem extract_listed_types_generic :
    (∃ d, Registry.standard.extract .java "class A implements Map<K, V> \x7b\x7d".toList = .ok d ∧
      ∃ c ∈ d.classes, c.interfaces = ["Map<K", "V>"] ∧ ¬mapHead.interfaces.OneArgument) ∧
    ∃ d, Registry.standard.extract .python "class A(List[int], Base):".toList = .ok d ∧
      ∃ c ∈ d.classes, c.bases = ["List[int]", "Base"] ∧ genericHead.bases.OneArgument := by
  constructor
  · obtain ⟨d, hd, c, hc, -, -, -, hlists⟩ := (extract_listed_types [] ['}']).1 mapHead rfl (by decide +kernel)
      (Language.not_cuts (c := '}') rfl rfl)
    have htypes : ¬mapHead.interfaces.OneArgument := fun h => absurd h.1 (by decide)
    exact ⟨d, hd, c, hc, hlists.pieces, htypes⟩
  · obtain ⟨d, hd, c, hc, -, -, -, -, hlists⟩ := (extract_listed_types [] []).2 genericHead rfl (by decide +kernel)
    have hone : genericHead.bases.OneArgument := ⟨by decide, trivial, trivial⟩
    exact ⟨d, hd, c, hc, hlists.pieces, hone⟩

/-- One interface with two arguments is reported as two. -/
theorem extract_listed_types_torn :
    mapHead.text ++ ['}'] = "class A implements Map<K, V> \x7b\x7d".toList ∧
      mapHead.interfaces.types '<' '>' = ["Map<K, V>".toList] ∧
      (Registry.standard.extract .java (mapHead.text ++ ['}'])).map (fun d => d.classes.map (·.interfaces)) =
        .ok [["Map<K", "V>"]] := by
  refine ⟨rfl, rfl, ?_⟩
  decide +kernel

end CodeIndex
