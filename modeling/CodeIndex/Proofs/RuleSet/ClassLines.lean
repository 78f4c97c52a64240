import CodeIndex.Insight.Relation
import CodeIndex.Proofs.RuleSet.ClassHeader
import CodeIndex.RuleSet.Registry

/-!
# Texts made of class declarations

Each line declares a class with nothing in its body. The rules find the classes as they were written, one for
each line, and the edges of the text are those of the headers.
-/

namespace CodeIndex

open JavaScript Regex

/-! ### Lines -/

namespace JavaScript.ClassHead

/-- A class with nothing in its body. -/
def line (head : ClassHead) : Text :=
  head.text ++ ['}']

/-- The edges of a header: one to the superclass, then one to each interface. -/
def relations (path : String) (head : ClassHead) : List Relation :=
  (head.superclass.toList.map fun parent =>
      .of path parent.string .inheritance (.object [("class", .string head.name.string)]))
    ++ head.interfaces.map fun name =>
      .of path name.string .implementation (.object [("class", .string head.name.string)])

/-- The characters of a header. -/
theorem text_mem (head : ClassHead) :
    ∀ c ∈ head.text, isWord c = true ∨ c = ' ' ∨ c = ',' ∨ c = '{' := by
  have hword : ∀ t : Text, (t.all fun c => isWord c || c == ' ' || c == '{') = true →
      ∀ c ∈ t, isWord c = true ∨ c = ' ' ∨ c = ',' ∨ c = '{' := by
    intro t ht c hc
    have hthis := List.all_eq_true.mp ht c hc
    simp only [Bool.or_eq_true, beq_iff_eq] at hthis
    tauto
  have hclass := hword "class ".toList (by decide +kernel)
  have hbrace := hword " \x7b".toList (by decide +kernel)
  have hextends : ∀ c ∈ extendsClause head.superclass, isWord c = true ∨ c = ' ' ∨ c = ',' ∨ c = '{' := by
    cases head.superclass with
    | none => exact List.forall_mem_nil _
    | some parent =>
      rw [extendsClause_some]
      exact List.forall_mem_append.mpr ⟨hword _ (by decide +kernel), fun c hc => Or.inl (parent.word c hc)⟩
  have himplements : ∀ c ∈ implementsClause head.interfaces, isWord c = true ∨ c = ' ' ∨ c = ',' ∨ c = '{' := by
    cases head.interfaces with
    | nil => exact List.forall_mem_nil _
    | cons first more =>
      rw [implementsClause_cons]
      refine List.forall_mem_append.mpr ⟨hword _ (by decide +kernel), fun c hc => ?_⟩
      obtain hletter | hcomma | hspace := Name.joined_mem _ c hc
      · exact Or.inl hletter
      · exact Or.inr (Or.inr (Or.inl hcomma))
      · exact Or.inr (Or.inl hspace)
  intro c hc
  unfold text at hc
  rw [List.mem_append, List.mem_append, List.mem_append, List.mem_append] at hc
  obtain ((hc | hc) | hc) | hc | hc := hc
  · exact hclass c hc
  · exact Or.inl (head.name.word c hc)
  · exact hextends c hc
  · exact himplements c hc
  · exact hbrace c hc

end JavaScript.ClassHead

/-- Lines, and line feeds at the end of the text. -/
def lined (lines : List Text) (final : Nat) : Text :=
  Text.join ['\n'] lines ++ List.replicate final '\n'

theorem lined_cons (line next : Text) (more : List Text) (final : Nat) :
    lined (line :: next :: more) final = line ++ '\n' :: lined (next :: more) final := by
  simp only [lined, Text.join, List.append_assoc]
  rfl

/-- The last character of lines is a line feed or the last one of a line. -/
theorem lined_last (lines : List Text) (final : Nat)
    (h : ∀ line ∈ lines, ∀ c, line.getLast? = some c → c.utf8Size = 1) :
    ∀ c, (lined lines final).getLast? = some c → c.utf8Size = 1 := by
  have hfeeds : ∀ c, (List.replicate final '\n').getLast? = some c → c.utf8Size = 1 := fun c hc => by
    obtain rfl := List.eq_of_mem_replicate (List.mem_of_getLast? hc)
    rfl
  induction lines with
  | nil => exact hfeeds
  | cons line lines ih =>
    obtain ⟨hline, hlines⟩ := List.forall_mem_cons.mp h
    intro c hc
    cases lines with
    | nil =>
      rw [lined, Text.join, List.getLast?_append] at hc
      exact (Option.or_eq_some_iff.mp hc).elim (hfeeds c) fun hc => hline c hc.2
    | cons next more =>
      rw [lined_cons, List.getLast?_append, List.getLast?_cons, Option.some_or] at hc
      cases hlast : (lined (next :: more) final).getLast? with
      | none =>
        rw [hlast] at hc
        cases hc
        rfl
      | some d =>
        rw [hlast] at hc
        cases hc
        exact ih hlines d hlast

/-- The declarations one per line, and line feeds at the end of the text. -/
def classLines (heads : List ClassHead) (final : Nat) : Text :=
  Text.join ['\n'] (heads.map ClassHead.line) ++ List.replicate final '\n'

theorem classLines_single (head : ClassHead) (final : Nat) :
    classLines [head] final = head.text ++ '}' :: List.replicate final '\n' :=
  List.append_assoc ..

theorem classLines_cons (head next : ClassHead) (more : List ClassHead) (final : Nat) :
    classLines (head :: next :: more) final =
      head.text ++ ('}' :: ['\n'] ++ classLines (next :: more) final) :=
  (lined_cons _ _ (more.map ClassHead.line) final).trans (List.append_assoc ..)

theorem classLines_mem (heads : List ClassHead) (final : Nat) :
    ∀ c ∈ classLines heads final, isWord c = true ∨ c ∈ [' ', ',', '{', '}', '\n'] := by
  have hhead : ∀ head : ClassHead, ∀ c ∈ head.text, isWord c = true ∨ c ∈ [' ', ',', '{', '}', '\n'] := by
    intro head c hc
    have hc := head.text_mem c hc
    simp only [List.mem_cons]
    tauto
  have hend : ∀ c ∈ List.replicate final '\n', isWord c = true ∨ c ∈ [' ', ',', '{', '}', '\n'] := by
    intro c hc
    obtain rfl := List.eq_of_mem_replicate hc
    exact Or.inr (by decide)
  induction heads with
  | nil => exact hend
  | cons head heads ih =>
    cases heads with
    | nil =>
      rw [classLines_single]
      exact List.forall_mem_append.mpr ⟨hhead head, List.forall_mem_cons.mpr ⟨Or.inr (by decide), hend⟩⟩
    | cons next more =>
      rw [classLines_cons]
      have hbetween : ∀ c ∈ ['}', '\n'], c ∈ [' ', ',', '{', '}', '\n'] := Text.forall_mem _ (by decide)
      exact List.forall_mem_append.mpr
        ⟨hhead head, List.forall_mem_append.mpr ⟨fun c hc => Or.inr (hbetween c hc), ih⟩⟩

/-- The last character of a text of declarations is a brace or a line feed. -/
theorem classLines_last (heads : List ClassHead) (final : Nat) :
    ∀ c, (classLines heads final).getLast? = some c → c.utf8Size = 1 :=
  lined_last _ final (List.forall_mem_map.mpr fun head _ c hc => by
    rw [ClassHead.line, List.getLast?_concat] at hc
    cases hc
    rfl)

/-! ### Classes behind headers -/

/-- A class without anything in its body has no members. -/
theorem withMembers?_empty (t : Text) (lines : LineIndex) (start : Nat) (c : ClassDecl) :
    withMembers? t lines ⟨none, start, []⟩ c =
      some { c with constructors := [], methods := [], properties := [] } := by
  have hconstructors : constructorHeader.findAllFrom ⟨none, start, []⟩ = [] := found_end rfl rfl
  have hmethods : methodHeader.findAllFrom ⟨none, start, []⟩ = [] := found_end rfl rfl
  have hproperties : property.findAllFrom ⟨none, start, []⟩ = [] := found_end rfl rfl
  rw [withMembers?, hconstructors, hmethods, hproperties]
  rfl

/-! ### The scan -/

/-- The class of a header in front of a brace that closes it, and the classes that are found behind it. -/
theorem emptyClass_found (head : ClassHead) (fuel : Nat) (before rest : Text)
    (hbefore : before.getLast?.any isWord = false) :
    let t := before ++ (head.text ++ '}' :: rest)
    (classHeader.found fuel (t.start.after before (head.text ++ '}' :: rest))).mapM (classOf? t (.ofText t)) =
      ((classHeader.found fuel (t.start.after (before ++ head.text) ('}' :: rest))).mapM
        (classOf? t (.ofText t))).map (head.bare (before.count '\n' + 1) :: ·) := by
  intro t
  obtain ⟨header, hfound, hclass⟩ := class_found head fuel before [] rest hbefore (.nil 0)
  have hmade : classOf? t (.ofText t) header = some (head.bare (before.count '\n' + 1)) :=
    hclass.trans (withMembers?_empty t _ _ _)
  rw [show classHeader.found fuel (t.start.after before (head.text ++ '}' :: rest)) = _ from hfound,
    List.mapM_cons, hmade]
  dsimp only [List.nil_append]
  cases (classHeader.found fuel (t.start.after (before ++ head.text) ('}' :: rest))).mapM
    (classOf? t (.ofText t)) <;> rfl

/-- The classes behind the headers of a text of declarations, from one of them on. -/
theorem classes_found (heads : List ClassHead) (final fuel : Nat) (before : Text)
    (hbefore : before.getLast?.any isWord = false) :
    let t := before ++ classLines heads final
    (classHeader.found fuel (t.start.after before (classLines heads final))).mapM (classOf? t (.ofText t)) =
      some (heads.mapIdx fun i head => head.bare (before.count '\n' + (i + 1))) := by
  have hfeeds : ∀ c ∈ List.replicate final '\n', classHeader.mayBegin c = false := by
    intro c hc
    obtain rfl := List.eq_of_mem_replicate hc
    rfl
  induction heads generalizing before with
  | nil =>
    intro t
    have hnothing : classHeader.found fuel (t.start.after before (classLines [] final)) = [] :=
      found_eq_nil rfl _ hfeeds
    rw [hnothing]
    rfl
  | cons head heads ih =>
    cases heads with
    | nil =>
      rw [classLines_single]
      intro t
      have hnothing : classHeader.found fuel
          (t.start.after (before ++ head.text) ('}' :: List.replicate final '\n')) = [] :=
        found_eq_nil rfl _ (List.forall_mem_cons.mpr ⟨rfl, hfeeds⟩)
      rw [emptyClass_found head fuel before _ hbefore, hnothing]
      rfl
    | cons next more =>
      have hskip : ∀ c ∈ ['}', '\n'], classHeader.mayBegin c = false :=
        List.forall_mem_cons.mpr ⟨rfl, List.forall_mem_singleton.mpr rfl⟩
      have hlast : ((before ++ head.text) ++ ['}', '\n']).getLast?.any isWord = false := by
        rw [List.getLast?_append]
        rfl
      have hcount : ((before ++ head.text) ++ ['}', '\n']).count '\n' = before.count '\n' + 1 := by
        have hhead : head.text.count '\n' = 0 := List.count_eq_zero.mpr fun hmem => by
          obtain hword | h | h | h := head.text_mem _ hmem
          · exact absurd hword (by decide)
          · exact absurd h (by decide)
          · exact absurd h (by decide)
          · exact absurd h (by decide)
        rw [List.count_append, List.count_append, hhead]
        rfl
      have hrest := ih _ hlast
      rw [hcount, List.append_assoc, List.append_assoc] at hrest
      rw [classLines_cons]
      intro t
      have hfound := @found_skip_begin fuel classHeader rfl
        (t.start.after (before ++ head.text) (['}', '\n'] ++ classLines (next :: more) final)) _ _ rfl hskip
      rw [Cursor.after_after] at hfound
      refine (emptyClass_found head fuel before ('\n' :: classLines (next :: more) final) hbefore).trans ?_
      refine (congrArg (fun ms : List Match => (ms.mapM (classOf? t (.ofText t))).map _) hfound).trans ?_
      have hshift : (fun (i : Nat) (head : ClassHead) => head.bare (before.count '\n' + 1 + (i + 1))) =
          fun i head => head.bare (before.count '\n' + (i + 1 + 1)) :=
        funext fun i => funext fun head => by rw [Nat.add_assoc, Nat.add_comm 1]
      rw [hshift] at hrest
      refine (congrArg _ hrest).trans ?_
      simp only [Option.map_some, List.mapIdx_cons, Nat.zero_add]

/-! ### Descriptions -/

/-- Every import names its module between quotes. -/
theorem imports_eq_nil (t : Text) (lines : LineIndex) (h : '\'' ∉ t) (h' : '"' ∉ t) : imports t lines = [] := by
  have hquoted : ∀ label passed, (quoted label).Accepts passed → ∃ c ∈ passed, c ∉ t := by
    rintro label _ ⟨_, v, ⟨_, _, ⟨c, hc, rfl⟩, -, rfl⟩, -, rfl⟩
    refine ⟨c, List.mem_append_left v (List.mem_append_left _ (List.mem_singleton.mpr rfl)), ?_⟩
    obtain rfl | rfl : c = '\'' ∨ c = '"' := by simpa using hc
    · exact h
    · exact h'
  have hbehind : ∀ {r s : Regex}, (∀ passed, s.Accepts passed → ∃ c ∈ passed, c ∉ t) →
      ∀ passed, (r ++ s).Accepts passed → ∃ c ∈ passed, c ∉ t := by
    rintro r s hs _ ⟨u, v, -, hv, rfl⟩
    obtain ⟨c, hc, hnot⟩ := hs v hv
    exact ⟨c, List.mem_append_right u hc, hnot⟩
  have hbefore : ∀ {r s : Regex}, (∀ passed, r.Accepts passed → ∃ c ∈ passed, c ∉ t) →
      ∀ passed, (r ++ s).Accepts passed → ∃ c ∈ passed, c ∉ t := by
    rintro r s hr _ ⟨u, v, hu, -, rfl⟩
    obtain ⟨c, hc, hnot⟩ := hr u hu
    exact ⟨c, List.mem_append_left v hc, hnot⟩
  have hnamed : namedImport.findAll t = [] := findAllFrom_eq_nil _ _ (hbehind (hquoted 5))
  have hbare : bareImport.findAll t = [] := findAllFrom_eq_nil _ _ (hbehind (hquoted 1))
  have hrequired : requireCall.findAll t = [] :=
    findAllFrom_eq_nil _ _ (hbefore (hbefore (hbehind (hquoted 3))))
  simp only [imports, hnamed, hbare, hrequired, List.map_nil, List.append_nil, inSourceOrder,
    List.mergeSort_nil]

theorem classRelations_bare (path : String) (head : ClassHead) (line : Nat) :
    classRelations path (head.bare line) = head.relations path := by
  simp only [classRelations, ClassDecl.bases, ClassHead.bare, ClassHead.relations, List.append_nil,
    List.map_map]
  cases head.superclass <;> rfl

/-- A text of class declarations, one per line, is described by exactly these classes, without members, and
has exactly the edges of their headers. -/
theorem extract_class_lines (language : Language) (hlanguage : language ∈ JavaScript.ruleSet.languages)
    (heads : List ClassHead) (final : Nat) :
    ∃ d, Registry.standard.extract language (classLines heads final) = .ok d ∧
      d.classes = heads.mapIdx (fun i head => head.bare (i + 1)) ∧
      ∀ path, relationsOf path d = heads.flatMap (ClassHead.relations path) := by
  have hmem := classLines_mem heads final
  have hnot : ∀ q : Char, isWord q = false → q ∉ [' ', ',', '{', '}', '\n'] → q ∉ classLines heads final := by
    intro q hword hlisted hq
    obtain h | h := hmem q hq
    · rw [hword] at h
      cases h
    · exact hlisted h
  obtain ⟨d, hd⟩ := describe?_exists language (classLines heads final) (classLines_last heads final)
  obtain ⟨hclasses, himports⟩ := describe?_parts hd
  have hfound := classes_found heads final (classLines heads final).length [] rfl
  have hall : d.classes = heads.mapIdx fun i head => head.bare (i + 1) := by
    rw [findAll_eq_found] at hclasses
    refine Option.some.inj (hclasses.symm.trans (hfound.trans ?_))
    simp only [List.count_nil, Nat.zero_add]
  refine ⟨d, ?_, hall, fun path => ?_⟩
  · rw [extract_ruleSet hlanguage, hd]
    rfl
  · have hnone : d.imports = [] := by
      rw [himports]
      exact imports_eq_nil _ _ (hnot _ (by decide) (by decide)) (hnot _ (by decide) (by decide))
    have hedges : (heads.mapIdx fun i head => head.bare (i + 1)).map (classRelations path) =
        heads.map (ClassHead.relations path) := by
      refine List.ext_getElem (by simp) fun i _ _ => ?_
      rw [List.getElem_map, List.getElem_mapIdx, List.getElem_map, classRelations_bare]
    rw [relationsOf, hall, hnone, List.map_nil, List.append_nil, List.flatMap_def, hedges, List.flatMap_def]

/-- Names that are spelled like the words of the clauses. -/
theorem extract_class_lines_keywords :
    ∃ d, Registry.standard.extract .typeScript
        "class class extends extends implements implements, class \x7b\x7d\nclass implements \x7b\x7d".toList = .ok d ∧
      d.classes.map (fun c => (c.name, c.line, c.superclass, c.interfaces)) =
        [("class", 1, some "extends", ["implements", "class"]), ("implements", 2, none, [])] ∧
      (relationsOf "a.ts" d).map (fun r => (r.target, r.kind)) =
        [("extends", .inheritance), ("implements", .implementation), ("class", .implementation)] := by
  let first : Name := .ofString "class" (by decide)
  let second : Name := .ofString "implements" (by decide)
  obtain ⟨d, hd, hclasses, hedges⟩ := extract_class_lines .typeScript (by decide)
    [⟨first, some (.ofString "extends" (by decide)), [second, first]⟩, ⟨second, none, []⟩] 0
  refine ⟨d, hd, ?_, ?_⟩
  · rw [hclasses]
    rfl
  · rw [hedges]
    rfl

/-- A name with a dollar sign is no name for the header rule. -/
theorem extract_class_dollar :
    ∃ d, Registry.standard.extract .javaScript "class $A \x7b\x7d\n".toList = .ok d ∧ d.classes = [] := by
  obtain ⟨d, hd⟩ := describe?_exists .javaScript "class $A \x7b\x7d\n".toList fun c hc => by
    obtain rfl : '\n' = c := Option.some.inj hc
    rfl
  have hnothing : classHeader.findAll "class $A \x7b\x7d\n".toList = [] := by decide +kernel
  have hclasses := (describe?_parts hd).1
  rw [hnothing] at hclasses
  refine ⟨d, ?_, (Option.some.inj hclasses).symm⟩
  rw [extract_ruleSet (by decide), hd]
  rfl

end CodeIndex
