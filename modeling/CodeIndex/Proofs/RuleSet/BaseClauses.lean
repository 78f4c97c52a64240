import CodeIndex.Proofs.RuleSet.ClassHeader
import CodeIndex.Proofs.RuleSet.TriedHeaders
import CodeIndex.Proofs.Structure.PrintedParameter

/-!
# Base clauses of C++ classes

Each base of a class is a type behind words such as `public` and `virtual`. The clause is split at its commas
outside of template arguments, so there is one base for each; but of each base the rules keep what stands behind
its last white space, also where that stands between template arguments.
-/

namespace CodeIndex.Cpp

open Regex

/-! ### Last words -/

/-- What stands behind the last white space of a text. -/
def lastWord (t : Text) : Text :=
  (t.reverse.takeWhile fun c => !isBlank c).reverse

theorem lastWord_eq_self (t : Text) : lastWord t = t ↔ ∀ c ∈ t, isBlank c = false := by
  rw [lastWord, List.reverse_eq_iff, List.takeWhile_eq_self_iff]
  simp only [List.mem_reverse, Bool.not_eq_true']

theorem words_getLast? (front last : Text) (hne : last ≠ []) (hlast : ∀ c ∈ last, isBlank c = false)
    (hfront : ∀ c ∈ front.getLast?, isBlank c = true) : (front ++ last).words.getLast? = some last := by
  have hword : Text.words last = [last] := by
    rw [Text.words, splitOn_of_none isBlank last hlast,
      List.filter_cons_of_pos (by rw [List.isEmpty_eq_false_iff.mpr hne]; rfl)]
    rfl
  rcases List.eq_nil_or_concat front with rfl | ⟨before, c, rfl⟩
  · rw [List.nil_append, hword, List.getLast?_singleton]
  · rw [List.concat_eq_append] at hfront ⊢
    have hc : isBlank c = true := hfront c List.getLast?_concat
    rw [List.append_assoc, List.singleton_append, Text.words, splitOn_append isBlank before last c hc,
      List.filter_append, ← Text.words, ← Text.words, hword, List.getLast?_concat]

theorem lastWord_split (t : Text) :
    ∃ before : Text, t = before ++ lastWord t ∧ ∀ c ∈ before.getLast?, isBlank c = true := by
  refine ⟨(t.reverse.dropWhile fun c => !isBlank c).reverse, ?_, fun c hc => ?_⟩
  · rw [lastWord, ← List.reverse_append, List.takeWhile_append_dropWhile, List.reverse_reverse]
  · have hstop := List.head?_dropWhile_not (fun c => !isBlank c) t.reverse
    rw [List.getLast?_reverse] at hc
    rw [Option.mem_def.mp hc] at hstop
    simpa using hstop

/-- White space in front of a text and in it is passed over. -/
theorem words_lastWord (front t : Text) (hfront : ∀ c ∈ front.getLast?, isBlank c = true)
    (hlast : ∃ c, t.getLast? = some c ∧ isBlank c = false) : (front ++ t).words.getLast? = some (lastWord t) := by
  obtain ⟨c, hc, hblank⟩ := hlast
  obtain ⟨before, hsplit, hbefore⟩ := lastWord_split t
  have hplain : ∀ d ∈ lastWord t, isBlank d = false := fun d hd => by
    simpa using List.mem_takeWhile_imp (List.mem_reverse.mp hd)
  -- the text does not end in white space, so its last word is not empty
  have hne : lastWord t ≠ [] := fun hnil => by
    rw [hnil, List.append_nil] at hsplit
    rw [hbefore c (hsplit ▸ hc)] at hblank
    cases hblank
  have hwords := words_getLast? (front ++ before) (lastWord t) hne hplain fun d hd => by
    rw [List.getLast?_append, Option.mem_def, Option.or_eq_some_iff] at hd
    rcases hd with hd | ⟨-, hd⟩
    · exact hbefore d hd
    · exact hfront d hd
  rwa [List.append_assoc, ← hsplit] at hwords

/-! ### Bases -/

/-- The words that may stand in front of a base. -/
def accessWords : List String :=
  ["public", "protected", "private", "virtual"]

/-- A base: a qualified name with or without template arguments, behind some words. -/
structure BaseSource where
  access : List String
  name : Name
  qualified : List Name
  arguments : Option Text
  known : ∀ w ∈ access, w ∈ accessWords
  enclosed : ∀ a ∈ arguments, Text.Enclosed ('<' :: (a ++ ['>']))
  listed : ∀ a ∈ arguments, '{' ∉ a ∧ ';' ∉ a

namespace BaseSource

def front (base : BaseSource) : Text :=
  base.access.flatMap fun w => w.toList ++ [' ']

def nameText (base : BaseSource) : Text :=
  base.name.text ++ base.qualified.flatMap fun n => "::".toList ++ n.text

def argumentText (base : BaseSource) : Text :=
  base.arguments.elim [] fun a => '<' :: (a ++ ['>'])

/-- The type as it is written. -/
def type (base : BaseSource) : Text :=
  base.nameText ++ base.argumentText

def text (base : BaseSource) : Text :=
  base.front ++ base.type

/-! ### Characters of bases -/

/-- What stands in front of template arguments: words, spaces and colons. -/
def IsPlain (c : Char) : Prop :=
  isWord c = true ∨ c = ' ' ∨ c = ':'

theorem not_bracket_of_plain {c : Char} (h : IsPlain c) : isOpener c = false ∧ isCloser c = false ∧ c ≠ ',' := by
  rcases h with hword | rfl | rfl
  · have hne : ∀ d : Char, isWord d = false → (c == d) = false := fun d hd =>
      beq_eq_false_iff_ne.mpr (ne_of_isWord hword hd)
    refine ⟨?_, ?_, ne_of_isWord hword (by decide)⟩
    · simp only [isOpener, hne '(' (by decide), hne '[' (by decide), hne '{' (by decide), hne '<' (by decide),
        Bool.or_self]
    · simp only [isCloser, hne ')' (by decide), hne ']' (by decide), hne '}' (by decide), hne '>' (by decide),
        Bool.or_self]
  · decide
  · decide

theorem accessWords_word : ∀ w ∈ accessWords, w.toList ≠ [] ∧ w.toList.all isWord = true := by
  decide

variable (base : BaseSource)

theorem front_plain : ∀ c ∈ base.front, IsPlain c := by
  intro c hc
  obtain ⟨w, hw, hcw⟩ := List.mem_flatMap.mp hc
  obtain ⟨-, hword⟩ := accessWords_word w (base.known w hw)
  rcases List.mem_append.mp hcw with hcw | hcw
  · exact .inl (List.all_eq_true.mp hword c hcw)
  · exact .inr (.inl (List.mem_singleton.mp hcw))

theorem nameText_plain : ∀ c ∈ base.nameText, IsPlain c := by
  refine List.forall_mem_append.mpr ⟨fun c hc => .inl (base.name.word c hc), fun c hc => ?_⟩
  obtain ⟨n, -, hcn⟩ := List.mem_flatMap.mp hc
  rcases List.mem_append.mp hcn with hcn | hcn
  · exact .inr (.inr (by simpa using hcn))
  · exact .inl (n.word c hcn)

theorem type_last : ∃ c, base.type.getLast? = some c ∧ isBlank c = false := by
  rw [type, argumentText]
  cases base.arguments with
  | some a => exact ⟨'>', by rw [Option.elim_some, ← List.cons_append, ← List.append_assoc, List.getLast?_concat], rfl⟩
  | none =>
    rw [Option.elim_none, List.append_nil, nameText]
    have hlast : ∀ n : Name, ∃ c, n.text.getLast? = some c ∧ isBlank c = false := fun n =>
      ⟨_, List.getLast?_eq_some_getLast n.nonempty, n.not_blank _ (List.getLast_mem n.nonempty)⟩
    rcases List.eq_nil_or_concat base.qualified with hnil | ⟨before, n, hmore⟩
    · rw [hnil, List.flatMap_nil, List.append_nil]
      exact hlast base.name
    · obtain ⟨c, hc, hblank⟩ := hlast n
      refine ⟨c, ?_, hblank⟩
      rw [hmore, List.concat_eq_append, List.flatMap_append, List.flatMap_singleton, List.getLast?_append,
        List.getLast?_append, List.getLast?_append, hc]
      rfl

theorem text_first : ∃ c rest, base.text = c :: rest ∧ isBlank c = false := by
  rw [text, front]
  cases haccess : base.access with
  | nil =>
    obtain ⟨c, letters, hname, hc⟩ := base.name.exists_cons
    exact ⟨c, _, by rw [type, nameText, hname]; rfl, isBlank_eq_false hc⟩
  | cons w more =>
    obtain ⟨hne, hword⟩ := accessWords_word w (base.known w (haccess ▸ List.mem_cons_self))
    obtain ⟨c, letters, hletters⟩ := List.exists_cons_of_ne_nil hne
    have hc : isWord c = true := List.all_eq_true.mp hword c (hletters ▸ List.mem_cons_self)
    exact ⟨c, _, by rw [List.flatMap_cons, hletters]; rfl, isBlank_eq_false hc⟩

theorem text_last : ∃ c, base.text.getLast? = some c ∧ isBlank c = false := by
  obtain ⟨c, hc, hblank⟩ := base.type_last
  exact ⟨c, by rw [text, List.getLast?_append, hc, Option.some_or], hblank⟩

theorem text_enclosed : base.text.Enclosed := by
  have harguments : base.argumentText.Enclosed := by
    rw [argumentText]
    cases h : base.arguments with
    | none => exact Text.enclosed_of_plain [] (List.forall_mem_nil _)
    | some a => exact base.enclosed a h
  have hfront := Text.enclosed_of_plain _ fun c hc => not_bracket_of_plain (base.front_plain c hc)
  have hname := Text.enclosed_of_plain _ fun c hc => not_bracket_of_plain (base.nameText_plain c hc)
  exact hfront.append (hname.append harguments)

theorem text_isClause : base.text.IsClause := by
  obtain ⟨first, rest, htext, hfirst⟩ := base.text_first
  obtain ⟨last, hlast, hblank⟩ := base.text_last
  refine ⟨base.text_enclosed, (Text.trim_eq_self _).mpr ⟨fun c hc => ?_, fun c hc => ?_⟩, ?_⟩
  · rw [htext] at hc
    obtain rfl := Option.some.inj hc
    exact hfirst
  · rw [hlast] at hc
    obtain rfl := Option.some.inj hc
    exact hblank
  · rw [htext]
    exact List.cons_ne_nil first rest

theorem text_listed : '{' ∉ base.text ∧ ';' ∉ base.text := by
  have hplain : ∀ d : Char, ¬IsPlain d → d ≠ '<' → d ≠ '>' → (∀ a ∈ base.arguments, d ∉ a) → d ∉ base.text := by
    intro d hd hopen hclose harguments hin
    rcases List.mem_append.mp hin with hin | hin
    · exact hd (base.front_plain d hin)
    rcases List.mem_append.mp hin with hin | hin
    · exact hd (base.nameText_plain d hin)
    rw [argumentText] at hin
    cases h : base.arguments with
    | none =>
      rw [h] at hin
      exact List.not_mem_nil hin
    | some a =>
      rw [h] at hin
      rcases List.mem_cons.mp hin with rfl | hin
      · exact hopen rfl
      rcases List.mem_append.mp hin with hin | hin
      · exact harguments a h hin
      · exact hclose (List.mem_singleton.mp hin)
  exact ⟨hplain '{' (by unfold IsPlain; decide) (by decide) (by decide) fun a ha => (base.listed a ha).1,
    hplain ';' (by unfold IsPlain; decide) (by decide) (by decide) fun a ha => (base.listed a ha).2⟩

theorem front_getLast : ∀ c ∈ base.front.getLast?, isBlank c = true := by
  intro c hc
  rw [front] at hc
  rcases List.eq_nil_or_concat base.access with hnil | ⟨before, w, hmore⟩
  · rw [hnil] at hc
    cases hc
  · rw [hmore, List.concat_eq_append, List.flatMap_append, List.flatMap_singleton, ← List.append_assoc,
      List.getLast?_concat] at hc
    obtain rfl := Option.some.inj hc
    rfl

end BaseSource

theorem baseTypes?_bases (bases : List BaseSource) :
    baseTypes? (Text.join ", ".toList (bases.map BaseSource.text)) =
      some (bases.map fun base => String.ofList (lastWord base.type)) := by
  have hclauses : ∀ t ∈ bases.map BaseSource.text, t.IsClause := by
    intro t ht
    obtain ⟨base, -, rfl⟩ := List.mem_map.mp ht
    exact base.text_isClause
  rw [baseTypes?, splitTopLevel?_eq, splitTopLevel_clauses _ hclauses, Option.map_some, List.filterMap_map,
    ← List.filterMap_eq_map]
  refine congrArg some (List.filterMap_congr fun base _ => ?_)
  exact congrArg (Option.map String.ofList) (words_lastWord base.front base.type base.front_getLast base.type_last)

/-! ### Joined bases -/

theorem mem_join {separator : Text} {list : List Text} {c : Char} (h : c ∈ Text.join separator list) :
    c ∈ separator ∨ ∃ t ∈ list, c ∈ t := by
  induction list with
  | nil => cases h
  | cons t more ih =>
    cases more with
    | nil => exact .inr ⟨t, List.mem_cons_self, h⟩
    | cons next more =>
      rw [Text.join_cons, List.mem_append, List.mem_append] at h
      rcases h with h | h | h
      · exact .inr ⟨t, List.mem_cons_self, h⟩
      · exact .inl h
      · exact (ih h).imp_right fun ⟨u, hu, hc⟩ => ⟨u, List.mem_cons_of_mem t hu, hc⟩

theorem join_ends (separator : Text) (list : List Text) (hne : list ≠ []) :
    (∃ t ∈ list, t <+: Text.join separator list) ∧ ∃ t ∈ list, t <:+ Text.join separator list := by
  induction list with
  | nil => exact absurd rfl hne
  | cons t more ih =>
    cases more with
    | nil => exact ⟨⟨t, List.mem_cons_self, List.prefix_rfl⟩, t, List.mem_cons_self, List.suffix_rfl⟩
    | cons next more =>
      obtain ⟨-, last, hlast, hsuffix⟩ := ih (List.cons_ne_nil next more)
      rw [Text.join_cons]
      refine ⟨⟨t, List.mem_cons_self, List.prefix_append _ _⟩, last, List.mem_cons_of_mem t hlast, ?_⟩
      exact hsuffix.trans ((List.suffix_append _ _).trans (List.suffix_append _ _))

/-- The bases of a class as they are written. -/
def joinedBases (bases : List BaseSource) : Text :=
  Text.join ", ".toList (bases.map BaseSource.text)

section

variable (bases : List BaseSource)

theorem joinedBases_first (hne : bases ≠ []) : ∃ c rest, joinedBases bases = c :: rest ∧ isBlank c = false := by
  obtain ⟨⟨t, ht, more, hmore⟩, -⟩ := join_ends ", ".toList (bases.map BaseSource.text) (by simpa using hne)
  obtain ⟨base, -, rfl⟩ := List.mem_map.mp ht
  obtain ⟨c, rest, htext, hc⟩ := base.text_first
  exact ⟨c, rest ++ more, by rw [joinedBases, ← hmore, htext, List.cons_append], hc⟩

theorem joinedBases_last (hne : bases ≠ []) : ∃ c, (joinedBases bases).getLast? = some c ∧ isBlank c = false := by
  obtain ⟨-, t, ht, more, hmore⟩ := join_ends ", ".toList (bases.map BaseSource.text) (by simpa using hne)
  obtain ⟨base, -, rfl⟩ := List.mem_map.mp ht
  obtain ⟨c, hc, hblank⟩ := base.text_last
  exact ⟨c, by rw [joinedBases, ← hmore, List.getLast?_append, hc, Option.some_or], hblank⟩

theorem joinedBases_listed : '{' ∉ joinedBases bases ∧ ';' ∉ joinedBases bases := by
  have hnot : ∀ d : Char, d ∉ ", ".toList → (∀ base : BaseSource, d ∉ base.text) → d ∉ joinedBases bases := by
    intro d hd hbase hin
    obtain hin | ⟨t, ht, hin⟩ := mem_join hin
    · exact hd hin
    · obtain ⟨base, -, rfl⟩ := List.mem_map.mp ht
      exact hbase base hin
  exact ⟨hnot '{' (by decide) fun base => base.text_listed.1, hnot ';' (by decide) fun base => base.text_listed.2⟩

end

/-! ### Headers -/

/-- A class header with bases, behind a template clause or none. -/
structure BaseHead where
  template : Option Text
  name : Name
  bases : List BaseSource
  closed : ∀ parameters ∈ template, '>' ∉ parameters
  listed : bases ≠ []

def templateText (template : Option Text) : Text :=
  template.elim [] fun parameters => "template".toList ++ ([' '] ++ ((['<'] ++ parameters ++ ['>']) ++ [' ']))

def basesText (bases : List BaseSource) : Text :=
  ([' '] ++ [':'] ++ [' ']) ++ (joinedBases bases ++ " \x7b".toList)

namespace BaseHead

def text (head : BaseHead) : Text :=
  templateText head.template ++ ("class".toList ++ ([' '] ++ (head.name.text ++ basesText head.bases)))

theorem text_eq (head : BaseHead) :
    head.text = templateText head.template ++ "class".toList ++ [' '] ++ head.name.text ++ basesText head.bases := by
  simp only [text, List.append_assoc]

/-- What the groups of a match hold of a header. -/
structure Held (head : BaseHead) (groups : List (Nat × Span)) : Prop where
  name : (groups.lookup 3).map Span.text = some head.name.text
  bases : (groups.lookup 5).map Span.text = some (joinedBases head.bases)

end BaseHead

variable {fuel : Nat} {p : Cursor}

theorem template_takes (template : Option Text) (hclosed : ∀ parameters ∈ template, '>' ∉ parameters) {rest : Text}
    (h : p.rest = templateText template ++ 'c' :: rest) (hbefore : p.before.any isWord = false) :
    ∃ added, (opt (.group 1 (lit "template" ++ blanks ++ enclosed '<' '>' ++ blanks)) ++ edge).Takes fuel p
      (templateText template) ('c' :: rest) added ∧ added.lookup 5 = none := by
  have hedge : ∀ q : Cursor, q.before.any isWord = false → q.rest = 'c' :: rest →
      edge.Takes fuel q [] ('c' :: rest) [] := by
    intro q hq hrest
    refine takes_anchor ?_ hrest
    rw [Anchor.holds, hq, hrest]
    rfl
  cases template with
  | none =>
    rw [templateText, Option.elim_none, List.nil_append] at h
    have hnone : (lit "template").Refuses fuel p := refuses_at h rfl rfl
    have hgroup := (((hnone.seq blanks).seq (enclosed '<' '>')).seq blanks).group 1
    exact ⟨_, (hgroup.takes_opt h).nothing_nothing (hedge p hbefore h), rfl⟩
  | some parameters =>
    have hclause : ∀ q : Cursor, q.rest = ['<'] ++ parameters ++ ['>'] ++ ([' '] ++ 'c' :: rest) →
        (enclosed '<' '>').Takes fuel q (['<'] ++ parameters ++ ['>']) ([' '] ++ 'c' :: rest) [] :=
      fun q hq => takes_enclosed hq (hclosed parameters rfl)
    obtain ⟨clause, hparts⟩ : ∃ clause : Text, ['<'] ++ parameters ++ ['>'] = clause := ⟨_, rfl⟩
    obtain ⟨more, hfirst⟩ : ∃ more : Text, clause = '<' :: more := ⟨_, hparts.symm⟩
    rw [templateText, Option.elim_some] at h ⊢
    rw [hparts, hfirst] at h hclause ⊢
    simp only [List.append_assoc] at h
    have hword := (@takes_lit fuel p _ _ h).seq (takes_one_blank rfl rfl)
    have hgroup := (((hword.seq (hclause _ rfl)).seq (takes_one_blank rfl rfl)).group 1).opt
    have hbehind : (p.after ("template".toList ++ [' '] ++ ('<' :: more) ++ [' ']) ('c' :: rest)).before.any isWord =
        false := by
      rw [Cursor.after, List.getLast?_concat]
      rfl
    have hall := hgroup.seq_nothing (hedge _ hbehind rfl)
    rw [List.append_assoc _ _ [' '], List.append_assoc _ [' ']] at hall
    exact ⟨_, hall, rfl⟩

theorem bases_take (bases : List BaseSource) (hne : bases ≠ []) {rest : Text} (h : p.rest = basesText bases ++ rest) :
    ∃ added, (opt (.group 4 (blanks1 ++ lit "final"))
        ++ (opt (blanks ++ char ':' ++ blanks ++ .group 5 (few1 (noneOf ['{', ';']))) ++ (blanks ++ char '{'))).Takes
          fuel p (basesText bases) rest added ∧ Carries 5 added (some (joinedBases bases)) := by
  obtain ⟨first, more, hfirst, hblank⟩ := joinedBases_first bases hne
  obtain ⟨last, hlast, hend⟩ := joinedBases_last bases hne
  obtain ⟨hbrace, hsemicolon⟩ := joinedBases_listed bases
  have haccepts : ∀ c ∈ joinedBases bases, noneOf ['{', ';'] c = true := by
    intro c hc
    have hopen : c ≠ '{' := fun he => hbrace (he ▸ hc)
    have hclose : c ≠ ';' := fun he => hsemicolon (he ▸ hc)
    simp [noneOf, hopen, hclose]
  have hfinal : (blanks1 ++ lit "final").Refuses fuel p :=
    JavaScript.clause_refuses rfl rfl h rfl (by decide)
  have hnofinal := (hfinal.group 4).takes_opt h
  rw [basesText] at h hnofinal ⊢
  rw [List.append_assoc, List.append_assoc, List.append_assoc] at h
  have hcolon := (@takes_one_blank fuel p _ _ h rfl).seq (takes_char (c := ':') rfl)
  have hspace : ∀ q : Cursor, q.rest = [' '] ++ (joinedBases bases ++ " \x7b".toList ++ rest) →
      blanks.Takes fuel q [' '] (joinedBases bases ++ " \x7b".toList ++ rest) [] := by
    intro q hq
    rw [hfirst] at hq ⊢
    exact takes_one_blank hq hblank
  have hlisted := (hcolon.seq (hspace _ rfl)).seq (takes_listed 5 (List.append_assoc ..) hlast hend haccepts
    hbrace)
  exact ⟨_, hnofinal.nothing_seq (Takes.opt_seq hlisted.assoc), _, rfl, Cursor.span_text (List.append_assoc ..)⟩

theorem classHeader_takes (head : BaseHead) {rest : Text} (h : p.rest = head.text ++ rest)
    (hbefore : p.before.any isWord = false) :
    ∃ groups, classHeader.Takes fuel p head.text rest groups ∧ head.Held groups := by
  rw [head.text_eq] at h ⊢
  simp only [List.append_assoc] at h
  obtain ⟨template, htemplate, hnone⟩ := @template_takes fuel p head.template head.closed _ h hbefore
  have hkeyword := htemplate.seq (((takes_lit (s := "class") rfl).alt (s := words ["struct"])).group 2)
  have hnamed := (hkeyword.seq (takes_space_name head.name rfl)).seq ((takes_name head.name rfl rfl).group 3)
  obtain ⟨added, hbases, hcarries⟩ := @bases_take fuel _ head.bases head.listed rest
    (Cursor.after_rest _ _ _)
  have hall := hnamed.seq hbases
  refine ⟨_, ⟨hall.ahead, hall.prefers⟩, ?_⟩
  exact
    { name := by
        rw [hcarries.lookup_of_ne _ (by decide)]
        exact congrArg some (Cursor.span_text rfl)
      bases := hcarries.lookup _ hnone }

/-! ### Classes -/

theorem withMembers?_header {t : Text} {lines : LineIndex} {body : Cursor} {default : Visibility} {c c' : ClassDecl}
    (h : withMembers? t lines body default c = some c') :
    c'.name = c.name ∧ c'.line = c.line ∧ c'.superclass = c.superclass ∧ c'.bases = c.bases := by
  simp only [withMembers?, Option.bind_eq_bind, Option.bind_eq_some_iff] at h
  obtain ⟨constructors, -, methods, -, h⟩ := h
  cases h
  exact ⟨rfl, rfl, rfl, rfl⟩

theorem BaseHead.class_bases (head : BaseHead) {t : Text} {header : Match} {c : ClassDecl}
    (hheld : head.Held header.groups) (h : (maskedBody? t header).bind (classWith? t header) = some c) :
    c.name = head.name.string ∧ c.line = (LineIndex.ofText t).lineNumber header.start.offset ∧
      c.superclass = c.bases.head? ∧ c.bases = head.bases.map fun base => String.ofList (lastWord base.type) := by
  simp only [classWith?, Option.bind_eq_bind, Option.bind_eq_some_iff] at h
  obtain ⟨body, -, bases, hbases, h⟩ := h
  have hgroup : header.group 5 = joinedBases head.bases := by
    rw [Match.group, Match.group?, Match.span?, hheld.bases, Option.getD_some]
  have hname : header.string 3 = head.name.string := by
    rw [Match.string, Match.group, Match.group?, Match.span?, hheld.name]
    rfl
  rw [hgroup, joinedBases, baseTypes?_bases] at hbases
  obtain rfl := Option.some.inj hbases
  obtain ⟨hnamed, hline, hfirst, hall⟩ := withMembers?_header h
  have hlisted : c.bases = head.bases.map fun base => String.ofList (lastWord base.type) := by
    rw [hall, ClassDecl.bases]
    cases head.bases <;> rfl
  exact ⟨hnamed.trans hname, hline, by rw [hlisted, hfirst], hlisted⟩

end CodeIndex.Cpp

namespace CodeIndex

open Cpp Regex

/-- The bases of a C++ class are found one by one, and of each the class reports what stands behind its last white
space. So it reports the types as they are written just where no type has white space in it. -/
theorem extract_base_types {language : Language} (hlanguage : language ∈ Cpp.ruleSet.languages) (head : BaseHead)
    (before rest : Text) (hbefore : before.getLast?.any isWord = false)
    (htried : Cpp.classHeader.TriesAt before (head.text ++ rest))
    (hcuts : ¬language.Cuts (before ++ (head.text ++ rest))) :
    ∃ d, Registry.standard.extract language (before ++ (head.text ++ rest)) = .ok d ∧
      ∃ c ∈ d.classes, c.name = head.name.string ∧ c.line = .ofNat (before.count '\n' + 1) ∧
        c.superclass = c.bases.head? ∧ c.bases = head.bases.map (fun base => String.ofList (lastWord base.type)) ∧
        (c.bases = head.bases.map (fun base => String.ofList base.type) ↔
          ∀ base ∈ head.bases, ∀ d ∈ base.type, isBlank d = false) := by
  obtain ⟨rules, hheader, hclass, hbraces⟩ : ∃ rules : BraceRules language, rules.classHeader = Cpp.classHeader ∧
      rules.classWith? = Cpp.classWith? ∧ language ∈ [.javaScript, .typeScript, .c, .cpp, .java] := by
    obtain rfl | rfl : language = .cpp ∨ language = .c := by simpa [Cpp.ruleSet] using hlanguage
    · exact ⟨Cpp.rules .cpp (fun _ => rfl) fun _ => rfl, rfl, rfl, by decide⟩
    · exact ⟨Cpp.rules .c (fun _ => rfl) fun _ => rfl, rfl, rfl, by decide⟩
  rw [← hheader] at htried
  obtain ⟨groups, htakes, hheld⟩ := @Cpp.classHeader_takes (before ++ (head.text ++ rest)).length
    ((before ++ (head.text ++ rest)).start.after before (head.text ++ rest)) head rest rfl
    (by rw [start_after_before, hbefore])
  rw [← hheader] at htakes
  obtain ⟨d, hd, c, hc, hfound⟩ := rules.class_at hbraces htried htakes hcuts
  rw [hclass] at hfound
  obtain ⟨hname, hline, hfirst, hbases⟩ := head.class_bases hheld hfound
  refine ⟨d, hd, c, hc, hname, hline.trans (lineNumber_start_after before _), hfirst, hbases, ?_⟩
  rw [hbases, List.map_inj_left]
  refine forall₂_congr fun base _ => ?_
  rw [String.ofList_inj, lastWord_eq_self]

/-- `class N : public B<A, C>, virtual std::D<E>` behind a template clause -/
def templateHead : BaseHead where
  template := some "typename T".toList
  name := .ofString "N" (by decide)
  bases :=
    [⟨["public"], .ofString "B" (by decide), [], some "A, C".toList, by decide, by decide, by decide⟩,
      ⟨["virtual"], .ofString "std" (by decide), [.ofString "D" (by decide)], some "E".toList, by decide, by decide,
        by decide⟩]
  closed := by decide
  listed := List.cons_ne_nil _ _

theorem extract_base_types_template :
    ∃ d, Registry.standard.extract .cpp
        "template <typename T> class N : public B<A, C>, virtual std::D<E> \x7b\x7d;".toList = .ok d ∧
      ∃ c ∈ d.classes, c.bases = ["C>", "std::D<E>"] := by
  obtain ⟨d, hd, c, hc, -, -, -, hbases, -⟩ := extract_base_types (by decide : Language.cpp ∈ _) templateHead []
    "\x7d;".toList rfl (by decide +kernel) (Language.not_cuts (c := ';') rfl rfl)
  exact ⟨d, hd, c, hc, hbases⟩

/-- A base with a space between its template arguments is not reported as it is written. -/
theorem extract_base_types_cut :
    (templateHead.bases.map fun base => String.ofList base.type) = ["B<A, C>", "std::D<E>"] ∧
      (Registry.standard.extract .cpp (templateHead.text ++ "\x7d;".toList)).map
        (fun d => d.classes.map (·.bases)) = .ok [["C>", "std::D<E>"]] := by
  refine ⟨rfl, ?_⟩
  decide +kernel

end CodeIndex
