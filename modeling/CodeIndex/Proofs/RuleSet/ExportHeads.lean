import CodeIndex.Proofs.Regex.Names
import CodeIndex.Proofs.Regex.Ways
import CodeIndex.RuleSet.JavaScript

/-!
# Exported declarations

What the class and function rules read of a declaration behind the word `export`, up to its name. Each of these
rules has its own modifiers, so the forms are listed one by one.
-/

namespace CodeIndex.JavaScript

open Regex

/-! ### Forms -/

/-- White space, at least one character of it. -/
structure Space extends Gap where
  nonempty : text ≠ []

/-- A word in front of white space, or nothing. -/
def optional (word : String) : Option Space → Text
  | none => []
  | some space => word.toList ++ space.text

/-- What stands between the word `export` and the name of a declaration. -/
inductive ExportedHead where
  | class_ (default_ abstract_ : Option Space) (gap : Space)
  | function (default_ async_ : Option Space) (gap : Space)
  | generator (default_ async_ : Option Space) (before behind : Gap)
  | held (keyword : String) (known : keyword ∈ ["const", "let", "var"]) (gap : Space)

namespace ExportedHead

def text : ExportedHead → Text
  | .class_ default_ abstract_ gap =>
    optional "default" default_ ++ (optional "abstract" abstract_ ++ ("class".toList ++ gap.text))
  | .function default_ async_ gap =>
    optional "default" default_ ++ (optional "async" async_ ++ ("function".toList ++ gap.text))
  | .generator default_ async_ before behind =>
    optional "default" default_ ++ (optional "async" async_ ++ ("function".toList ++ (before.text ++ (['*']
      ++ behind.text))))
  | .held keyword _ gap => keyword.toList ++ gap.text

def default_ : ExportedHead → Option Space
  | .class_ default_ .. | .function default_ .. | .generator default_ .. => default_
  | .held .. => none

def isClass : ExportedHead → Bool
  | .class_ .. => true
  | _ => false

end ExportedHead

/-- An exported declaration up to its name. -/
structure ExportedName where
  gap : Space
  head : ExportedHead
  name : Name

def ExportedName.text (s : ExportedName) : Text :=
  "export".toList ++ (s.gap.text ++ (s.head.text ++ s.name.text))

theorem ExportedName.text_eq (s : ExportedName) :
    s.text = "export".toList ++ (s.gap.text ++ (s.head.text ++ s.name.text)) := rfl

/-- Whether an exported declaration stands at a place, with its whole name. -/
structure ExportedName.StandsAt (s : ExportedName) (p : Cursor) (rest : Text) : Prop where
  ahead : p.rest = s.text ++ rest
  edge : p.before.any isWord = false
  ends : rest.head?.any isWord = false

/-! ### Ways over words and white space -/

variable {p : Cursor} {passed rest : Text} {added : List (Nat × Span)}

theorem way_blanks (h : blanks.Way p passed rest added) : ∃ gap : Gap, passed = gap.text ∧ added = [] :=
  ⟨⟨passed, h.1⟩, rfl, h.2⟩

theorem way_some1 {accepts : Char → Bool} (h : (some1 accepts).Way p passed rest added) :
    passed ≠ [] ∧ (∀ c ∈ passed, accepts c = true) ∧ added = [] := by
  obtain ⟨hne, hall⟩ := (accepts_some1 accepts passed).mp h.accepts
  obtain ⟨_, _, _, _, -, rfl, hone, hrun⟩ := h
  exact ⟨hne, hall, by rw [hone.2, hrun.2]; rfl⟩

theorem way_blanks1 (h : blanks1.Way p passed rest added) : ∃ space : Space, passed = space.text ∧ added = [] := by
  obtain ⟨hne, hall, hadded⟩ := way_some1 h
  exact ⟨⟨⟨passed, hall⟩, hne⟩, rfl, hadded⟩

theorem way_word (h : word.Way p passed rest added) : ∃ n : Name, passed = n.text ∧ added = [] := by
  obtain ⟨hne, hall, hadded⟩ := way_some1 h
  exact ⟨⟨passed, hne, hall⟩, rfl, hadded⟩

theorem way_optional {word : String} (h : (opt (lit word ++ blanks1)).Way p passed rest added) :
    ∃ o : Option Space, passed = optional word o ∧ added = [] := by
  rcases h with ⟨_, _, _, _, rfl, rfl, ⟨rfl, rfl⟩, hblanks⟩ | ⟨rfl, rfl⟩
  · obtain ⟨space, rfl, rfl⟩ := way_blanks1 hblanks
    exact ⟨some space, rfl, rfl⟩
  · exact ⟨none, rfl, rfl⟩

theorem way_edge_optional {word : String} (h : (edge ++ (lit word ++ blanks1)).Way p passed rest added) :
    ∃ space : Space, passed = word.toList ++ space.text ∧ added = [] ∧ Anchor.wordBoundary.holds p = true := by
  obtain ⟨_, _, _, _, rfl, rfl, ⟨rfl, rfl, hedge⟩, _, _, _, _, rfl, rfl, ⟨rfl, rfl⟩, hblanks⟩ := h
  obtain ⟨space, rfl, rfl⟩ := way_blanks1 hblanks
  exact ⟨space, rfl, rfl, hedge⟩

theorem way_star (h : (opt (char '*')).Way p passed rest added) :
    (passed = [] ∨ passed = ['*']) ∧ added = [] := by
  rcases h with ⟨⟨_, hc, rfl⟩, rfl⟩ | ⟨rfl, rfl⟩
  · obtain rfl := beq_iff_eq.mp hc
    exact ⟨Or.inr rfl, rfl⟩
  · exact ⟨Or.inl rfl, rfl⟩

theorem way_words {list : List String} (h : (words list).Way p passed rest added) :
    ∃ word ∈ list, passed = word.toList ∧ added = [] := by
  induction list with
  | nil =>
    obtain ⟨⟨_, hnone, -⟩, -⟩ := h
    cases hnone
  | cons first more ih =>
    cases more with
    | nil => exact ⟨first, List.mem_cons_self, h⟩
    | cons second more =>
      rcases h with h | h
      · exact ⟨first, List.mem_cons_self, h⟩
      · obtain ⟨word, hword, hway⟩ := ih h
        exact ⟨word, List.mem_cons_of_mem first hword, hway⟩

theorem edge_before {c : Char} (h : Anchor.wordBoundary.holds p = true) (hrest : p.rest = c :: rest)
    (hc : isWord c = true) : p.before.any isWord = false := by
  rw [Anchor.holds, hrest, List.head?_cons, Option.any_some, hc] at h
  simpa using h

theorem edge_behind (h : Anchor.wordBoundary.holds p = true) (hbefore : p.before.any isWord = true) :
    p.rest.head?.any isWord = false := by
  rw [Anchor.holds, hbefore] at h
  simpa using h

/-! ### Names in front of something else -/

/-- Where something else than a word is to follow the name, a match holds the whole name that stands behind what
its front passed. -/
theorem matchAt?_named {fuel label : Nat} {front tail : Regex} {m : Match}
    (h : (front ++ (Regex.group label word ++ tail)).matchAt? fuel p = some m)
    (hsome : tail.mayPassNothing = false) (hbegin : tail.BeginsIn (isWord · = false))
    (hlabel : label ∉ tail.labels) :
    ∃ (passed rest more : Text) (n : Name) (added : List (Nat × Span)),
      p.rest = passed ++ (n.text ++ rest) ∧ rest.head?.any isWord = false ∧
      front.Way p passed (n.text ++ rest) added ∧ m.text = passed ++ more ∧ m.group label = n.text ∧
      ∀ other, other ≠ label → other ∉ tail.labels → m.span? other = added.lookup other := by
  obtain ⟨text, hrest, hstop, hway⟩ := matchAt?_way h
  obtain ⟨passed, _, added, _, rfl, hgroups, hfront, hway⟩ := hway
  obtain ⟨_, behind, _, later, rfl, rfl, ⟨_, rfl, hname⟩, htail⟩ := hway
  obtain ⟨n, rfl, rfl⟩ := way_word hname
  rw [List.append_assoc] at hrest
  refine ⟨passed, behind ++ m.stop.rest, n.text ++ behind, n, added, by rw [hrest, List.append_assoc], ?_, ?_, ?_,
    ?_, ?_⟩
  · cases behind with
    | nil =>
      rw [mayPassNothing_of_accepts tail htail.accepts] at hsome
      cases hsome
    | cons c behind => exact hbegin c (mayBegin_of_accepts tail c behind htail.accepts)
  · rw [List.append_assoc] at hfront
    exact hfront
  · have hstart := (matchAt?_liesBehind _ fuel p m h).1
    rw [Match.text, hstart, hstop, Cursor.after_offset, Nat.add_sub_cancel_left, hrest, ← List.append_assoc,
      ← List.append_assoc, Text.takeBytes_width, List.append_assoc]
  · rw [Match.group, Match.group?, Match.span?, hgroups, List.append_assoc, htail.lookup hlabel,
      List.singleton_append, List.lookup_cons_self]
    exact Cursor.span_text (by rw [Cursor.after_rest, List.append_assoc])
  · intro other hne hother
    rw [Match.span?, hgroups, List.append_assoc, htail.lookup hother, List.singleton_append,
      List.lookup_cons, beq_false_of_ne hne]

theorem beginsIn_blanks : blanks.BeginsIn (isWord · = false) := fun _ hc =>
  isWord_eq_false hc

theorem beginsIn_char {d : Char} (hd : isWord d = false) : (char d).BeginsIn (isWord · = false) := fun c hc => by
  obtain rfl := beq_iff_eq.mp hc
  exact hd

theorem beginsIn_blanks1 (r : Regex) : (blanks1 ++ r).BeginsIn (isWord · = false) :=
  BeginsIn.seq_of_some (fun c hc => beginsIn_blanks c (by rwa [blanks1, mayBegin_some1] at hc)) rfl r

/-! ### Class headers -/

/-- What follows the name in a class header. -/
def classTail : Regex :=
  opt typeArguments
    ++ (opt (blanks1 ++ (lit "extends" ++ blanks1 ++ .group 2 (some1 (wordOr ['.'])) ++ opt typeArguments))
    ++ (opt (blanks1 ++ (lit "implements" ++ blanks1 ++ .group 3 (few1 fun c => wordOr [','] c || isBlank c)))
    ++ (blanks ++ char '{')))

theorem classTail_begins : classTail.BeginsIn (isWord · = false) := by
  have harguments : typeArguments.BeginsIn (isWord · = false) :=
    ((beginsIn_blanks.seq (beginsIn_char rfl)).seq_of_some rfl _).seq_of_some rfl _
  have hbrace : (blanks ++ char '{').BeginsIn (isWord · = false) := beginsIn_blanks.seq (beginsIn_char rfl)
  exact harguments.opt.seq ((beginsIn_blanks1 _).opt.seq ((beginsIn_blanks1 _).opt.seq hbrace))

theorem not_startsWith {c d : Char} {t needle : Text} (hc : isBlank c = false) (hd : (d == c) = false) :
    Text.startsWith (Text.trimStart (c :: t)) (d :: needle) = false := by
  rw [Text.trimStart, List.dropWhile_cons_of_neg (by rw [hc]; decide), Text.startsWith, Text.dropStart?, hd]
  rfl

/-- A class with the attribute of an export stands behind that word. -/
theorem classHeader_stands {fuel : Nat} {m : Match} (h : classHeader.matchAt? fuel p = some m)
    (hexported : m.text.trimStart.startsWith "export".toList = true) :
    ∃ s : ExportedName, ∃ rest, s.StandsAt p rest ∧ s.head.isClass = true ∧ m.group 1 = s.name.text := by
  have hnested : ((opt (edge ++ (lit "export" ++ blanks1)) ++ (opt (lit "default" ++ blanks1)
      ++ (opt (lit "abstract" ++ blanks1) ++ (edge ++ (lit "class" ++ blanks1))))) ++ (Regex.group 1 word
        ++ classTail)).matchAt? fuel p = some m := h
  obtain ⟨_, rest, more, name, _, hrest, hends, hfront, htext, hname, -⟩ :=
    matchAt?_named hnested rfl classTail_begins (by decide)
  obtain ⟨_, _, _, _, rfl, rfl, hexport, _, _, _, _, rfl, rfl, hdefault, _, _, _, _, rfl, rfl, habstract, _, _, _, _,
    rfl, rfl, ⟨rfl, rfl, -⟩, _, _, _, _, rfl, rfl, ⟨rfl, rfl⟩, hblanks⟩ := hfront
  obtain ⟨default_, rfl, rfl⟩ := way_optional hdefault
  obtain ⟨abstract_, rfl, rfl⟩ := way_optional habstract
  obtain ⟨gap, rfl, rfl⟩ := way_blanks1 hblanks
  rcases hexport with hexport | ⟨rfl, rfl⟩
  · obtain ⟨space, rfl, rfl, hedge⟩ := way_edge_optional hexport
    refine ⟨⟨space, .class_ default_ abstract_ gap, name⟩, rest, ⟨?_, edge_before hedge hrest rfl, hends⟩, rfl, hname⟩
    simp only [hrest, ExportedName.text_eq, ExportedHead.text, List.append_assoc, List.nil_append]
  · have hnot : m.text.trimStart.startsWith "export".toList = false := by
      rw [htext]
      cases default_ with
      | some => exact not_startsWith rfl rfl
      | none =>
        cases abstract_ with
        | some => exact not_startsWith rfl rfl
        | none => exact not_startsWith rfl rfl
    rw [hnot] at hexported
    cases hexported

/-! ### Function headers -/

/-- What follows the name in a function declaration. -/
def declarationTail : Regex :=
  blanks ++ (opt (char '<' ++ (any (noneOf ['>', '(']) ++ char '>')) ++ (blanks ++ (char '('
    ++ (.group 4 (any (· != ')')) ++ (char ')' ++ (typeAfterColon 5 ['{', ';'] ++ (blanks ++ char '{')))))))

theorem declarationTail_begins : declarationTail.BeginsIn (isWord · = false) := by
  have harguments : (char '<' ++ (any (noneOf ['>', '(']) ++ char '>')).BeginsIn (isWord · = false) :=
    (beginsIn_char rfl).seq_of_some rfl _
  exact beginsIn_blanks.seq (harguments.opt.seq (beginsIn_blanks.seq ((beginsIn_char rfl).seq_of_some rfl _)))

theorem way_grouped_optional {label : Nat} {word : String}
    (h : (opt (.group label (edge ++ (lit word ++ blanks1)))).Way p passed rest added) :
    ∃ o : Option Space, passed = optional word o := by
  rcases h with ⟨_, -, h⟩ | ⟨rfl, -⟩
  · obtain ⟨space, rfl, -⟩ := way_edge_optional h
    exact ⟨some space, rfl⟩
  · exact ⟨none, rfl⟩

/-- The keyword of a function stands apart from its name. -/
theorem way_function {n : Name} (h : (edge ++ (lit "function" ++ (edge ++ (blanks ++ (opt (char '*')
      ++ blanks))))).Way p passed (n.text ++ rest) added) :
    (∃ gap : Space, passed = "function".toList ++ gap.text) ∨
      ∃ before behind : Gap, passed = "function".toList ++ (before.text ++ (['*'] ++ behind.text)) := by
  obtain ⟨_, _, _, _, rfl, rfl, ⟨rfl, rfl, -⟩, _, _, _, _, rfl, rfl, ⟨rfl, rfl⟩, _, _, _, _, rfl, rfl,
    ⟨rfl, rfl, hedge⟩, _, _, _, _, rfl, rfl, hbefore, _, _, _, _, rfl, rfl, hstar, hbehind⟩ := h
  obtain ⟨before, rfl, rfl⟩ := way_blanks hbefore
  obtain ⟨behind, rfl, rfl⟩ := way_blanks hbehind
  rcases way_star hstar with ⟨rfl | rfl, rfl⟩
  · refine Or.inl ⟨⟨⟨before.text ++ behind.text, List.forall_mem_append.mpr ⟨before.blank, behind.blank⟩⟩, ?_⟩, rfl⟩
    intro hnone
    obtain ⟨hnone, hnone'⟩ := List.append_eq_nil_iff.mp hnone
    obtain ⟨c, tail, hname, hword⟩ := n.exists_cons
    have hname' := edge_behind hedge rfl
    rw [Cursor.after_rest, hnone, hnone', hname] at hname'
    exact Bool.false_ne_true (hname'.symm.trans hword)
  · exact Or.inr ⟨before, behind, rfl⟩

/-- A function declaration with an export stands behind that word. -/
theorem functionDeclaration_stands {fuel : Nat} {m : Match} (h : functionDeclaration.matchAt? fuel p = some m)
    (hexported : m.has 1 = true) :
    ∃ s : ExportedName, ∃ rest, s.StandsAt p rest ∧ s.head.isClass = false ∧ m.group 3 = s.name.text := by
  have hnested : ((opt (.group 1 (edge ++ (lit "export" ++ (blanks1 ++ opt (lit "default" ++ blanks1)))))
      ++ (opt (.group 2 (edge ++ (lit "async" ++ blanks1))) ++ (edge ++ (lit "function" ++ (edge ++ (blanks
        ++ (opt (char '*') ++ blanks))))))) ++ (Regex.group 3 word ++ declarationTail)).matchAt? fuel p = some m := h
  obtain ⟨_, rest, more, name, _, hrest, hends, hfront, -, hname, hspans⟩ :=
    matchAt?_named hnested rfl declarationTail_begins (by decide)
  obtain ⟨_, _, exported, _, rfl, rfl, hexport, hfront⟩ := hfront
  have hfirst : m.span? 1 = exported.lookup 1 :=
    (hspans 1 (by decide) (by decide)).trans (hfront.lookup (by decide) exported)
  rw [Match.has, hfirst] at hexported
  rcases hexport with ⟨_, rfl, hexport⟩ | ⟨-, rfl⟩
  · obtain ⟨_, _, _, _, rfl, rfl, ⟨rfl, rfl, hedge⟩, _, _, _, _, rfl, rfl, ⟨rfl, rfl⟩, _, _, _, _, rfl, rfl, hblanks,
      hdefault⟩ := hexport
    obtain ⟨space, rfl, rfl⟩ := way_blanks1 hblanks
    obtain ⟨default_, rfl, rfl⟩ := way_optional hdefault
    obtain ⟨_, keyword, _, _, rfl, rfl, hasync, hfunction⟩ := hfront
    obtain ⟨async_, rfl⟩ := way_grouped_optional hasync
    have hstands : ∀ head : ExportedHead, head.text = optional "default" default_ ++ (optional "async" async_
        ++ keyword) →
        (⟨space, head, name⟩ : ExportedName).StandsAt p rest := fun head hhead =>
      ⟨by simp only [hrest, ExportedName.text_eq, hhead, List.append_assoc, List.nil_append],
        edge_before hedge hrest rfl, hends⟩
    rcases way_function hfunction with ⟨gap, rfl⟩ | ⟨before, behind, rfl⟩
    · exact ⟨_, rest, hstands (.function default_ async_ gap) rfl, rfl, hname⟩
    · exact ⟨_, rest, hstands (.generator default_ async_ before behind) rfl, rfl, hname⟩
  · cases hexported

/-- What follows the name of a function that a variable holds. -/
def expressionTail : Regex :=
  opt (blanks ++ (char ':' ++ (blanks ++ few1 (· != '=')))) ++ (blanks ++ (char '=' ++ (blanks
    ++ (opt (.group 2 (lit "async" ++ blanks1)) ++ (oneOf
      [edge ++ lit "function" ++ edge ++ blanks ++ opt (char '*') ++ blanks ++ any isWord ++ blanks
          ++ char '(' ++ .group 6 (any (· != ')')) ++ char ')',
        char '(' ++ .group 7 (any (· != ')')) ++ char ')',
        .group 8 word]
    ++ (typeAfterColon 5 ['=', '{', ';'] ++ (blanks ++ oneOf [lit "=>", char '{'])))))))

theorem expressionTail_begins : expressionTail.BeginsIn (isWord · = false) := by
  have htype : (blanks ++ (char ':' ++ (blanks ++ few1 (· != '=')))).BeginsIn (isWord · = false) :=
    beginsIn_blanks.seq ((beginsIn_char rfl).seq_of_some rfl _)
  exact htype.opt.seq (beginsIn_blanks.seq ((beginsIn_char rfl).seq_of_some rfl _))

/-- A variable with an export that holds a function stands behind that word. -/
theorem functionExpression_stands {fuel : Nat} {m : Match} (h : functionExpression.matchAt? fuel p = some m)
    (hexported : m.has 1 = true) :
    ∃ s : ExportedName, ∃ rest, s.StandsAt p rest ∧ s.head.isClass = false ∧ m.group 3 = s.name.text := by
  have hnested : ((opt (.group 1 (edge ++ (lit "export" ++ blanks1))) ++ (edge ++ (words ["const", "let", "var"]
      ++ blanks1))) ++ (Regex.group 3 word ++ expressionTail)).matchAt? fuel p = some m := h
  obtain ⟨_, rest, more, name, _, hrest, hends, hfront, -, hname, hspans⟩ :=
    matchAt?_named hnested rfl expressionTail_begins (by decide)
  obtain ⟨_, _, exported, _, rfl, rfl, hexport, hfront⟩ := hfront
  have hfirst : m.span? 1 = exported.lookup 1 :=
    (hspans 1 (by decide) (by decide)).trans (hfront.lookup (by decide) exported)
  rw [Match.has, hfirst] at hexported
  rcases hexport with ⟨_, rfl, hexport⟩ | ⟨-, rfl⟩
  · obtain ⟨space, rfl, -, hedge⟩ := way_edge_optional hexport
    obtain ⟨_, _, _, _, rfl, rfl, ⟨rfl, rfl, -⟩, _, _, _, _, rfl, rfl, hkeyword, hblanks⟩ := hfront
    obtain ⟨keyword, hknown, rfl, rfl⟩ := way_words hkeyword
    obtain ⟨gap, rfl, rfl⟩ := way_blanks1 hblanks
    refine ⟨⟨space, .held keyword hknown gap, name⟩, rest, ⟨?_, edge_before hedge hrest rfl, hends⟩, rfl, hname⟩
    simp only [hrest, ExportedName.text_eq, ExportedHead.text, List.append_assoc, List.nil_append]
  · cases hexported

end CodeIndex.JavaScript
