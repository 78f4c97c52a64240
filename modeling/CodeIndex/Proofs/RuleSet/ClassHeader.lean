import CodeIndex.Proofs.Regex.Tried
import CodeIndex.Proofs.RuleSet.JavaScript
import CodeIndex.Proofs.Text.Balance
import CodeIndex.RuleSet.Registry

/-!
# Class headers as they are usually written

A class with its superclass and its interfaces, each clause behind one space. The header rule takes such a
header as it is meant, whatever words the names are: also where they are spelled like the words of the
clauses.
-/

namespace CodeIndex.JavaScript

open Regex

/-! ### Headers -/

/-- A class header: the name, and what the class extends and implements. -/
structure ClassHead where
  name : Name
  superclass : Option Name
  interfaces : List Name

namespace ClassHead

def extendsClause : Option Name → Text
  | none => []
  | some parent => " extends ".toList ++ parent.text

def implementsClause : List Name → Text
  | [] => []
  | first :: more => " implements ".toList ++ Name.joined (first :: more)

theorem extendsClause_some (parent : Name) :
    extendsClause (some parent) = [' '] ++ "extends".toList ++ [' '] ++ parent.text := rfl

theorem implementsClause_cons (first : Name) (more : List Name) :
    implementsClause (first :: more) = [' '] ++ "implements".toList ++ [' '] ++ Name.joined (first :: more) :=
  rfl

def text (head : ClassHead) : Text :=
  "class ".toList ++ head.name.text ++ extendsClause head.superclass
    ++ (implementsClause head.interfaces ++ " \x7b".toList)

theorem text_eq (head : ClassHead) :
    head.text = "class".toList ++ [' '] ++ head.name.text ++ extendsClause head.superclass
      ++ (implementsClause head.interfaces ++ " \x7b".toList) := rfl

/-- What may come behind a space in a header: the first letter of a clause, or the brace. -/
def StartsClause (d : Char) : Prop :=
  d = 'e' ∨ d = 'i' ∨ d = '{'

theorem implements_behind (interfaces : List Name) (rest : Text) :
    ∃ d later, implementsClause interfaces ++ " \x7b".toList ++ rest = ' ' :: d :: later ∧
      (d = 'i' ∨ d = '{') := by
  cases interfaces with
  | nil => exact ⟨'{', rest, rfl, Or.inr rfl⟩
  | cons first more => exact ⟨'i', _, rfl, Or.inl rfl⟩

theorem clauses_behind (superclass : Option Name) (interfaces : List Name) (rest : Text) :
    ∃ d later, extendsClause superclass ++ (implementsClause interfaces ++ " \x7b".toList ++ rest) =
      ' ' :: d :: later ∧ StartsClause d := by
  cases superclass with
  | none =>
    obtain ⟨d, later, hbehind, hd⟩ := implements_behind interfaces rest
    exact ⟨d, later, hbehind, Or.inr hd⟩
  | some parent => exact ⟨'e', _, rfl, Or.inl rfl⟩

end ClassHead

open ClassHead

/-! ### Spaces and clauses -/

variable {fuel : Nat} {p : Cursor}

theorem not_blank_of_startsClause {d : Char} (h : StartsClause d) : isBlank d = false := by
  obtain rfl | rfl | rfl := h <;> rfl

theorem typeArguments_refuses {d : Char} {rest : Text} (h : p.rest = ' ' :: d :: rest) (hd : StartsClause d) :
    typeArguments.Refuses fuel p := by
  have hbegin : ∀ c, (char '<').mayBegin c = true → isBlank c = false := by
    intro c hc
    obtain rfl := beq_iff_eq.mp hc
    rfl
  have hsd : (char '<').mayBegin d = false := by obtain rfl | rfl | rfl := hd <;> rfl
  exact ((refuses_behind_space rfl hbegin h (not_blank_of_startsClause hd) hsd).1.seq _).seq _

/-- The rule of a clause: a word with white space around it. -/
theorem lit_begin {word : String} {first : Char} {letters : Text} (hword : word.toList = first :: letters)
    {c : Char} : (lit word).mayBegin c = true ↔ first = c := by
  rw [lit, mayBegin, hword, List.head?_cons, beq_iff_eq, Option.some_inj]

theorem clause_refuses {word : String} {first d : Char} {letters rest : Text}
    (hword : word.toList = first :: letters) (hfirst : isBlank first = false)
    (h : p.rest = ' ' :: d :: rest) (hd : isBlank d = false) (hne : first ≠ d) :
    (blanks1 ++ lit word).Refuses fuel p := by
  have hsome : (lit word).mayPassNothing = false := by rw [lit, mayPassNothing, hword, List.isEmpty_cons]
  have hbegin : ∀ c, (lit word).mayBegin c = true → isBlank c = false := by
    intro c hc
    obtain rfl := (lit_begin hword).mp hc
    exact hfirst
  have hsd : (lit word).mayBegin d = false := by
    rw [Bool.eq_false_iff]
    exact fun hd => hne ((lit_begin hword).mp hd)
  exact (refuses_behind_space hsome hbegin h hd hsd).2

theorem clause_takes {word : String} {first d : Char} {letters rest : Text}
    (hword : word.toList = first :: letters) (hfirst : isBlank first = false)
    (h : p.rest = ([' '] ++ word.toList ++ [' ']) ++ d :: rest) (hd : isBlank d = false) :
    (blanks1 ++ lit word ++ blanks1).Takes fuel p ([' '] ++ word.toList ++ [' ']) (d :: rest) [] := by
  rw [List.append_assoc, List.append_assoc] at h
  have hspace : blanks1.Takes fuel p [' '] (word.toList ++ ([' '] ++ d :: rest)) [] := by
    rw [hword] at h ⊢
    exact takes_space h hfirst
  have hword : (lit word).Takes fuel (p.after [' '] (word.toList ++ ([' '] ++ d :: rest))) word.toList
      ([' '] ++ d :: rest) [] := takes_lit rfl
  exact (hspace.seq hword).seq (takes_space rfl hd)

/-! ### The rule -/

theorem extends_takes (superclass : Option Name) (interfaces : List Name) (rest : Text)
    (h : p.rest = extendsClause superclass ++ (implementsClause interfaces ++ " \x7b".toList ++ rest)) :
    ∃ added,
      (opt (blanks1 ++ lit "extends" ++ blanks1 ++ .group 2 (some1 (wordOr ['.']))
        ++ opt typeArguments)).Takes fuel p (extendsClause superclass)
          (implementsClause interfaces ++ " \x7b".toList ++ rest) added ∧
        Carries 2 added (superclass.map Name.text) := by
  obtain ⟨d, later, hbehind, hd⟩ := implements_behind interfaces rest
  cases superclass with
  | none =>
    refine ⟨[], Refuses.takes_opt ?_ h, rfl⟩
    have hspace : p.rest = ' ' :: d :: later := h.trans hbehind
    have hblank : isBlank d = false := not_blank_of_startsClause (Or.inr hd)
    have hne : 'e' ≠ d := by obtain rfl | rfl := hd <;> decide
    exact (((clause_refuses rfl rfl hspace hblank hne).seq _).seq _).seq _
  | some parent =>
    obtain ⟨c, letters, hparent, hc⟩ := parent.exists_cons
    generalize hrest : implementsClause interfaces ++ " \x7b".toList ++ rest = behind at h hbehind ⊢
    rw [extendsClause_some, List.append_assoc _ parent.text] at h
    have hclause : (blanks1 ++ lit "extends" ++ blanks1).Takes fuel p ([' '] ++ "extends".toList ++ [' '])
        (parent.text ++ behind) [] := by
      rw [hparent] at h ⊢
      exact clause_takes rfl rfl h (isBlank_eq_false hc)
    have hname : ∀ q : Cursor, q.rest = parent.text ++ behind →
        (some1 (wordOr ['.'])).Takes fuel q parent.text behind [] := by
      intro q hq
      refine takes_some1 parent.nonempty hq (fun e he => ?_) fun e tail he => ?_
      · rw [wordOr, parent.word e he, Bool.true_or]
      · exact outside_head rfl e tail (hbehind.symm.trans he)
    have hnothing : ∀ q : Cursor, q.rest = behind → (opt typeArguments).Takes fuel q [] behind [] :=
      fun q hq => (typeArguments_refuses (hq.trans hbehind) (Or.inr hd)).takes_opt hq
    have htakes := ((hclause.seq ((hname _ rfl).group 2)).seq_nothing (hnothing _ rfl)).opt
    exact ⟨_, htakes, _, rfl, Cursor.span_text rfl⟩

theorem joined_begins (first : Name) (more : List Name) :
    ∃ c passed, Name.joined (first :: more) = c :: passed ∧ isBlank c = false := by
  obtain ⟨c, letters, hfirst, hc⟩ := first.exists_cons
  cases more with
  | nil => exact ⟨c, letters, hfirst, isBlank_eq_false hc⟩
  | cons m more => exact ⟨c, _, by rw [Name.joined_cons, hfirst, List.cons_append], isBlank_eq_false hc⟩

theorem implements_takes (interfaces : List Name) (rest : Text)
    (h : p.rest = implementsClause interfaces ++ " \x7b".toList ++ rest) :
    ∃ added,
      (opt (blanks1 ++ lit "implements" ++ blanks1
          ++ .group 3 (few1 fun c => wordOr [','] c || isBlank c)) ++ (blanks ++ char '{')).Takes
        fuel p (implementsClause interfaces ++ " \x7b".toList) rest added ∧
        Carries 3 added (if interfaces = [] then none else some (Name.joined interfaces)) := by
  cases interfaces with
  | nil =>
    refine ⟨[], Takes.nothing_seq (Refuses.takes_opt ?_ h) (takes_space_brace h), rfl⟩
    exact ((clause_refuses rfl rfl h (by decide) (by decide)).seq _).seq _
  | cons first more =>
    obtain ⟨last, hlast, hend⟩ := Name.joined_last first more
    have hclass : ∀ e ∈ Name.joined (first :: more), (wordOr [','] e || isBlank e) = true := by
      intro e he
      obtain hword | rfl | rfl := Name.joined_mem _ e he
      · rw [wordOr, hword, Bool.true_or, Bool.true_or]
      · rfl
      · rfl
    have hbrace : '{' ∉ Name.joined (first :: more) := fun hin => by
      rcases Name.joined_mem _ '{' hin with h | h | h <;> exact absurd h (by decide)
    have hclause : (blanks1 ++ lit "implements" ++ blanks1).Takes fuel p ([' '] ++ "implements".toList ++ [' '])
        (Name.joined (first :: more) ++ " \x7b".toList ++ rest) [] := by
      obtain ⟨c, passed, hjoined, hc⟩ := joined_begins first more
      rw [implementsClause_cons, List.append_assoc, List.append_assoc, ← List.append_assoc (Name.joined _)] at h
      rw [hjoined] at h ⊢
      exact clause_takes rfl rfl h hc
    have hnames := hclause.seq (takes_listed 3 (List.append_assoc ..) hlast (isBlank_eq_false hend) hclass hbrace)
    have htakes := hnames.assoc.opt_seq
    rw [← List.append_assoc _ (Name.joined (first :: more)), ← implementsClause_cons] at htakes
    refine ⟨_, htakes, ?_⟩
    rw [if_neg (List.cons_ne_nil first more)]
    exact ⟨_, rfl, Cursor.span_text (List.append_assoc ..)⟩

/-- What the groups of a header hold. -/
structure ClassHead.Held (head : ClassHead) (groups : List (Nat × Span)) : Prop where
  name : (groups.lookup 1).map Span.text = some head.name.text
  superclass : (groups.lookup 2).map Span.text = head.superclass.map Name.text
  interfaces : ((groups.lookup 3).map Span.text).getD [] = Name.joined head.interfaces

theorem ClassHead.held_of_carries (head : ClassHead) {names parents interfaces : List (Nat × Span)}
    (hname : Carries 1 names (some head.name.text))
    (hparents : Carries 2 parents (head.superclass.map Name.text))
    (hinterfaces : Carries 3 interfaces
      (if head.interfaces = [] then none else some (Name.joined head.interfaces))) :
    head.Held (interfaces ++ (parents ++ names)) := by
  have hnothing : ∀ label ≠ 1, names.lookup label = none := by
    intro label hlabel
    have hnames := hname.lookup_of_ne [] hlabel
    rwa [List.append_nil] at hnames
  constructor
  · have hlookup := hname.lookup [] rfl
    rw [List.append_nil] at hlookup
    rw [hinterfaces.lookup_of_ne _ (by decide), hparents.lookup_of_ne _ (by decide), hlookup]
  · rw [hinterfaces.lookup_of_ne _ (by decide)]
    exact hparents.lookup _ (hnothing 2 (by decide))
  · rw [hinterfaces.lookup _ (by rw [hparents.lookup_of_ne _ (by decide), hnothing 3 (by decide)])]
    cases head.interfaces with
    | nil => rfl
    | cons first more => rw [if_neg (List.cons_ne_nil first more), Option.getD_some]

/-- Nothing of a header stands in front of its class word. -/
theorem headerStart_takes {rest : Text} (h : p.rest = "class".toList ++ rest)
    (hbefore : p.before.any isWord = false) :
    (opt (edge ++ lit "export" ++ blanks1) ++ opt (lit "default" ++ blanks1)
      ++ opt (lit "abstract" ++ blanks1) ++ edge).Takes fuel p [] ("class".toList ++ rest) [] := by
  have hrefuses : ∀ r : Regex, r.mayPassNothing = false → r.mayBegin 'c' = false → r.Refuses fuel p := by
    intro r hsome hbegin
    exact refuses_at h hsome hbegin
  have hexport := (hrefuses (edge ++ lit "export" ++ blanks1) rfl rfl).takes_opt h
  have hdefault := (hrefuses (lit "default" ++ blanks1) rfl rfl).takes_opt h
  have habstract := (hrefuses (lit "abstract" ++ blanks1) rfl rfl).takes_opt h
  have hedge : edge.Takes fuel p [] ("class".toList ++ rest) [] := by
    refine takes_anchor ?_ h
    rw [Anchor.holds, hbefore, h]
    rfl
  exact ((hexport.nothing_nothing hdefault).nothing_nothing habstract).nothing_nothing hedge

/-- The header rule takes a header as it is meant. -/
theorem classHeader_takes (head : ClassHead) {rest : Text} (h : p.rest = head.text ++ rest)
    (hbefore : p.before.any isWord = false) :
    ∃ groups, classHeader.Takes fuel p head.text rest groups ∧ head.Held groups := by
  obtain ⟨d, later, hclauses, hd⟩ := clauses_behind head.superclass head.interfaces rest
  have hextends := fun q : Cursor => @extends_takes fuel q head.superclass head.interfaces rest
  have himplements := fun q : Cursor => @implements_takes fuel q head.interfaces rest
  rw [ClassHead.text_eq] at h ⊢
  generalize implementsClause head.interfaces ++ " \x7b".toList = last at h hclauses hextends himplements ⊢
  simp only [List.append_assoc] at h
  have hword := (@headerStart_takes fuel p _ h hbefore).nothing_seq (takes_lit h)
  rw [hclauses] at h hword
  have hnamed := (hword.seq (takes_space_name head.name rfl)).seq
    ((takes_name head.name (Cursor.after_rest _ _ _) (by decide)).group 1)
  have hplain := hnamed.seq_nothing ((typeArguments_refuses rfl hd).takes_opt rfl)
  rw [← hclauses] at hplain
  obtain ⟨parents, hextends, hparents⟩ := hextends
    (p.after ("class".toList ++ [' '] ++ head.name.text) (extendsClause head.superclass ++ (last ++ rest))) rfl
  obtain ⟨listed, himplements, hlisted⟩ := himplements
    (p.after ("class".toList ++ [' '] ++ head.name.text ++ extendsClause head.superclass) (last ++ rest)) rfl
  refine ⟨_, ((hplain.seq hextends).seq himplements).assoc.assoc, head.held_of_carries ?_ hparents hlisted⟩
  exact ⟨_, rfl, Cursor.span_text (Cursor.after_rest _ _ _)⟩

/-! ### Classes behind headers -/

namespace ClassHead

/-- The class of a header on a line, without members. -/
def bare (head : ClassHead) (line : Nat) : ClassDecl :=
  { name := head.name.string
    line := .ofNat line
    superclass := head.superclass.map Name.string
    additionalBases := []
    interfaces := head.interfaces.map Name.string
    methods := []
    properties := []
    constructors := []
    attributes := headerAttributes head.text }

theorem text_brace (head : ClassHead) : ∃ front : Text, head.text = front ++ ['{'] := by
  have htext : head.text = "class ".toList ++ head.name.text ++ extendsClause head.superclass
      ++ (implementsClause head.interfaces ++ ([' '] ++ ['{'])) := rfl
  rw [← List.append_assoc (implementsClause _), ← List.append_assoc _ _ ['{']] at htext
  exact ⟨_, htext⟩

end ClassHead

/-- The body of a block with a balanced text in it. -/
theorem maskedBody?_balanced (before inner rest : Text) (hinner : Text.Leads 0 inner 0) (header : Match)
    (hstop : header.stop.offset = before.width + 1) :
    maskedBody? (before ++ '{' :: (inner ++ '}' :: rest)) header =
      some ⟨none, before.width + 1, maskNested inner⟩ := by
  have hend : max (blockEndFrom 1 (before.width + 1) (inner ++ '}' :: rest) - 1) (before.width + 1) =
      before.width + 1 + inner.width := by
    rw [blockEndFrom_balanced _ _ _ hinner]
    omega
  rw [maskedBody?_opening before _ header hstop, hend, slice?_behind, Option.map_some]

/-- The class behind a header that was taken, up to its members. -/
theorem classOf?_head (head : ClassHead) (before rest : Text) (groups : List (Nat × Span))
    (hheld : head.Held groups) :
    let t := before ++ (head.text ++ rest)
    let place := t.start.after before (head.text ++ rest)
    let header : Match := ⟨place, place.after head.text rest, groups⟩
    classOf? t (.ofText t) header =
      (maskedBody? t header).bind fun body =>
        withMembers? t (.ofText t) body (head.bare (before.count '\n' + 1)) := by
  intro t place header
  have hline : (LineIndex.ofText t).lineNumber header.start.offset = .ofNat (before.count '\n' + 1) := by
    have hplace : header.start.offset = before.width := Nat.zero_add _
    rw [LineIndex.lineNumber, hplace, LineIndex.lineAt_width]
  have htext : header.text = head.text := by
    rw [Match.text, show header.start.rest = head.text ++ rest from rfl,
      show header.stop.offset = header.start.offset + head.text.width from rfl, Nat.add_sub_cancel_left,
      Text.takeBytes_width]
  have hname : header.string 1 = head.name.string := by
    rw [Match.string, Match.group, Match.group?, Match.span?, hheld.name]
    rfl
  have hsuperclass : header.string? 2 = head.superclass.map Name.string := by
    rw [Match.string?, Match.group?, Match.span?, hheld.superclass, Option.map_map]
    rfl
  have hinterfaces : commaStrings (header.group 3) = head.interfaces.map Name.string := by
    rw [commaStrings, Match.group, Match.group?, Match.span?, hheld.interfaces, commaList_joined, List.map_map]
    rfl
  rw [classOf?, hline, htext, hname, hsuperclass, hinterfaces]
  rfl

/-- A class is found at its header, with its members in the mask of its body, and the scan goes on inside it. -/
theorem class_found (head : ClassHead) (fuel : Nat) (before inner rest : Text)
    (hbefore : before.getLast?.any isWord = false) (hinner : Text.Leads 0 inner 0) :
    let t := before ++ (head.text ++ (inner ++ '}' :: rest))
    ∃ header,
      classHeader.found fuel (t.start.after before (head.text ++ (inner ++ '}' :: rest))) =
          header :: classHeader.found fuel (t.start.after (before ++ head.text) (inner ++ '}' :: rest)) ∧
        classOf? t (.ofText t) header =
          withMembers? t (.ofText t) ⟨none, (before ++ head.text).width, maskNested inner⟩
            (head.bare (before.count '\n' + 1)) := by
  intro t
  let place := t.start.after before (head.text ++ (inner ++ '}' :: rest))
  have hplace : place.before.any isWord = false := by
    rw [show place.before = before.getLast?.or none from rfl, Option.or_none, hbefore]
  obtain ⟨groups, htakes, hheld⟩ := @classHeader_takes fuel place head _ rfl hplace
  obtain ⟨front, hfront⟩ := head.text_brace
  have hne : head.text ≠ [] := by
    rw [hfront]
    exact List.append_ne_nil_of_right_ne_nil front (List.cons_ne_nil _ _)
  have hsplit : t = (before ++ front) ++ '{' :: (inner ++ '}' :: rest) := by
    rw [show t = before ++ (head.text ++ (inner ++ '}' :: rest)) from rfl, hfront]
    simp only [List.append_assoc, List.singleton_append]
  have hwidth : (before ++ front).width + 1 = (before ++ head.text).width := by
    rw [hfront, ← List.append_assoc, Text.width_append (before ++ front)]
    rfl
  have hbody : maskedBody? t ⟨place, place.after head.text (inner ++ '}' :: rest), groups⟩ =
      some ⟨none, (before ++ head.text).width, maskNested inner⟩ := by
    rw [hsplit, ← hwidth]
    refine maskedBody?_balanced _ _ _ hinner _ ?_
    rw [hwidth, Cursor.after_offset, Cursor.after_offset, Text.width_append]
    exact congrArg (· + _) (Nat.zero_add _)
  have hclass := classOf?_head head before (inner ++ '}' :: rest) groups hheld
  dsimp only at hclass
  rw [hbody, Option.bind_some] at hclass
  refine ⟨_, (found_take htakes hne).trans ?_, hclass⟩
  rw [Cursor.after_after]

/-! ### Descriptions -/

theorem extract_ruleSet {language : Language} (h : language ∈ JavaScript.ruleSet.languages) (t : Text) :
    Registry.standard.extract language t = foundOrCut "javascript" language (describe? language t) := by
  have hlisted : language ∈ [Language.javaScript, .typeScript] := h
  obtain rfl | rfl : language = .javaScript ∨ language = .typeScript := by simpa using hlisted
  · rfl
  · rfl

end CodeIndex.JavaScript
