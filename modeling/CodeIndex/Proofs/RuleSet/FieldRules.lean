import CodeIndex.Proofs.Regex.Walk
import CodeIndex.Proofs.Regex.Tried
import CodeIndex.Proofs.RuleSet.ClassBody
import CodeIndex.Proofs.Structure.TopLevelItems

/-!
# The field rules

The rule for the fields of an interface and the one for those of a class. Both take a name with a type behind a
colon, up to the first character that no type has, whatever that type text is; and both pass over a name in
front of anything but one of their marks.
-/

namespace CodeIndex.JavaScript

open Regex

/-! ### Marks of a field -/

variable {fuel : Nat} {p : Cursor}

/-- What a name of a member and the words in front of it are made of. -/
def memberCharacter (c : Char) : Bool :=
  isWord c || isBlank c || c == '#'

theorem memberCharacter_of_word {c : Char} (h : isWord c = true) : memberCharacter c = true := by
  rw [memberCharacter, h]
  rfl

theorem memberCharacter_of_blank {c : Char} (h : isBlank c = true) : memberCharacter c = true := by
  rw [memberCharacter, h, Bool.or_true]
  rfl

theorem blanks_within : blanks.Within memberCharacter :=
  within_run (fun _ => memberCharacter_of_blank) .many

theorem blanks1_within : blanks1.Within memberCharacter :=
  within_some1 fun _ => memberCharacter_of_blank

theorem word_within : word.Within memberCharacter :=
  within_some1 fun _ => memberCharacter_of_word

theorem interfaceProperty_meets : interfaceProperty.Meets memberCharacter ['?', ':'].contains := by
  have hname : (opt (lit "readonly" ++ blanks1) ++ .group 1 word).Within memberCharacter :=
    ((within_lit rfl).seq blanks1_within).opt.seq word_within
  have hmark : (opt (.group 2 (char '?')) ++ (blanks ++ char ':')).Meets memberCharacter ['?', ':'].contains :=
    ((meets_char (c := '?') rfl).group 2).opt_seq (blanks_within.meets (meets_char rfl))
  exact ((hname.meets hmark).assoc.assoc.seq _).seq _

theorem property_meets : property.Meets memberCharacter ['?', ':', '=', ';', '{'].contains := by
  have haccess : (Regex.group 1 (words ["public", "private", "protected"]) ++ blanks1).Within memberCharacter :=
    ((within_lit rfl).alt ((within_lit rfl).alt (within_lit rfl))).seq blanks1_within
  have hstatic : (Regex.group 2 (lit "static") ++ blanks1).Within memberCharacter :=
    (within_lit (s := "static") rfl).seq blanks1_within
  have hreadonly : (lit "readonly" ++ blanks1).Within memberCharacter := (within_lit rfl).seq blanks1_within
  have hname : (opt (char '#') ++ word).Within memberCharacter := (within_char rfl).opt.seq word_within
  have hfront := ((haccess.opt.seq hstatic.opt).seq hreadonly.opt).seq (hname.group 3)
  -- the type and the default are optional, so any of the marks may be the first
  have htype : (blanks ++ char ':' ++ blanks ++ .group 5 (some1 (noneOf ['=', ';', '{']))).Meets
      memberCharacter ['?', ':', '=', ';', '{'].contains :=
    ((blanks_within.meets (meets_char rfl)).seq _).seq _
  have hdefault : (blanks ++ char '=' ++ blanks ++ .group 6 (some1 (noneOf [';', '{']))).Meets
      memberCharacter ['?', ':', '=', ';', '{'].contains :=
    ((blanks_within.meets (meets_char rfl)).seq _).seq _
  have hend : (oneIn [';', '{']).Meets memberCharacter ['?', ':', '=', ';', '{'].contains := meets_one fun c hc => by
    simp only [List.contains_cons, List.contains_nil, Bool.or_false, Bool.or_eq_true, beq_iff_eq] at hc
    rcases hc with rfl | rfl <;> rfl
  have hmark := ((meets_char (c := '?') rfl).group 4).opt_seq (htype.opt_seq (hdefault.opt_seq hend))
  exact (hfront.meets hmark).assoc.assoc.assoc

theorem interfaceProperty_begins : interfaceProperty.BeginsIn BeginsMember := by
  have hreadonly := beginsMember_modifier (beginsMember_lit (s := "readonly") rfl) rfl
  have hword : (Regex.group 1 word).BeginsIn BeginsMember :=
    fun c hc => Or.inl ((mayBegin_some1 isWord c).symm.trans hc)
  exact (((((hreadonly.seq hword).seq_of_some rfl _).seq_of_some rfl _).seq_of_some rfl _).seq_of_some rfl _
    ).seq_of_some rfl _

/-! ### Both rules -/

/-- Whose fields are read: those of an interface or those of a class. -/
inductive FieldOwner where
  | interface
  | class_

namespace FieldOwner

def rule : FieldOwner → Regex
  | .interface => interfaceProperty
  | .class_ => property

def read (lines : LineIndex) : FieldOwner → Match → Option Property
  | .interface => interfacePropertyOf? lines
  | .class_ => propertyOf? lines

/-- What may come behind the name of a field. -/
def marks : FieldOwner → List Char
  | .interface => ['?', ':']
  | .class_ => ['?', ':', '=', ';', '{']

/-- The properties from a place on. -/
def fields (owner : FieldOwner) (lines : LineIndex) (fuel : Nat) (place : Cursor) : List Property :=
  (owner.rule.found fuel place).filterMap (owner.read lines)

variable (owner : FieldOwner) (lines : LineIndex)

theorem mark_outside : ∀ c, owner.marks.contains c = true → memberCharacter c = false := by
  have hall : ∀ c ∈ owner.marks, memberCharacter c = false := by
    cases owner <;> exact Text.forall_mem _ (by decide)
  exact fun c hc => hall c (List.contains_iff_mem.mp hc)

/-- Characters that begin no member are passed over. -/
theorem fields_skip {quiet rest : Text} (hquiet : ∀ c ∈ quiet, ¬BeginsMember c) (h : p.rest = quiet ++ rest) :
    owner.fields lines fuel p = owner.fields lines fuel (p.after quiet rest) := by
  have hbegins : owner.rule.BeginsIn BeginsMember ∧ owner.rule.mayPassNothing = false := by
    cases owner with
    | interface => exact ⟨interfaceProperty_begins, rfl⟩
    | class_ => exact ⟨property_begins, rfl⟩
  refine congrArg (List.filterMap _) (found_skip_begin hbegins.2 p quiet rest h fun c hc => ?_)
  exact Bool.eq_false_iff.mpr fun hbegin => hquiet c hc (hbegins.1 c hbegin)

/-- Words in front of something else than a mark are passed over. -/
theorem fields_words {words rest : Text} {d : Char} (hwords : ∀ c ∈ words, memberCharacter c = true)
    (hd : memberCharacter d = false ∧ owner.marks.contains d = false) (h : p.rest = words ++ d :: rest) :
    owner.fields lines fuel p = owner.fields lines fuel (p.after words (d :: rest)) := by
  have hmeets : owner.rule.Meets memberCharacter owner.marks.contains := by
    cases owner with
    | interface => exact interfaceProperty_meets
    | class_ => exact property_meets
  exact congrArg (List.filterMap _) (hmeets.found_skip owner.mark_outside h hwords hd)

end FieldOwner

/-! ### Fields that are taken -/

/-- A name and a type text, with a colon and a space between them. -/
def typedText (n : Name) (typed : Text) : Text :=
  n.text ++ [':'] ++ [' '] ++ typed

/-- The groups that a field rule closes over the name and the type. -/
def typedGroups (nameLabel typeLabel : Nat) (n : Name) (typed rest : Text) (p : Cursor) : List (Nat × Span) :=
  let place := p.after (n.text ++ [':'] ++ [' ']) (typed ++ rest)
  [(typeLabel, ⟨place, place.offset + typed.width⟩), (nameLabel, ⟨p, p.offset + n.text.width⟩)]

/-- A field of an interface, with a type that goes up to a character which no type has. -/
theorem interfaceProperty_takes (n : Name) {typed rest : Text} {d : Char} (hfirst : typed.head?.any isBlank = false)
    (hne : typed ≠ []) (hinside : ∀ e ∈ typed, noneOf [';', ',', '\n'] e = true)
    (hd : noneOf [';', ',', '\n'] d = false) (h : p.rest = typedText n typed ++ d :: rest) :
    interfaceProperty.Takes fuel p (typedText n typed) (d :: rest)
      (typedGroups 1 3 n typed (d :: rest) p) := by
  obtain ⟨c, letters, rfl⟩ := List.exists_cons_of_ne_nil hne
  simp only [typedText, List.append_assoc] at h
  have hreadonly : (lit "readonly" ++ blanks1).Refuses fuel p :=
    modifier_refuses (by rintro u rfl; exact Text.forall_mem _ (by decide)) n (d := ':') (by decide) h
  have hname := (hreadonly.takes_opt h).nothing_seq ((takes_name n h (by decide)).group 1)
  have hmark : ∀ q : Cursor, q.rest = [':'] ++ ([' '] ++ (c :: letters ++ d :: rest)) →
      (opt (Regex.group 2 (char '?'))).Takes fuel q [] _ [] := fun q hq =>
    (refuses_at hq rfl rfl).takes_opt hq
  have hcolon := ((hname.seq_nothing (hmark _ rfl)).seq_nothing (takes_no_blanks rfl rfl)).seq (takes_char rfl)
  have hspace := hcolon.seq (takes_one_blank rfl hfirst)
  exact hspace.seq ((takes_some1 hne rfl hinside (outside_head hd)).group 3)

theorem propertyStart_takes (n : Name) {d : Char} {rest : Text} (hd : isWord d = false ∧ isBlank d = false)
    (h : p.rest = n.text ++ d :: rest) :
    (access ++ opt (.group 2 (lit "static") ++ blanks1) ++ opt (lit "readonly" ++ blanks1)
      ++ .group 3 (opt (char '#') ++ word)).Takes fuel p n.text (d :: rest) [(3, ⟨p, p.offset + n.text.width⟩)] := by
  have hreadonly : (lit "readonly" ++ blanks1).Refuses fuel p :=
    modifier_refuses (by rintro u rfl; exact Text.forall_mem _ (by decide)) n hd h
  exact (((access_takes n hd h).nothing_nothing (static_takes 2 n hd h)).nothing_nothing
    (hreadonly.takes_opt h)).nothing_seq (memberName_takes 3 n hd.1 h)

theorem propertyEnd_takes {rest : Text} (h : p.rest = [';'] ++ rest) :
    (opt (blanks ++ char '=' ++ blanks ++ .group 6 (some1 (noneOf [';', '{'])))).Takes fuel p [] ([';'] ++ rest) [] := by
  have hsign : (blanks ++ char '=').Refuses fuel p :=
    refuses_behind_run (u := []) (fun _ hu => hu) rfl (fun c hc => by rw [beq_iff_eq.mp hc]; rfl) h
      (List.forall_mem_nil _) rfl rfl
  exact ((hsign.seq _).seq _).takes_opt h

/-- A field of a class, with a type that goes up to the end mark. -/
theorem property_takes_typed (n : Name) {typed rest : Text} (hfirst : typed.head?.any isBlank = false)
    (hne : typed ≠ []) (hinside : ∀ e ∈ typed, noneOf ['=', ';', '{'] e = true)
    (h : p.rest = typedText n typed ++ ([';'] ++ rest)) :
    property.Takes fuel p (typedText n typed ++ [';']) rest (typedGroups 3 5 n typed ([';'] ++ rest) p) := by
  obtain ⟨c, letters, rfl⟩ := List.exists_cons_of_ne_nil hne
  simp only [typedText, List.append_assoc] at h
  have hname := @propertyStart_takes fuel p n ':' _ (by decide) h
  have hmark : ∀ q : Cursor, q.rest = [':'] ++ ([' '] ++ (c :: letters ++ ([';'] ++ rest))) →
      (opt (Regex.group 4 (char '?'))).Takes fuel q [] _ [] := fun q hq =>
    (refuses_at hq rfl rfl).takes_opt hq
  have htype : ∀ q : Cursor, q.rest = [':'] ++ ([' '] ++ (c :: letters ++ ([';'] ++ rest))) →
      (opt (blanks ++ char ':' ++ blanks ++ Regex.group 5 (some1 (noneOf ['=', ';', '{'])))).Takes fuel q
        ([':'] ++ [' '] ++ c :: letters) ([';'] ++ rest)
        [(5, ⟨q.after ([':'] ++ [' ']) (c :: letters ++ ([';'] ++ rest)),
          (q.after ([':'] ++ [' ']) (c :: letters ++ ([';'] ++ rest))).offset + Text.width (c :: letters)⟩)] := by
    intro q hq
    have hcolon := ((@takes_no_blanks fuel q _ _ hq rfl).nothing_seq (takes_char hq)).seq
      (takes_one_blank rfl hfirst)
    exact (hcolon.seq ((takes_some1 hne rfl hinside (outside_head rfl)).group 5)).opt
  have htyped := (hname.seq_nothing (hmark _ rfl)).seq (htype _ rfl)
  have hend : ∀ q : Cursor, q.rest = [';'] ++ rest → (oneIn [';', '{']).Takes fuel q [';'] rest [] :=
    fun q hq => takes_one rfl hq
  have hall := (htyped.seq_nothing (propertyEnd_takes rfl)).seq (hend _ rfl)
  simp only [Cursor.after_after, ← List.append_assoc] at hall
  simp only [typedText, typedGroups, ← List.append_assoc]
  exact hall

theorem property_takes_untyped (n : Name) {rest : Text} (h : p.rest = n.text ++ ([';'] ++ rest)) :
    property.Takes fuel p (n.text ++ [';']) rest [(3, ⟨p, p.offset + n.text.width⟩)] := by
  have hname := @propertyStart_takes fuel p n ';' _ (by decide) h
  have hmark := hname.seq_nothing ((refuses_at (r := .group 4 (char '?')) rfl rfl rfl).takes_opt rfl)
  have htype := hmark.seq_nothing ((refuses_at
    (r := blanks ++ char ':' ++ blanks ++ .group 5 (some1 (noneOf ['=', ';', '{']))) rfl rfl rfl).takes_opt rfl)
  exact (htype.seq_nothing (propertyEnd_takes rfl)).seq (takes_one rfl rfl)

/-! ### Fields behind matches -/

theorem nonEmptyString?_name (n : Name) : nonEmptyString? n.text = some n.string := by
  have hsome : n.text.isEmpty = false := List.isEmpty_eq_false_iff.mpr n.nonempty
  rw [nonEmptyString?, Text.nonEmpty?, trim_of_not_blank n.text n.not_blank, hsome]
  rfl

theorem hasParenthesis_name (n : Name) : hasParenthesis n.string = false := by
  rw [hasParenthesis, Name.string, String.toList_ofList, List.any_eq_false]
  intro c hc hparen
  obtain h | h := Bool.or_eq_true_iff.mp hparen
  · exact n.not_mem (d := '(') (by decide) (beq_iff_eq.mp h ▸ hc)
  · exact n.not_mem (d := ')') (by decide) (beq_iff_eq.mp h ▸ hc)

theorem nonEmptyString?_parenthesis {typed : Text} (h : ')' ∈ typed) :
    ∃ typeName, nonEmptyString? typed = some typeName ∧ hasParenthesis typeName = true := by
  have hmem := Text.mem_trim (c := ')') rfl typed h
  have hsome : typed.trim.isEmpty = false := List.isEmpty_eq_false_iff.mpr (List.ne_nil_of_mem hmem)
  refine ⟨String.ofList typed.trim, by rw [nonEmptyString?, Text.nonEmpty?, hsome]; rfl, ?_⟩
  rw [hasParenthesis, String.toList_ofList]
  exact List.any_eq_true.mpr ⟨')', hmem, rfl⟩

/-- The property that is made of a name and a type on a line. -/
def plainProperty (n : Name) (typeName : Option String) (line : UInt64) : Property :=
  { name := n.string
    line
    visibility := .publicAccess
    isStatic := false
    typeName }

theorem typedName_text {n : Name} {typed rest : Text} (h : p.rest = typedText n typed ++ rest) :
    (⟨p, p.offset + n.text.width⟩ : Span).text = n.text := by
  simp only [typedText, List.append_assoc] at h
  exact Cursor.span_text h

/-- What the match of an interface field stands for. -/
theorem interfacePropertyOf?_eq {n : Name} {typed rest : Text} (h : p.rest = typedText n typed ++ rest)
    (lines : LineIndex) (stop : Cursor) :
    interfacePropertyOf? lines ⟨p, stop, typedGroups 1 3 n typed rest p⟩ =
      (nonEmptyString? typed).bind fun typeName =>
        if hasParenthesis typeName then none
        else some (plainProperty n (some typeName) (lines.lineNumber p.offset)) := by
  let m : Match := ⟨p, stop, typedGroups 1 3 n typed rest p⟩
  have htype : m.trimmed? 3 = nonEmptyString? typed := congrArg nonEmptyString? (Cursor.span_text rfl)
  have hname : m.string 1 = n.string := congrArg String.ofList (typedName_text h)
  rw [interfacePropertyOf?, htype, hname]
  cases nonEmptyString? typed <;> rfl

/-- What a match of the class rule stands for that has no modifiers and no default. -/
theorem propertyOf?_eq {m : Match} {n : Name} (hname : m.group 3 = n.text)
    (hfree : m.span? 1 = none ∧ m.span? 2 = none ∧ m.span? 4 = none ∧ m.span? 6 = none) (lines : LineIndex) :
    propertyOf? lines m =
      if isControlKeyword n.text || (m.trimmed? 5).any hasParenthesis then none
      else some (plainProperty n (m.trimmed? 5) (lines.lineNumber (m.groupStart 3))) := by
  obtain ⟨haccess, hstatic, hmark, hdefault⟩ := hfree
  simp only [propertyOf?, hname, Match.group?, haccess, Option.map_none, memberName_name, Match.has, hstatic,
    hmark, Match.trimmed?, hdefault, Option.bind_none]
  rfl

theorem propertyOf?_typed {n : Name} {typed rest : Text} (h : p.rest = typedText n typed ++ rest) (lines : LineIndex)
    (stop : Cursor) :
    propertyOf? lines ⟨p, stop, typedGroups 3 5 n typed rest p⟩ =
      if isControlKeyword n.text || (nonEmptyString? typed).any hasParenthesis then none
      else some (plainProperty n (nonEmptyString? typed) (lines.lineNumber p.offset)) := by
  let m : Match := ⟨p, stop, typedGroups 3 5 n typed rest p⟩
  have htype : m.trimmed? 5 = nonEmptyString? typed := congrArg nonEmptyString? (Cursor.span_text rfl)
  have hread := propertyOf?_eq (m := m) (typedName_text h) ⟨rfl, rfl, rfl, rfl⟩ lines
  rwa [htype] at hread

theorem propertyOf?_untyped {n : Name} {rest : Text} (h : p.rest = n.text ++ rest) (lines : LineIndex)
    (stop : Cursor) :
    propertyOf? lines ⟨p, stop, [(3, ⟨p, p.offset + n.text.width⟩)]⟩ =
      if isControlKeyword n.text then none else some (plainProperty n none (lines.lineNumber p.offset)) := by
  have hread := propertyOf?_eq (m := ⟨p, stop, [(3, ⟨p, p.offset + n.text.width⟩)]⟩) (Cursor.span_text h)
    ⟨rfl, rfl, rfl, rfl⟩ lines
  rw [hread, show Match.trimmed? _ 5 = none from rfl, Option.any_none, Bool.or_false]
  rfl

end CodeIndex.JavaScript
