import CodeIndex.Proofs.RuleSet.ClassHeader
import CodeIndex.Proofs.Text.Balance

/-!
# Methods as they are usually written

A method is a name, its parameters between parentheses, and a block. The method rule takes the part of it in
front of the block and finds the block behind it, whatever stands in the parameters and in the block.
-/

namespace CodeIndex.JavaScript

open Regex

/-! ### Methods -/

/-- A method behind some white space. Its parameters hold no parentheses and no braces, and the braces in its
block are balanced. -/
structure MethodSource where
  gap : Text
  name : Name
  parameters : Text
  body : Text
  blank : ∀ c ∈ gap, isBlank c = true
  named : name.text ≠ "constructor".toList ∧ isControlKeyword name.text = false
  plain : ∀ c ∈ parameters, c ∉ ['(', ')', '{', '}']
  balanced : body.Balanced

namespace MethodSource

/-- The method up to its opening brace. -/
def header (m : MethodSource) : Text :=
  m.name.text ++ '(' :: (m.parameters ++ ") \x7b".toList)

/-- The header without its brace. -/
def front (m : MethodSource) : Text :=
  m.name.text ++ '(' :: (m.parameters ++ ") ".toList)

def block (m : MethodSource) : Text :=
  '{' :: (m.body ++ ['}'])

def text (m : MethodSource) : Text :=
  m.gap ++ (m.header ++ (m.body ++ ['}']))

/-- The method that is declared on a line. -/
def decl (m : MethodSource) (line : Nat) : Method :=
  { name := m.name.string
    line := .ofNat line
    visibility := .publicAccess
    isStatic := false
    isAsync := false
    parameters := annotatedParameters m.parameters
    returnType := none
    complexity := .ofNat (complexity m.block) }

theorem header_eq (m : MethodSource) : m.header = m.front ++ ['{'] := by
  rw [header, front, List.append_assoc, List.cons_append, List.append_assoc]
  rfl

theorem not_paren (m : MethodSource) : ∀ c ∈ m.parameters, c ≠ '(' ∧ c ≠ ')' := by
  intro c hc
  have hplain := m.plain c hc
  simp only [List.mem_cons, not_or] at hplain
  exact ⟨hplain.1, hplain.2.1⟩

theorem not_brace (m : MethodSource) : ∀ c ∈ m.parameters, c ≠ '{' ∧ c ≠ '}' := by
  intro c hc
  have hplain := m.plain c hc
  simp only [List.mem_cons, not_or] at hplain
  exact ⟨hplain.2.2.1, hplain.2.2.2.1⟩

end MethodSource

/-! ### The rule -/

variable {fuel : Nat} {p : Cursor}

theorem isWord_of_mayBegin_blanks1 {c : Char} (h : blanks1.mayBegin c = true) : isWord c = false := by
  rw [blanks1, mayBegin_some1] at h
  cases hword : isWord c with
  | false => rfl
  | true =>
    rw [isBlank_eq_false hword] at h
    cases h

/-- A modifier is refused where a name stands in front of a character that is neither white space nor part of it. -/
theorem modifier_refuses {r : Regex} (hr : ∀ u, r.Accepts u → ∀ c ∈ u, isWord c = true) (n : Name) {d : Char}
    {rest : Text} (hd : isWord d = false ∧ isBlank d = false) (h : p.rest = n.text ++ d :: rest) :
    (r ++ blanks1).Refuses fuel p :=
  refuses_behind_run hr rfl (fun _ => isWord_of_mayBegin_blanks1) h n.word hd.1
    ((mayBegin_some1 isBlank d).trans hd.2)

theorem access_takes (n : Name) {d : Char} {rest : Text} (hd : isWord d = false ∧ isBlank d = false)
    (h : p.rest = n.text ++ d :: rest) : access.Takes fuel p [] (n.text ++ d :: rest) [] := by
  refine (modifier_refuses ?_ n hd h).takes_opt h
  rintro u (rfl | rfl | rfl) <;> exact Text.forall_mem _ (by decide)

theorem static_takes (label : Nat) (n : Name) {d : Char} {rest : Text} (hd : isWord d = false ∧ isBlank d = false)
    (h : p.rest = n.text ++ d :: rest) :
    (opt (.group label (lit "static") ++ blanks1)).Takes fuel p [] (n.text ++ d :: rest) [] :=
  (modifier_refuses (by rintro u rfl; exact Text.forall_mem _ (by decide)) n hd h).takes_opt h

theorem methodStart_takes (n : Name) {rest : Text} (h : p.rest = n.text ++ '(' :: rest) :
    (access ++ opt (.group 2 (lit "static") ++ blanks1) ++ opt (.group 3 (lit "async") ++ blanks1)
      ++ opt (words ["get", "set"] ++ blanks1)).Takes fuel p [] (n.text ++ '(' :: rest) [] := by
  have hparen : isWord '(' = false ∧ isBlank '(' = false := by decide
  have hasync : (Regex.group 3 (lit "async") ++ blanks1).Refuses fuel p :=
    modifier_refuses (by rintro u rfl; exact Text.forall_mem _ (by decide)) n hparen h
  have hget : (words ["get", "set"] ++ blanks1).Refuses fuel p :=
    modifier_refuses (by rintro u (rfl | rfl) <;> exact Text.forall_mem _ (by decide)) n hparen h
  exact (((access_takes n hparen h).nothing_nothing (static_takes 2 n hparen h)).nothing_nothing
    (hasync.takes_opt h)).nothing_nothing (hget.takes_opt h)

/-- The name of a member, which no number sign precedes. -/
theorem memberName_takes (label : Nat) (n : Name) {d : Char} {rest : Text} (hd : isWord d = false)
    (h : p.rest = n.text ++ d :: rest) :
    (Regex.group label (opt (char '#') ++ word)).Takes fuel p n.text (d :: rest)
      [(label, ⟨p, p.offset + n.text.width⟩)] := by
  obtain ⟨c, letters, hname, hc⟩ := n.exists_cons
  have hbegins : p.rest = c :: (letters ++ d :: rest) := by rw [h, hname, List.cons_append]
  have hsign : (opt (char '#')).Takes fuel p [] _ [] :=
    (refuses_at hbegins rfl (beq_eq_false_iff_ne.mpr (ne_of_isWord hc (by decide)))).takes_opt h
  exact (hsign.nothing_seq (takes_name n h hd)).group label

/-- The groups that the method rule closes over a header. -/
def MethodSource.groups (m : MethodSource) (place : Cursor) (rest : Text) : List (Nat × Span) :=
  let behind := m.parameters ++ (") \x7b".toList ++ rest)
  let list := place.after (m.name.text ++ ['(']) behind
  [(5, ⟨list, list.offset + Text.width m.parameters⟩), (4, ⟨place, place.offset + m.name.text.width⟩)]

/-- The method rule takes the part of a method up to its block. -/
theorem methodHeader_takes (m : MethodSource) {rest : Text} (h : p.rest = m.header ++ rest) :
    methodHeader.Takes fuel p m.header rest (m.groups p rest) := by
  have hheader : ∀ later : Text, m.header ++ later =
      m.name.text ++ (['('] ++ (m.parameters ++ ([')'] ++ ([' '] ++ (['{'] ++ later))))) := by
    intro later
    rw [MethodSource.header, List.append_assoc, List.cons_append, List.append_assoc]
    rfl
  have hall : m.header = m.name.text ++ ['('] ++ m.parameters ++ [')'] ++ [' '] ++ ['{'] := by
    have hnil := hheader []
    rw [List.append_nil] at hnil
    rw [hnil]
    simp only [List.append_assoc, List.append_nil]
  rw [hheader] at h
  have hnamed := (@methodStart_takes fuel p m.name _ h).nothing_seq (memberName_takes 4 m.name (by decide) h)
  have hlist : ∀ (q : Cursor) (later : Text), q.rest = m.parameters ++ ([')'] ++ later) →
      (Regex.run .many fun c => c != ')').Takes fuel q m.parameters ([')'] ++ later) [] := fun q later hq =>
    takes_many hq (fun d hd => by simpa using (m.not_paren d hd).2) (outside_head rfl)
  have hopened := (hnamed.seq_nothing (takes_no_blanks rfl rfl)).seq (takes_char rfl)
  have hlisted := (hopened.seq ((hlist _ _ rfl).group 5)).seq (takes_char rfl)
  have hcolon : ∀ d, (char ':').mayBegin d = true → isBlank d = false := by
    intro d hd
    obtain rfl := beq_iff_eq.mp hd
    rfl
  have htype : ∀ q : Cursor, q.rest = [' '] ++ (['{'] ++ rest) →
      (typeAfterColon 6 ['{', ';']).Takes fuel q [] ([' '] ++ (['{'] ++ rest)) [] := fun q hq =>
    (((refuses_behind_space rfl hcolon hq rfl rfl).1.seq _).seq _).takes_opt hq
  have htakes := ((hlisted.seq_nothing (htype _ rfl)).seq (takes_one_blank rfl rfl)).seq (takes_char rfl)
  rw [hall]
  exact htakes

/-! ### Methods behind headers -/

/-- The match of the method rule at a header, in the text or in a mask of it. -/
def MethodSource.matched (m : MethodSource) (place : Cursor) (rest : Text) : Match :=
  ⟨place, place.after m.header rest, m.groups place rest⟩

theorem matched_name (m : MethodSource) {rest : Text} (h : p.rest = m.header ++ rest) :
    (m.matched p rest).group 4 = m.name.text := by
  have hspan : (⟨p, p.offset + m.name.text.width⟩ : Span).text = m.name.text := by
    rw [MethodSource.header, List.append_assoc] at h
    exact Cursor.span_text h
  exact hspan

theorem namesMethod_matched (m : MethodSource) {rest : Text} (h : p.rest = m.header ++ rest) :
    namesMethod (m.matched p rest) = true := by
  rw [namesMethod, matched_name m h, m.named.2, Bool.and_eq_true, bne_iff_ne]
  exact ⟨m.named.1, rfl⟩

theorem memberName_name (n : Name) : memberName n.text none = (n.string, .publicAccess) := by
  obtain ⟨c, letters, hname, hc⟩ := n.exists_cons
  have hsign : c ≠ '#' := ne_of_isWord hc (by decide)
  unfold memberName
  rw [Name.string, hname]
  split
  · next heq => exact absurd (List.cons.inj heq).1 hsign
  · rfl

/-- The method behind a header that was matched, with the complexity of its own block. -/
theorem methodOf?_matched (m : MethodSource) (before rest masked : Text) (hoffset : p.offset = before.width)
    (h : p.rest = m.header ++ masked) :
    let t := before ++ (m.header ++ (m.body ++ '}' :: rest))
    methodOf? t (.ofText t) (m.matched p masked) = some (m.decl (before.count '\n' + 1)) := by
  intro t
  have hblock : blockComplexity? t (openingBrace (m.matched p masked)) =
      some (.ofNat (complexity m.block)) := by
    have hsplit : t = (before ++ m.front) ++ '{' :: (m.body ++ '}' :: rest) := by
      rw [show t = before ++ (m.header ++ (m.body ++ '}' :: rest)) from rfl, m.header_eq]
      simp only [List.append_assoc, List.singleton_append]
    have hbrace : openingBrace (m.matched p masked) = (before ++ m.front).width := by
      rw [openingBrace, MethodSource.matched, Cursor.after_offset, hoffset, m.header_eq, Text.width_append,
        Text.width_append, ← Nat.add_assoc]
      rfl
    rw [blockComplexity?, hbrace, hsplit, blockText?_balanced _ _ _ m.balanced.leads]
    rfl
  have hline : (LineIndex.ofText t).lineNumber ((m.matched p masked).groupStart 4) =
      .ofNat (before.count '\n' + 1) := by
    rw [show (m.matched p masked).groupStart 4 = p.offset from rfl, hoffset, LineIndex.lineNumber,
      LineIndex.lineAt_width]
  have hlist : (m.matched p masked).group 5 = m.parameters :=
    Cursor.span_text (Cursor.after_rest _ _ _)
  have hmodifier : (m.matched p masked).group? 1 = none := rfl
  rw [methodOf?, matched_name m h, hmodifier, memberName_name, hlist, annotatedParameters?_eq, hblock, hline]
  rfl

end CodeIndex.JavaScript
