import CodeIndex.Proofs.RuleSet.FieldRules
import CodeIndex.Proofs.RuleSet.LastLineFeed

/-!
# Bodies made of fields and signatures

An interface or a class whose body is a sequence of fields and of method signatures without bodies. The field
rules are scans that look at no structure, so whether they take a part of a signature for a field depends on
what follows that part: in an interface each parameter but the last reads like a field, and in a class the
result of a method without parameters does.
-/

namespace CodeIndex.JavaScript

open Regex

/-! ### Members -/

/-- A name with its type, such as `a: T`. -/
structure TypedName where
  name : Name
  typeName : Name

namespace TypedName

def text (d : TypedName) : Text :=
  typedText d.name d.typeName.text

def listText (list : List TypedName) : Text :=
  Text.join ", ".toList (list.map text)

theorem listText_cons (d e : TypedName) (list : List TypedName) :
    listText (d :: e :: list) = d.text ++ (", ".toList ++ listText (e :: list)) :=
  List.append_assoc ..

def property (d : TypedName) (line : UInt64) : Property :=
  plainProperty d.name (some d.typeName.string) line

end TypedName

/-- A field, or the signature of a method, behind some white space. -/
inductive Member where
  | field (gap : Gap) (declared : TypedName)
  | signature (gap : Gap) (name : Name) (parameters : List TypedName) (result : Name)

/-- What stands behind the parameters of a method. -/
def signatureEnd (result : Name) : Text :=
  "): ".toList ++ result.text ++ [';']

/-- The word in front of each signature. -/
def FieldOwner.front : FieldOwner → Text
  | .interface => []
  | .class_ => "abstract ".toList

namespace Member

variable (owner : FieldOwner)

def gap : Member → Text
  | .field gap _ => gap.text
  | .signature gap _ _ _ => gap.text

/-- What stands behind the gap of a member. -/
def content : Member → Text
  | .field _ declared => declared.text ++ [';']
  | .signature _ name parameters result =>
    owner.front ++ name.text ++ (['('] ++ (TypedName.listText parameters ++ signatureEnd result))

def text (m : Member) : Text :=
  m.gap ++ m.content owner

/-- The fields that a member declares. -/
def declared (line : UInt64) : Member → List Property
  | .field _ declared => [declared.property line]
  | .signature .. => []

/-- The properties that are reported for a member: for a signature of an interface all parameters but the last, and
for one of a class the result when there are no parameters. -/
def reported (line : UInt64) : Member → List Property
  | .field _ declared => [declared.property line]
  | .signature _ _ parameters result =>
    match owner, parameters with
    | .interface, parameters => parameters.dropLast.map (·.property line)
    | .class_, [] => [plainProperty result none line]
    | .class_, _ :: _ => []

/-- Whether nothing but the declared field is reported for a member. -/
def Silent : Member → Prop
  | .field .. => True
  | .signature _ _ parameters _ =>
    match owner with
    | .interface => parameters.length ≤ 1
    | .class_ => parameters ≠ []

/-- Whether a class rule may read the names of a member: they are no control keywords. -/
def Plain : Member → Prop
  | .field _ declared => isControlKeyword declared.name.text = false
  | .signature _ _ _ result => isControlKeyword result.text = false

/-- What is collected of members that stand behind a text, each of them on its line. -/
def collect (of : UInt64 → Member → List Property) : Text → List Member → List Property
  | _, [] => []
  | before, m :: more =>
    of (.ofNat ((before ++ m.gap).count '\n' + 1)) m ++ collect of (before ++ m.text owner) more

end Member

variable {fuel : Nat} {p : Cursor}

/-! ### Lines -/

/-- Whether all of a text behind a place stands on one line. -/
def OnLine (lines : LineIndex) (place : Cursor) (text : Text) (line : UInt64) : Prop :=
  ∀ u v, text = u ++ v → lines.lineNumber (place.offset + u.width) = line

theorem OnLine.start {lines : LineIndex} {text : Text} {line : UInt64} (h : OnLine lines p text line) :
    lines.lineNumber p.offset = line :=
  h [] text rfl

theorem OnLine.front {lines : LineIndex} {a b : Text} {line : UInt64} (h : OnLine lines p (a ++ b) line) :
    OnLine lines p a line := by
  rintro u v rfl
  exact h u (v ++ b) (List.append_assoc ..)

theorem OnLine.behind {lines : LineIndex} {a b : Text} {line : UInt64} (h : OnLine lines p (a ++ b) line)
    (rest : Text) : OnLine lines (p.after a rest) b line := by
  rintro u v rfl
  rw [Cursor.after_offset, Nat.add_assoc, ← Text.width_append]
  exact h (a ++ u) v (List.append_assoc ..).symm

theorem onLine_of_no_feed {before text rest : Text} (hfeed : '\n' ∉ text) (hplace : p.offset = before.width) :
    OnLine (.ofText (before ++ (text ++ rest))) p text (.ofNat (before.count '\n' + 1)) := by
  rintro u v rfl
  have hnone : u.count '\n' = 0 := List.count_eq_zero.mpr fun h => hfeed (List.mem_append_left v h)
  have hlines := LineIndex.lineAt_width (before ++ u) (v ++ rest)
  rw [List.count_append, hnone, List.append_assoc, ← List.append_assoc u] at hlines
  rw [hplace, ← Text.width_append, LineIndex.lineNumber, hlines]

/-! ### Names and types -/

theorem head_name (n : Name) (w : Text) : (n.text ++ w).head?.any isBlank = false := by
  obtain ⟨c, letters, hname, hc⟩ := n.exists_cons
  rw [hname]
  exact isBlank_eq_false hc

theorem wordOr_name (n : Name) (symbols : List Char) : ∀ c ∈ n.text, wordOr symbols c = true := by
  intro c hc
  rw [wordOr, n.word c hc, Bool.true_or]

theorem ne_of_wordOr {symbols : List Char} {c d : Char} (h : wordOr symbols c = true) (hd : wordOr symbols d = false) :
    c ≠ d := by
  rintro rfl
  rw [h] at hd
  cases hd

theorem noneOf_of_wordOr {symbols list : List Char} (hlist : list.all (!wordOr symbols ·) = true) {t : Text}
    (h : ∀ c ∈ t, wordOr symbols c = true) : ∀ c ∈ t, noneOf list c = true := by
  intro c hc
  rw [noneOf, Bool.not_eq_true', List.contains_eq_mem, decide_eq_false_iff_not]
  intro hmem
  exact ne_of_wordOr (h c hc) (Bool.not_eq_true' _ |>.mp (List.all_eq_true.mp hlist c hmem)) rfl

theorem listText_wordOr (list : List TypedName) {symbols : List Char}
    (hsymbols : ∀ c ∈ [':', ' ', ','], wordOr symbols c = true) :
    ∀ c ∈ TypedName.listText list, wordOr symbols c = true := by
  obtain ⟨hcolon, hspace, hcomma, -⟩ := by simpa only [List.forall_mem_cons] using hsymbols
  have htext : ∀ d : TypedName, ∀ c ∈ d.text, wordOr symbols c = true := by
    intro d
    simp only [TypedName.text, typedText, List.forall_mem_append, List.forall_mem_singleton]
    exact ⟨⟨⟨wordOr_name d.name _, hcolon⟩, hspace⟩, wordOr_name d.typeName _⟩
  induction list with
  | nil => exact List.forall_mem_nil _
  | cons d list ih =>
    cases list with
    | nil => exact htext d
    | cons e list =>
      rw [TypedName.listText_cons]
      exact List.forall_mem_append.mpr ⟨htext d,
        List.forall_mem_cons.mpr ⟨hcomma, List.forall_mem_cons.mpr ⟨hspace, ih⟩⟩⟩

theorem listText_first (first : TypedName) (more : List TypedName) :
    ∃ w, TypedName.listText (first :: more) = first.text ++ w := by
  cases more with
  | nil => exact ⟨[], (List.append_nil _).symm⟩
  | cons second more => exact ⟨_, TypedName.listText_cons first second more⟩

theorem quiet_of_symbols (quiet : Text) (h : quiet.all (fun c => !isWord c && c != '#') = true) :
    ∀ c ∈ quiet, ¬BeginsMember c := by
  intro c hc hbegins
  have hnot := List.all_eq_true.mp h c hc
  rw [Bool.and_eq_true, Bool.not_eq_true', bne_iff_ne] at hnot
  exact hbegins.elim (fun hword => absurd hword (by rw [hnot.1]; decide)) hnot.2

theorem memberCharacter_name (n : Name) : ∀ c ∈ n.text, memberCharacter c = true :=
  fun c hc => memberCharacter_of_word (n.word c hc)

/-! ### Interfaces -/

section

variable (lines : LineIndex)

theorem interface_field (d : TypedName) {c : Char} {rest : Text} (hc : noneOf [';', ',', '\n'] c = false)
    (h : p.rest = d.text ++ c :: rest) :
    FieldOwner.interface.fields lines fuel p =
      d.property (lines.lineNumber p.offset) :: FieldOwner.interface.fields lines fuel (p.after d.text (c :: rest)) := by
  have hfirst : d.typeName.text.head?.any isBlank = false := by
    have hhead := head_name d.typeName []
    rwa [List.append_nil] at hhead
  have htakes := @interfaceProperty_takes fuel p d.name d.typeName.text rest c hfirst d.typeName.nonempty
    (noneOf_of_wordOr (by decide) (wordOr_name d.typeName [])) hc h
  have hread := interfacePropertyOf?_eq h lines (p.after d.text (c :: rest))
  rw [nonEmptyString?_name, Option.bind_some, hasParenthesis_name] at hread
  have hne : typedText d.name d.typeName.text ≠ [] :=
    List.append_ne_nil_of_right_ne_nil _ d.typeName.nonempty
  rw [FieldOwner.fields, FieldOwner.rule, found_take htakes hne]
  exact List.filterMap_cons_some hread

/-- The last parameter of a signature: its type reads up to the end mark, with a parenthesis in it. -/
theorem interface_last (d : TypedName) (result : Name) {rest : Text}
    (h : p.rest = d.text ++ ("): ".toList ++ result.text) ++ ';' :: rest) :
    FieldOwner.interface.fields lines fuel p =
      FieldOwner.interface.fields lines fuel (p.after (d.text ++ ("): ".toList ++ result.text)) (';' :: rest)) := by
  have hparen : ')' ∈ "): ".toList ++ result.text := List.mem_append_left _ List.mem_cons_self
  have hsymbols : ∀ c ∈ d.typeName.text ++ ("): ".toList ++ result.text), wordOr "): ".toList c = true :=
    List.forall_mem_append.mpr ⟨wordOr_name d.typeName _, List.forall_mem_append.mpr
      ⟨Text.forall_mem _ (by decide), wordOr_name result _⟩⟩
  generalize "): ".toList ++ result.text = w at h hparen hsymbols ⊢
  have htext : d.text ++ w = typedText d.name (d.typeName.text ++ w) := List.append_assoc ..
  have hne : d.typeName.text ++ w ≠ [] := List.append_ne_nil_of_left_ne_nil d.typeName.nonempty w
  rw [htext] at h ⊢
  have htakes := @interfaceProperty_takes fuel p d.name (d.typeName.text ++ w) rest ';' (head_name d.typeName w) hne
    (noneOf_of_wordOr (by decide) hsymbols) rfl h
  have hread := interfacePropertyOf?_eq h lines (p.after (typedText d.name (d.typeName.text ++ w)) (';' :: rest))
  obtain ⟨typeName, htype, hparen⟩ := nonEmptyString?_parenthesis (List.mem_append_right d.typeName.text hparen)
  rw [htype, Option.bind_some, hparen] at hread
  rw [FieldOwner.fields, FieldOwner.rule, found_take htakes (List.append_ne_nil_of_right_ne_nil _ hne)]
  exact List.filterMap_cons_none hread

/-- All parameters but the last read like fields. -/
theorem interface_parameters (first : TypedName) (more : List TypedName) (result : Name) {line : UInt64} {rest : Text}
    (h : p.rest = TypedName.listText (first :: more) ++ (signatureEnd result ++ rest))
    (hline : OnLine lines p (TypedName.listText (first :: more)) line) :
    FieldOwner.interface.fields lines fuel p = (first :: more).dropLast.map (·.property line) ++
      FieldOwner.interface.fields lines fuel
        (p.after (TypedName.listText (first :: more) ++ signatureEnd result) rest) := by
  induction more generalizing first p with
  | nil =>
    have hplace : p.rest = first.text ++ ("): ".toList ++ result.text) ++ ';' :: rest := by
      rw [h, signatureEnd]
      simp only [TypedName.listText, List.map_cons, List.map_nil, Text.join, List.append_assoc, List.singleton_append]
    rw [interface_last lines first result hplace,
      FieldOwner.fields_skip _ lines (quiet_of_symbols [';'] (by decide)) rfl, Cursor.after_after,
      signatureEnd, List.append_assoc]
    rfl
  | cons second more ih =>
    rw [TypedName.listText_cons] at h hline ⊢
    simp only [List.append_assoc] at h
    have hbehind : ∀ later rest, OnLine lines ((p.after first.text later).after ", ".toList rest)
        (TypedName.listText (second :: more)) line := fun _ _ => (hline.behind _).behind _
    rw [interface_field lines first (c := ',') rfl h, hline.start,
      FieldOwner.fields_skip _ lines (quiet_of_symbols ", ".toList (by decide)) rfl,
      ih second rfl (hbehind _ _)]
    simp only [Cursor.after_after, List.append_assoc]
    rfl

theorem interface_result (result : Name) {rest : Text} (h : p.rest = signatureEnd result ++ rest) :
    FieldOwner.interface.fields lines fuel p =
      FieldOwner.interface.fields lines fuel (p.after (signatureEnd result) rest) := by
  rw [signatureEnd] at h ⊢
  simp only [List.append_assoc] at h
  rw [FieldOwner.fields_skip _ lines (quiet_of_symbols _ (by decide)) h,
    FieldOwner.fields_words _ lines (memberCharacter_name result) (d := ';') (by decide) rfl,
    FieldOwner.fields_skip _ lines (quiet_of_symbols [';'] (by decide)) rfl]
  simp only [Cursor.after_after]

/-! ### Classes -/

theorem class_field (d : TypedName) (hplain : isControlKeyword d.name.text = false) {rest : Text}
    (h : p.rest = d.text ++ ([';'] ++ rest)) :
    FieldOwner.class_.fields lines fuel p =
      d.property (lines.lineNumber p.offset) :: FieldOwner.class_.fields lines fuel (p.after (d.text ++ [';']) rest) := by
  have hfirst : d.typeName.text.head?.any isBlank = false := by
    have hhead := head_name d.typeName []
    rwa [List.append_nil] at hhead
  have htakes := @property_takes_typed fuel p d.name d.typeName.text rest hfirst d.typeName.nonempty
    (noneOf_of_wordOr (by decide) (wordOr_name d.typeName [])) h
  have hread := propertyOf?_typed h lines (p.after (d.text ++ [';']) rest)
  rw [hplain, nonEmptyString?_name, Option.any_some, hasParenthesis_name] at hread
  rw [FieldOwner.fields, FieldOwner.rule, found_take htakes (List.append_ne_nil_of_right_ne_nil _ (List.cons_ne_nil _ _))]
  exact List.filterMap_cons_some hread

theorem class_parameters (first : TypedName) (more : List TypedName) (result : Name) {rest : Text}
    (h : p.rest = TypedName.listText (first :: more) ++ (signatureEnd result ++ rest)) :
    FieldOwner.class_.fields lines fuel p =
      FieldOwner.class_.fields lines fuel (p.after (TypedName.listText (first :: more) ++ signatureEnd result) rest) := by
  -- the type of the first parameter reads over all others up to the end mark, with the parenthesis in it
  obtain ⟨w, hlist⟩ := listText_first first more
  let typed := first.typeName.text ++ (w ++ ("): ".toList ++ result.text))
  have htext : TypedName.listText (first :: more) ++ signatureEnd result = typedText first.name typed ++ [';'] := by
    rw [hlist, signatureEnd, TypedName.text]
    simp only [typed, typedText, List.append_assoc]
  have hsymbols : ∀ c ∈ typed, wordOr [':', ' ', ',', ')'] c = true := by
    have hall : ∀ c ∈ TypedName.listText (first :: more), wordOr [':', ' ', ',', ')'] c = true :=
      listText_wordOr (first :: more) (Text.forall_mem _ (by decide))
    rw [hlist] at hall
    exact List.forall_mem_append.mpr ⟨wordOr_name first.typeName _, List.forall_mem_append.mpr
      ⟨(List.forall_mem_append.mp hall).2, List.forall_mem_append.mpr
        ⟨Text.forall_mem _ (by decide), wordOr_name result _⟩⟩⟩
  have hparen : ')' ∈ typed :=
    List.mem_append_right _ (List.mem_append_right _ (List.mem_append_left _ List.mem_cons_self))
  have hne : typed ≠ [] := List.ne_nil_of_mem hparen
  rw [← List.append_assoc, htext, List.append_assoc] at h
  have htakes := @property_takes_typed fuel p first.name typed rest (head_name first.typeName _) hne
    (noneOf_of_wordOr (by decide) hsymbols) h
  have hread := propertyOf?_typed h lines (p.after (typedText first.name typed ++ [';']) rest)
  obtain ⟨typeName, htype, hparen⟩ := nonEmptyString?_parenthesis hparen
  rw [htype, Option.any_some, hparen, Bool.or_true] at hread
  rw [FieldOwner.fields, FieldOwner.rule, found_take htakes (List.append_ne_nil_of_right_ne_nil _ (List.cons_ne_nil _ _)),
    htext]
  exact List.filterMap_cons_none hread

/-- The result of a signature without parameters reads like a field without a type. -/
theorem class_result (result : Name) (hplain : isControlKeyword result.text = false) {line : UInt64} {rest : Text}
    (h : p.rest = signatureEnd result ++ rest) (hline : OnLine lines p (signatureEnd result) line) :
    FieldOwner.class_.fields lines fuel p =
      plainProperty result none line :: FieldOwner.class_.fields lines fuel (p.after (signatureEnd result) rest) := by
  rw [signatureEnd] at h hline ⊢
  simp only [List.append_assoc] at h hline ⊢
  have hskip : FieldOwner.class_.fields lines fuel p = _ :=
    FieldOwner.class_.fields_skip lines (quiet_of_symbols _ (by decide)) h
  let place := p.after "): ".toList (result.text ++ ([';'] ++ rest))
  have htakes := @property_takes_untyped fuel place result rest rfl
  have hread := propertyOf?_untyped (p := place) rfl lines (place.after (result.text ++ [';']) rest)
  rw [hplain] at hread
  have hon : lines.lineNumber place.offset = line := (hline.behind _).start
  rw [hon] at hread
  have hfound := found_take htakes (List.append_ne_nil_of_left_ne_nil result.nonempty _)
  rw [hskip, ← Cursor.after_after p _ _ (result.text ++ ([';'] ++ rest)), FieldOwner.fields, FieldOwner.rule, hfound]
  exact List.filterMap_cons_some hread

/-! ### Bodies -/

variable (owner : FieldOwner)

theorem fields_signature (gap : Gap) (name : Name) (parameters : List TypedName) (result : Name)
    (hplain : owner = .class_ → isControlKeyword result.text = false) {line : UInt64} {rest : Text}
    (h : p.rest = TypedName.listText parameters ++ (signatureEnd result ++ rest))
    (hline : OnLine lines p (TypedName.listText parameters ++ signatureEnd result) line) :
    owner.fields lines fuel p = (Member.signature gap name parameters result).reported owner line ++
      owner.fields lines fuel (p.after (TypedName.listText parameters ++ signatureEnd result) rest) := by
  cases owner with
  | interface =>
    cases parameters with
    | nil => exact interface_result lines result h
    | cons first more => exact interface_parameters lines first more result h hline.front
  | class_ =>
    cases parameters with
    | nil => exact class_result lines result (hplain rfl) h hline
    | cons first more => exact class_parameters lines first more result h

theorem fields_member (m : Member) (hplain : owner = .class_ → m.Plain) {line : UInt64} {rest : Text}
    (h : p.rest = m.content owner ++ rest) (hline : OnLine lines p (m.content owner) line) :
    owner.fields lines fuel p =
      m.reported owner line ++ owner.fields lines fuel (p.after (m.content owner) rest) := by
  cases m with
  | field gap d =>
    rw [Member.content, List.append_assoc] at h
    cases owner with
    | interface =>
      rw [interface_field lines d (c := ';') rfl h, hline.start,
        FieldOwner.fields_skip _ lines (quiet_of_symbols [';'] (by decide)) rfl, Cursor.after_after]
      rfl
    | class_ =>
      rw [class_field lines d (hplain rfl) h, hline.start]
      rfl
  | signature gap name parameters result =>
    have hwords : ∀ c ∈ owner.front ++ name.text, memberCharacter c = true := by
      refine List.forall_mem_append.mpr ⟨?_, memberCharacter_name name⟩
      cases owner <;> exact Text.forall_mem _ (by decide)
    have hparen : memberCharacter '(' = false ∧ owner.marks.contains '(' = false := by cases owner <;> decide
    have hplace : p.rest = (owner.front ++ name.text)
        ++ '(' :: (TypedName.listText parameters ++ (signatureEnd result ++ rest)) := by
      rw [h, Member.content]
      simp only [List.append_assoc, List.cons_append, List.nil_append]
    rw [Member.content] at hline ⊢
    rw [owner.fields_words lines hwords hparen hplace,
      owner.fields_skip lines (quiet_of_symbols ['('] (by decide))
        (show Cursor.rest _ = _ ++ (TypedName.listText parameters ++ (signatureEnd result ++ rest)) from rfl),
      fields_signature lines owner gap name parameters result hplain rfl ((hline.behind _).behind _)]
    simp only [Cursor.after_after, List.append_assoc]

/-- The symbols of a body. -/
def bodySymbols : List Char := [':', ' ', ',', '(', ')', ';']

theorem content_wordOr (m : Member) : ∀ c ∈ m.content owner, wordOr bodySymbols c = true := by
  cases m with
  | field gap d =>
    simp only [Member.content, TypedName.text, typedText, List.forall_mem_append, List.forall_mem_singleton]
    exact ⟨⟨⟨⟨wordOr_name d.name _, rfl⟩, rfl⟩, wordOr_name d.typeName _⟩, rfl⟩
  | signature gap name parameters result =>
    have hfront : ∀ c ∈ owner.front, wordOr bodySymbols c = true := by
      cases owner <;> exact Text.forall_mem _ (by decide)
    simp only [Member.content, signatureEnd, List.forall_mem_append, List.forall_mem_singleton]
    exact ⟨⟨hfront, wordOr_name name _⟩, rfl, listText_wordOr parameters (Text.forall_mem _ (by decide)),
      ⟨Text.forall_mem _ (by decide), wordOr_name result _⟩, rfl⟩

/-- The properties of a body, each on the line of its member. -/
theorem fields_body (members : List Member) (hplain : owner = .class_ → ∀ m ∈ members, m.Plain) (last : Gap)
    {t before rest : Text} (ht : t = before ++ (members.flatMap (Member.text owner) ++ last.text ++ rest))
    (hplace : p.offset = before.width) (h : p.rest = members.flatMap (Member.text owner) ++ last.text) :
    owner.fields (.ofText t) fuel p = Member.collect owner (Member.reported owner) before members := by
  have hgap : ∀ gap : Gap, ∀ c ∈ gap.text, ¬BeginsMember c :=
    fun gap c hc => not_beginsMember_of_blank (gap.blank c hc)
  -- the scan stands in front of a member, with all members passed so far in `before`
  induction members generalizing before p with
  | nil =>
    have hlast : p.rest = last.text ++ [] := h.trans (List.append_nil _).symm
    rw [owner.fields_skip _ (hgap last) hlast]
    exact congrArg (List.filterMap _) (found_end (by cases owner <;> rfl) rfl)
  | cons m members ih =>
    rw [List.flatMap_cons, Member.text, List.append_assoc, List.append_assoc] at h
    have hsplit : t = (before ++ m.gap) ++ (m.content owner
        ++ (members.flatMap (Member.text owner) ++ last.text ++ rest)) := by
      rw [ht, List.flatMap_cons, Member.text]
      simp only [List.append_assoc]
    have hfeed : '\n' ∉ m.content owner := fun hmem =>
      ne_of_wordOr (content_wordOr owner m _ hmem) (d := '\n') (by decide) rfl
    have hstart : ∀ later, (p.after m.gap later).offset = (before ++ m.gap).width := fun _ => by
      rw [Cursor.after_offset, hplace, Text.width_append]
    have hmember : ∀ later, OnLine (.ofText t) (p.after m.gap later) (m.content owner)
        (.ofNat ((before ++ m.gap).count '\n' + 1)) := fun later => by
      rw [hsplit]
      exact onLine_of_no_feed hfeed (hstart later)
    have hgap : ∀ c ∈ m.gap, ¬BeginsMember c := by cases m <;> exact hgap _
    have hmore : ∀ q : Cursor, q.offset = (before ++ m.text owner).width →
        q.rest = members.flatMap (Member.text owner) ++ last.text →
        t = before ++ m.text owner ++ (members.flatMap (Member.text owner) ++ last.text ++ rest) →
        owner.fields (.ofText t) fuel q =
          Member.collect owner (Member.reported owner) (before ++ m.text owner) members :=
      fun q hplace h ht => ih (fun h n hn => hplain h n (List.mem_cons_of_mem m hn)) ht hplace h
    rw [owner.fields_skip _ hgap h, fields_member _ owner m (fun h => hplain h m List.mem_cons_self) rfl (hmember _),
      hmore _ ?_ rfl ?_]
    · rfl
    · rw [Cursor.after_offset, hstart, Member.text, ← List.append_assoc, Text.width_append (before ++ m.gap)]
    · rw [hsplit, Member.text]
      simp only [List.append_assoc]

end

/-! ### Declared fields -/

section

variable (owner : FieldOwner)

theorem reported_eq_declared_iff (m : Member) (line : UInt64) :
    m.reported owner line = m.declared line ↔ m.Silent owner := by
  cases m with
  | field gap d => exact iff_of_true rfl trivial
  | signature gap name parameters result =>
    cases owner with
    | interface =>
      change parameters.dropLast.map (·.property line) = [] ↔ parameters.length ≤ 1
      rw [List.map_eq_nil_iff, ← List.length_eq_zero_iff, List.length_dropLast]
      omega
    | class_ =>
      cases parameters with
      | nil => exact iff_of_false (List.cons_ne_nil _ _) fun h => h rfl
      | cons first more => exact iff_of_true rfl (List.cons_ne_nil _ _)

theorem declared_length_le (m : Member) (line : UInt64) :
    (m.declared line).length ≤ (m.reported owner line).length := by
  cases m with
  | field gap d => exact Nat.le_refl _
  | signature gap name parameters result => exact Nat.zero_le _

/-- The properties are the declared fields just where nothing else is reported for any member. -/
theorem collect_eq_iff (before : Text) (members : List Member) :
    Member.collect owner (Member.reported owner) before members =
      Member.collect owner Member.declared before members ↔ ∀ m ∈ members, m.Silent owner := by
  have hlength : ∀ (before : Text) (members : List Member),
      (Member.collect owner Member.declared before members).length ≤
        (Member.collect owner (Member.reported owner) before members).length := by
    intro before members
    induction members generalizing before with
    | nil => exact Nat.le_refl _
    | cons m members ih =>
      simp only [Member.collect, List.length_append]
      exact Nat.add_le_add (declared_length_le owner m _) (ih _)
  induction members generalizing before with
  | nil => exact iff_of_true rfl (List.forall_mem_nil _)
  | cons m members ih =>
    have hm := declared_length_le owner m (.ofNat ((before ++ m.gap).count '\n' + 1))
    have hmore := hlength (before ++ m.text owner) members
    rw [Member.collect, Member.collect, List.forall_mem_cons,
      ← reported_eq_declared_iff owner m (.ofNat ((before ++ m.gap).count '\n' + 1))]
    constructor
    · intro h
      -- neither part is shorter than what is declared, so both are as long
      have hlengths := congrArg List.length h
      rw [List.length_append, List.length_append] at hlengths
      obtain ⟨hhere, hlater⟩ := List.append_inj h (by omega)
      exact ⟨hhere, (ih _).mp hlater⟩
    · rintro ⟨hhere, hlater⟩
      rw [hhere, (ih _).mpr hlater]

end

/-! ### Descriptions -/

/-- The text between the braces of a body. -/
def bodyText (owner : FieldOwner) (members : List Member) (last : Gap) : Text :=
  members.flatMap (Member.text owner) ++ last.text

theorem bodyText_not_brace (owner : FieldOwner) (members : List Member) (last : Gap) :
    ∀ c ∈ bodyText owner members last, c ≠ '{' ∧ c ≠ '}' := by
  refine List.forall_mem_append.mpr ⟨fun c hc => ?_, fun c hc => not_brace_of_blank (last.blank c hc)⟩
  obtain ⟨m, -, hm⟩ := List.mem_flatMap.mp hc
  rcases List.mem_append.mp hm with hgap | hcontent
  · refine not_brace_of_blank ?_
    cases m <;> exact Gap.blank _ c hgap
  · have hword := content_wordOr owner m c hcontent
    exact ⟨ne_of_wordOr hword (by decide), ne_of_wordOr hword (by decide)⟩

theorem maskedBody?_plain {header : Match} {before body rest : Text} (hbody : ∀ c ∈ body, c ≠ '{' ∧ c ≠ '}')
    (hlies : header.LiesBehind (before ++ (body ++ '}' :: rest)).start) (hlast : header.stop.before = some '{')
    (hstop : header.stop.offset = before.width) :
    maskedBody? (before ++ (body ++ '}' :: rest)) header = some ⟨none, before.width, body⟩ := by
  obtain ⟨front, hsplit, hoffset⟩ := hlies.opening hlast
  have hwidth : before.width = (front ++ ['{']).width := by
    rw [← hstop, hoffset, Text.width_append]
    rfl
  have hbefore : before = front ++ ['{'] := by
    rw [← Text.takeBytes_width before (body ++ '}' :: rest), hwidth, hsplit, ← List.singleton_append,
      ← List.append_assoc, Text.takeBytes_width]
  have hmask := maskFrom_plain body [] hbody
  rw [List.append_nil, maskFrom, List.append_nil] at hmask
  have hmasked := maskedBody?_balanced front body rest (Text.leads_plain 0 body hbody) header hoffset
  rw [maskNested, hmask, ← hoffset, hstop] at hmasked
  have htext : before ++ (body ++ '}' :: rest) = front ++ '{' :: (body ++ '}' :: rest) := by
    rw [hbefore, List.append_assoc]
    rfl
  rw [htext]
  exact hmasked

theorem describe?_interfaces {t : Text} {d : Description} (h : describe? .typeScript t = some d) :
    (interfaceHeader.findAll t).mapM (interfaceOf? t (.ofText t)) = some d.interfaces := by
  simp only [describe?, Option.bind_eq_bind, Option.bind_eq_some_iff] at h
  obtain ⟨classes, -, functions, -, interfaces, hinterfaces, h⟩ := h
  cases h
  exact hinterfaces

/-- A body without opening braces has neither constructors nor methods. -/
theorem no_blocks {body : Cursor} (hbody : '{' ∉ body.rest) :
    constructorHeader.findAllFrom body = [] ∧ methodHeader.findAllFrom body = [] := by
  have hnone : ∀ r : Regex, (r ++ char '{').findAllFrom body = [] := by
    refine fun r => findAllFrom_eq_nil _ body ?_
    rintro _ ⟨u, v, -, hv, rfl⟩
    rw [(accepts_char '{' v).mp hv]
    exact ⟨'{', List.mem_append_right u (List.mem_singleton.mpr rfl), hbody⟩
  exact ⟨hnone _, hnone _⟩

theorem withMembers?_fields {t : Text} {lines : LineIndex} {body : Cursor} (hbody : '{' ∉ body.rest) (c : ClassDecl) :
    withMembers? t lines body c =
      some
        { c with
          constructors := []
          methods := []
          properties := FieldOwner.class_.fields lines body.rest.length body } := by
  obtain ⟨hconstructors, hmethods⟩ := no_blocks hbody
  have hproperties : (property.findAllFrom body).filter (!·.overlapsAny []) = property.findAllFrom body :=
    List.filter_eq_self.mpr fun _ _ => rfl
  simp only [withMembers?, hconstructors, hmethods, List.filter_nil, List.append_nil, hproperties]
  rfl

/-- How the properties of a body behind a text relate to its members. -/
structure FieldOwner.Reads (owner : FieldOwner) (before : Text) (members : List Member) (properties : List Property) :
    Prop where
  reported : properties = Member.collect owner (Member.reported owner) before members
  declared : properties = Member.collect owner Member.declared before members ↔ ∀ m ∈ members, m.Silent owner

theorem FieldOwner.reads_of (owner : FieldOwner) {before : Text} {members : List Member} {properties : List Property}
    (h : properties = Member.collect owner (Member.reported owner) before members) :
    owner.Reads before members properties :=
  ⟨h, by rw [h]; exact collect_eq_iff owner before members⟩

/-- A text with the body of an interface or a class in it. -/
def withBody (owner : FieldOwner) (members : List Member) (last : Gap) (before rest : Text) : Text :=
  before ++ (bodyText owner members last ++ '}' :: rest)

section

variable (members : List Member) (last : Gap) (before rest : Text)

theorem extract_typeScript {t : Text} (hcuts : ¬Language.typeScript.Cuts t) :
    ∃ d, Registry.standard.extract .typeScript t = .ok d ∧ describe? .typeScript t = some d := by
  obtain ⟨d, hd⟩ : ∃ d, typeRules.describe? t = some d := by
    refine Option.ne_none_iff_exists'.mp fun hnone => hcuts ?_
    exact (Language.typeScript.cuts_iff t (by decide)).mpr ((typeRules.describe?_eq_none t).mp hnone)
  exact ⟨d, by rw [typeRules.extract_eq, hd, foundOrCut], hd⟩

theorem interface_reads {d : Description}
    (hd : describe? .typeScript (withBody .interface members last before rest) = some d) :
    ∀ header ∈ interfaceHeader.findAll (withBody .interface members last before rest),
      header.stop.offset = before.width → ∃ i ∈ d.interfaces, i.name = header.string 1 ∧
        i.line = (LineIndex.ofText (withBody .interface members last before rest)).lineNumber header.start.offset ∧
        FieldOwner.interface.Reads before members i.properties := by
  intro header hheader hstop
  obtain ⟨i, hi, hread⟩ := mapM_of_mem (describe?_interfaces hd) hheader
  have hbody := maskedBody?_plain (bodyText_not_brace .interface members last)
    (scan_liesBehind _ _ _ header hheader) (scan_char _ _ '{' _ header hheader) hstop
  rw [interfaceOf?, withBody, hbody, Option.map_some, Option.some_inj] at hread
  refine ⟨i, hi, by rw [← hread], by rw [← hread]; rfl, FieldOwner.reads_of _ ?_⟩
  rw [← hread]
  exact fields_body .interface members (fun h => nomatch h) last rfl rfl rfl

theorem class_reads (hplain : ∀ m ∈ members, m.Plain) {d : Description}
    (hd : describe? .typeScript (withBody .class_ members last before rest) = some d) :
    ∀ header ∈ classHeader.findAll (withBody .class_ members last before rest),
      header.stop.offset = before.width → ∃ c ∈ d.classes, c.name = header.string 1 ∧
        c.line = (LineIndex.ofText (withBody .class_ members last before rest)).lineNumber header.start.offset ∧
        c.constructors = [] ∧ c.methods = [] ∧ FieldOwner.class_.Reads before members c.properties := by
  intro header hheader hstop
  obtain ⟨c, hc, hclass⟩ := mapM_of_mem (describe?_parts hd).1 hheader
  have hread := (congrFun (classOf?_eq _) header).symm.trans hclass
  have hbody := maskedBody?_plain (bodyText_not_brace .class_ members last)
    (scan_liesBehind _ _ _ header hheader) (scan_char _ _ '{' _ header hheader) hstop
  have hbrace : '{' ∉ bodyText .class_ members last := fun h => (bodyText_not_brace .class_ members last _ h).1 rfl
  rw [withBody, hbody, Option.bind_some, classWith?, withMembers?_fields hbrace, Option.some_inj] at hread
  refine ⟨c, hc, by rw [← hread], by rw [← hread]; rfl, by rw [← hread], by rw [← hread], FieldOwner.reads_of _ ?_⟩
  rw [← hread]
  exact fields_body .class_ members (fun _ => hplain) last rfl rfl rfl

/-- Of an interface and of a class whose body has only fields and signatures, the declared fields are reported in
order; and besides them the parameters of each signature of the interface but the last, and the result of each
signature of the class that has no parameters. So exactly the fields are reported where the signatures of the
interface have at most one parameter, and those of the class at least one. -/
theorem extract_signatures :
    (¬Language.typeScript.Cuts (withBody .interface members last before rest) →
      ∃ d, Registry.standard.extract .typeScript (withBody .interface members last before rest) = .ok d ∧
        ∀ header ∈ interfaceHeader.findAll (withBody .interface members last before rest),
          header.stop.offset = before.width → ∃ i ∈ d.interfaces, i.name = header.string 1 ∧
            i.line = (LineIndex.ofText (withBody .interface members last before rest)).lineNumber header.start.offset ∧
            FieldOwner.interface.Reads before members i.properties) ∧
    ((∀ m ∈ members, m.Plain) → ¬Language.typeScript.Cuts (withBody .class_ members last before rest) →
      ∃ d, Registry.standard.extract .typeScript (withBody .class_ members last before rest) = .ok d ∧
        ∀ header ∈ classHeader.findAll (withBody .class_ members last before rest),
          header.stop.offset = before.width → ∃ c ∈ d.classes, c.name = header.string 1 ∧
            c.line = (LineIndex.ofText (withBody .class_ members last before rest)).lineNumber header.start.offset ∧
            c.constructors = [] ∧ c.methods = [] ∧ FieldOwner.class_.Reads before members c.properties) := by
  refine ⟨fun hcuts => ?_, fun hplain hcuts => ?_⟩
  · obtain ⟨d, hextract, hd⟩ := extract_typeScript hcuts
    exact ⟨d, hextract, interface_reads members last before rest hd⟩
  · obtain ⟨d, hextract, hd⟩ := extract_typeScript hcuts
    exact ⟨d, hextract, class_reads members last before rest hplain hd⟩

end

/-- `m(a: X, b: Y): R;` -/
def twoParameters : Member :=
  .signature .space (.ofString "m" (by decide))
    [⟨.ofString "a" (by decide), .ofString "X" (by decide)⟩, ⟨.ofString "b" (by decide), .ofString "Y" (by decide)⟩]
    (.ofString "R" (by decide))

/-- `f: T;` -/
def oneField : Member :=
  .field .space ⟨.ofString "f" (by decide), .ofString "T" (by decide)⟩

theorem extract_signatures_fields :
    (∃ d, Registry.standard.extract .typeScript "interface N \x7b f: T; m(a: X, b: Y): R; \x7d".toList = .ok d ∧
      ∃ i ∈ d.interfaces, i.name = "N" ∧ i.properties.map (·.name) = ["f", "a"]) ∧
    ∃ d, Registry.standard.extract .typeScript "abstract class N \x7b f: T; abstract m(a: X, b: Y): R; \x7d".toList =
        .ok d ∧
      ∃ c ∈ d.classes, c.name = "N" ∧ c.properties.map (·.name) = ["f"] := by
  have hplain : ∀ m ∈ [oneField, twoParameters], m.Plain :=
    List.forall_mem_cons.mpr ⟨rfl, List.forall_mem_singleton.mpr rfl⟩
  constructor
  · obtain ⟨d, hd, hfound⟩ := (extract_signatures [oneField, twoParameters] .space "interface N \x7b".toList []).1
      (Language.not_cuts (c := '}') rfl rfl)
    obtain ⟨header, hheader, hstop, hname⟩ : ∃ header ∈ interfaceHeader.findAll
        (withBody .interface [oneField, twoParameters] .space "interface N \x7b".toList []),
        header.stop.offset = Text.width "interface N \x7b".toList ∧ header.string 1 = "N" := by decide +kernel
    obtain ⟨i, hi, hnamed, -, hreads⟩ := hfound header hheader hstop
    exact ⟨d, hd, i, hi, hnamed.trans hname, by rw [hreads.reported]; rfl⟩
  · obtain ⟨d, hd, hfound⟩ := (extract_signatures [oneField, twoParameters] .space "abstract class N \x7b".toList
      []).2 hplain (Language.not_cuts (c := '}') rfl rfl)
    obtain ⟨header, hheader, hstop, hname⟩ : ∃ header ∈ classHeader.findAll
        (withBody .class_ [oneField, twoParameters] .space "abstract class N \x7b".toList []),
        header.stop.offset = Text.width "abstract class N \x7b".toList ∧ header.string 1 = "N" := by decide +kernel
    obtain ⟨c, hc, hnamed, -, -, -, hreads⟩ := hfound header hheader hstop
    exact ⟨d, hd, c, hc, hnamed.trans hname, by rw [hreads.reported]; rfl⟩

/-- The first of two parameters of a method is reported as a property of the interface. -/
theorem extract_signatures_parameter :
    withBody .interface [twoParameters] .space "interface N \x7b".toList [] =
        "interface N \x7b m(a: X, b: Y): R; \x7d".toList ∧
      Member.collect .interface Member.declared "interface N \x7b".toList [twoParameters] = [] ∧
      (Registry.standard.extract .typeScript "interface N \x7b m(a: X, b: Y): R; \x7d".toList).map
        (fun d => d.interfaces.map fun i => i.properties.map (·.name)) = .ok [["a"]] := by
  refine ⟨rfl, rfl, ?_⟩
  decide +kernel

end CodeIndex.JavaScript
