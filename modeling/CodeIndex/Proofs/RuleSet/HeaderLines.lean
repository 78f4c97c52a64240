import CodeIndex.Proofs.Regex.Names
import CodeIndex.Proofs.Regex.Walk
import CodeIndex.Proofs.Text.Brace
import CodeIndex.RuleSet.Python

/-!
# Lines of declarations

Class headers, function headers and `pass` statements, each on a line of its own behind its indentation. The two
header rules hold on to the starts of lines. So a scan goes from line to line: it takes all of a line with a
header of its kind, and nothing of any other line.
-/

namespace CodeIndex.Python

open Regex

/-! ### Lines -/

inductive Statement where
  | ofClass (name : Name) (bases : Option (List Name))
  | ofFunction (name : Name) (parameters : List Name)
  | pass

/-- The list of bases behind the name of a class, which may be left out. -/
def basesClause : Option (List Name) → Text
  | none => []
  | some bases => ['('] ++ (Name.joined bases ++ [')'])

def Statement.text : Statement → Text
  | .ofClass name bases => "class".toList ++ ([' '] ++ (name.text ++ (basesClause bases ++ [':'])))
  | .ofFunction name parameters =>
    "def".toList ++ ([' '] ++ (name.text ++ (['('] ++ (Name.joined parameters ++ ([')'] ++ [':'])))))
  | .pass => "pass".toList

structure Line where
  depth : Nat
  statement : Statement

namespace Line

/-- Four spaces for each level. -/
def indent (l : Line) : Text :=
  List.replicate (4 * l.depth) ' '

def text (l : Line) : Text :=
  l.indent ++ l.statement.text

def full (l : Line) : Text :=
  l.text ++ ['\n']

theorem full_append (l : Line) (rest : Text) : l.full ++ rest = l.text ++ '\n' :: rest :=
  List.append_assoc ..

theorem indent_width (l : Line) : l.indent.width = 4 * l.depth :=
  Text.width_spaces _

end Line

/-- The text of some lines. -/
def source (lines : List Line) : Text :=
  lines.flatMap Line.full

theorem source_cons (l : Line) (lines : List Line) : source (l :: lines) = l.full ++ source lines := rfl

theorem source_append (a b : List Line) : source (a ++ b) = source a ++ source b :=
  List.flatMap_append

/-! ### Characters of lines -/

/-- A statement begins with the letter of its keyword. -/
theorem Statement.begins (s : Statement) : ∃ c more, s.text = c :: more ∧ c ∈ ['c', 'd', 'p'] := by
  cases s with
  | ofClass name bases => exact ⟨'c', _, rfl, by decide⟩
  | ofFunction name parameters => exact ⟨'d', _, rfl, by decide⟩
  | pass => exact ⟨'p', _, rfl, by decide⟩

theorem joined_plain (names : List Name) {d : Char} (hword : isWord d = false) (hd : d ≠ ',' ∧ d ≠ ' ') :
    ∀ c ∈ Name.joined names, c ≠ d := by
  rintro c hc rfl
  obtain h | h | h := Name.joined_mem names c hc
  · rw [hword] at h
    cases h
  · exact hd.1 h
  · exact hd.2 h

theorem Statement.one_line (s : Statement) : '\n' ∉ s.text := by
  have hname : ∀ n : Name, '\n' ∉ n.text := fun n => n.not_mem (by decide)
  have hjoined : ∀ names : List Name, '\n' ∉ Name.joined names := fun names h =>
    joined_plain names (by decide) (by decide) _ h rfl
  have hbases : ∀ bases : Option (List Name), '\n' ∉ basesClause bases := by
    intro bases
    cases bases with
    | none => exact List.not_mem_nil
    | some bases => simp [basesClause, hjoined bases]
  cases s with
  | ofClass name bases => simp [Statement.text, hname name, hbases bases]
  | ofFunction name parameters => simp [Statement.text, hname name, hjoined parameters]
  | pass => exact of_decide_eq_false rfl

theorem Line.one_line (l : Line) : '\n' ∉ l.text := by
  have hindent : '\n' ∉ l.indent := fun h => absurd (List.eq_of_mem_replicate h) (by decide)
  exact fun h => (List.mem_append.mp h).elim hindent l.statement.one_line

theorem Line.text_ne_nil (l : Line) : l.text ≠ [] := by
  obtain ⟨c, more, htext, -⟩ := l.statement.begins
  rw [Line.text, htext]
  exact List.append_ne_nil_of_right_ne_nil _ (List.cons_ne_nil c more)

/-! ### Starts of lines -/

variable {fuel : Nat} {p : Cursor}

/-- Whether a place is the start of a line. -/
def StartsLine (p : Cursor) : Prop :=
  Anchor.lineStart.holds p = true

/-- Behind the indentation of a line there is no tab and no space. -/
theorem behind_indent (l : Line) (rest : Text) (c : Char) (tail : Text)
    (h : l.statement.text ++ rest = c :: tail) : isTabOrSpace c = false := by
  obtain ⟨d, more, htext, hd⟩ := l.statement.begins
  rw [htext] at h
  obtain ⟨rfl, -⟩ := List.cons.inj h
  have hletters : ∀ c ∈ ['c', 'd', 'p'], isTabOrSpace c = false := Text.forall_mem _ (by decide)
  exact hletters d hd

theorem indentation_takes (l : Line) {rest : Text} (hp : StartsLine p) (h : p.rest = l.text ++ rest) :
    indentation.Takes fuel p l.indent (l.statement.text ++ rest) [(1, ⟨p, p.offset + l.indent.width⟩)] := by
  rw [Line.text, List.append_assoc] at h
  have hspaces : ∀ c ∈ l.indent, isTabOrSpace c = true := fun c hc => by
    rw [List.eq_of_mem_replicate hc]
    rfl
  exact (takes_anchor hp h).nothing_seq ((takes_many h hspaces (behind_indent l rest)).group 1)

/-- Behind its indentation a line begins with a letter that the expression does not begin with. -/
theorem line_refuses {s : Regex} (hs : s.mayPassNothing = false)
    (hbegin : s.BeginsIn (isTabOrSpace · = false)) (l : Line) {rest : Text}
    (h : p.rest = l.text ++ rest) (hl : ∀ c more, l.statement.text = c :: more → s.mayBegin c = false) :
    (indentation ++ s).Refuses fuel p := by
  obtain ⟨d, more, htext, hd⟩ := l.statement.begins
  have hrest : p.rest = l.indent ++ d :: (more ++ rest) := by
    rw [h, Line.text, htext, List.append_assoc, List.cons_append]
  have hspaces : ∀ c ∈ l.indent, isTabOrSpace c = true := fun c hc => by
    rw [List.eq_of_mem_replicate hc]
    rfl
  have htabs : ∀ u, indentation.Accepts u → ∀ c ∈ u, isTabOrSpace c = true := by
    rintro _ ⟨_, v, rfl, hv, rfl⟩
    exact hv
  exact refuses_behind_run htabs hs hbegin hrest hspaces
    (behind_indent l rest d (more ++ rest) (by rw [htext, List.cons_append])) (hl d more htext)

/-! ### Rules of lines -/

/-- What the rules read of a header: where it starts and stops, how deep it is, and its content. -/
structure Header (β : Type) where
  start : Nat
  stop : Nat
  indent : Nat
  content : β

variable {β : Type}

def headerOf (content : Match → β) (m : Match) : Header β :=
  ⟨m.start.offset, m.stop.offset, indentOfMatch m, content m⟩

/-- A line at an offset, and the lines behind it. -/
structure Placed where
  offset : Nat
  line : Line
  later : List Line

def placed (offset : Nat) : List Line → List Placed
  | [] => []
  | l :: later => ⟨offset, l, later⟩ :: placed (offset + l.full.width) later

def Placed.header (x : Placed) (content : β) : Header β :=
  ⟨x.offset, x.offset + x.line.text.width, 4 * x.line.depth, content⟩

/-- The headers among some lines. -/
def headersOf (read? : Statement → Option β) (lines : List Placed) : List (Header β) :=
  lines.filterMap fun x => (read? x.line.statement).map x.header

/-- Whether a rule takes the lines that can be read, all of each, and refuses all other lines. -/
structure ReadsLines (r : Regex) (content : Match → β) (read? : Statement → Option β) : Prop where
  passes : r.mayPassNothing = false
  anchored : ∀ fuel p, ¬StartsLine p → r.Refuses fuel p
  takes : ∀ fuel p (l : Line) rest b, StartsLine p → p.rest = l.text ++ '\n' :: rest →
    read? l.statement = some b → ∃ groups, r.Takes fuel p l.text ('\n' :: rest) groups ∧
      headerOf content ⟨p, p.after l.text ('\n' :: rest), groups⟩ =
        ⟨p.offset, p.offset + l.text.width, 4 * l.depth, b⟩
  refuses : ∀ fuel p (l : Line) rest, p.rest = l.text ++ '\n' :: rest → read? l.statement = none →
    r.Refuses fuel p

namespace ReadsLines

variable {r : Regex} {content : Match → β} {read? : Statement → Option β}

/-- No place inside of a line is the start of a line. -/
theorem inside (h : ReadsLines r content read?) (l : Line) (p : Cursor) (a b : Text) (c : Char) (rest : Text)
    (ha : a ≠ []) (hab : l.full = a ++ c :: b) : r.matchAt? fuel (p.after a (c :: (b ++ rest))) = none := by
  refine Refuses.matchAt? (h.anchored fuel _ fun hstart => l.one_line ?_)
  obtain ⟨front, last, rfl⟩ : ∃ front last, a = front ++ [last] := by
    rw [← List.dropLast_concat_getLast ha]
    exact ⟨_, _, rfl⟩
  have hlast : last = '\n' := by
    have hbefore : (p.after (front ++ [last]) (c :: (b ++ rest))).before = some last := by
      rw [Cursor.after, List.getLast?_concat, Option.some_or]
    rw [StartsLine, Anchor.holds, hbefore] at hstart
    exact beq_iff_eq.mp hstart
  have htext : l.text = front ++ [last] ++ (c :: b).dropLast := by
    have hdrop := congrArg List.dropLast hab
    rwa [Line.full, List.dropLast_concat, List.dropLast_append_of_ne_nil (List.cons_ne_nil c b)] at hdrop
  rw [htext, hlast]
  exact List.mem_append_left _ (List.mem_append_right front (List.mem_singleton.mpr rfl))

theorem skip (h : ReadsLines r content read?) (l : Line) {rest : Text} (hrest : p.rest = l.full ++ rest)
    (hl : read? l.statement = none) : r.found fuel p = r.found fuel (p.after l.full rest) := by
  refine found_skip p l.full rest hrest fun a c b hab => ?_
  by_cases ha : a = []
  · subst ha
    have hhere : p.rest = c :: (b ++ rest) := by rw [hrest, hab, List.nil_append, List.cons_append]
    rw [Cursor.after_nil hhere]
    exact (h.refuses fuel p l rest (hrest.trans (l.full_append rest)) hl).matchAt?
  · exact h.inside l p a b c rest ha hab

theorem take (h : ReadsLines r content read?) (l : Line) {rest : Text} {b : β} (hp : StartsLine p)
    (hrest : p.rest = l.full ++ rest) (hl : read? l.statement = some b) :
    (r.found fuel p).map (headerOf content) =
      ⟨p.offset, p.offset + l.text.width, 4 * l.depth, b⟩ ::
        (r.found fuel (p.after l.full rest)).map (headerOf content) := by
  obtain ⟨groups, htakes, hheader⟩ := h.takes fuel p l rest b hp (hrest.trans (l.full_append rest)) hl
  have hfeed : r.found fuel (p.after l.text ('\n' :: rest)) = r.found fuel (p.after l.full rest) := by
    have hskip := @found_skip fuel r (p.after l.text ('\n' :: rest)) ['\n'] rest rfl ?_
    · rwa [Cursor.after_after] at hskip
    intro a c b hab
    obtain ⟨rfl, rfl, rfl⟩ : a = [] ∧ c = '\n' ∧ b = [] := by
      cases a with
      | nil =>
        obtain ⟨rfl, rfl⟩ := List.cons.inj hab
        exact ⟨rfl, rfl, rfl⟩
      | cons d a =>
        obtain ⟨-, hab⟩ := List.cons.inj hab
        cases a <;> cases hab
    rw [List.nil_append, Cursor.after_nil (p.after_rest l.text _)]
    exact h.inside l p l.text [] '\n' rest l.text_ne_nil rfl
  rw [found_take htakes l.text_ne_nil, List.map_cons, hheader, hfeed]

/-- A scan finds the headers of its kind, line after line. -/
theorem found (h : ReadsLines r content read?) (fuel : Nat) (p : Cursor) (lines : List Line) (hp : StartsLine p)
    (hrest : p.rest = source lines) :
    (r.found fuel p).map (headerOf content) = headersOf read? (placed p.offset lines) := by
  induction lines generalizing p with
  | nil =>
    rw [found_end h.passes hrest]
    rfl
  | cons l later ih =>
    have hmore := ih (p.after l.full (source later)) (by
      rw [StartsLine, Anchor.holds, Cursor.after, Line.full, List.getLast?_concat]
      rfl) rfl
    rw [source_cons] at hrest
    rw [placed, headersOf]
    cases hl : read? l.statement with
    | none =>
      rw [h.skip l hrest hl, hmore, List.filterMap_cons_none (by rw [hl]; rfl)]
      rfl
    | some b =>
      rw [h.take l hp hrest hl, hmore, List.filterMap_cons_some (by rw [hl]; rfl)]
      rfl

end ReadsLines

/-! ### Class headers -/

/-- The name of a class and its bases. -/
def Statement.class? : Statement → Option (String × List String)
  | .ofClass name bases => some (name.string, (bases.getD []).map Name.string)
  | .ofFunction _ _ => none
  | .pass => none

theorem clause_takes (bases : Option (List Name)) {rest : Text} (h : p.rest = basesClause bases ++ ([':'] ++ rest)) :
    ∃ added, (opt (blanks ++ char '(' ++ .group 3 (any (· != ')')) ++ char ')')).Takes fuel p (basesClause bases)
        ([':'] ++ rest) added ∧ Carries 3 added (bases.map Name.joined) := by
  cases bases with
  | none =>
    exact ⟨[], (refuses_at h rfl rfl).takes_opt h, rfl⟩
  | some bases =>
    have hlist : ∀ c ∈ Name.joined bases, (c != ')') = true := fun c hc =>
      bne_iff_ne.mpr (joined_plain bases (by decide) (by decide) c hc)
    simp only [basesClause, List.append_assoc] at h ⊢
    have hopened := (@takes_no_blanks fuel _ _ _ h rfl).nothing_seq (takes_char h)
    have hnames := hopened.seq ((takes_many rfl hlist (outside_head rfl)).group 3)
    have hclosed := (hnames.seq (takes_char rfl)).opt
    rw [List.append_assoc] at hclosed
    exact ⟨_, hclosed, _, rfl, Cursor.span_text rfl⟩

/-- What comes behind the name of a class is no part of the name. -/
theorem behind_class (bases : Option (List Name)) (rest : Text) :
    ∃ d later, basesClause bases ++ ([':'] ++ rest) = d :: later ∧ isWord d = false := by
  cases bases with
  | none => exact ⟨':', rest, rfl, by decide⟩
  | some bases => exact ⟨'(', _, rfl, by decide⟩

theorem classHeader_takes (l : Line) {name : Name} {bases : Option (List Name)} {rest : Text}
    (hl : l.statement = .ofClass name bases) (hp : StartsLine p) (h : p.rest = l.text ++ '\n' :: rest) :
    ∃ added, classHeader.Takes fuel p l.text ('\n' :: rest) added ∧
      (added.lookup 1).map Span.text = some l.indent ∧ (added.lookup 2).map Span.text = some name.text ∧
      (added.lookup 3).map Span.text = bases.map Name.joined := by
  have hindent := @indentation_takes fuel p l _ hp h
  obtain ⟨d, later, hbehind, hd⟩ := behind_class bases ('\n' :: rest)
  have hstatement : l.statement.text ++ '\n' :: rest =
      "class".toList ++ ([' '] ++ (name.text ++ (basesClause bases ++ ([':'] ++ '\n' :: rest)))) := by
    simp only [hl, Statement.text, List.append_assoc]
  have htext : l.text = l.indent ++ "class".toList ++ [' '] ++ name.text ++ basesClause bases ++ [':'] := by
    simp only [Line.text, hl, Statement.text, List.append_assoc]
  have hspan : p.rest = l.indent ++ (l.statement.text ++ '\n' :: rest) := by rw [h, Line.text, List.append_assoc]
  rw [hstatement] at hindent
  have hword := hindent.seq (takes_lit rfl)
  have hnamed := (hword.seq (takes_space_name name rfl)).seq ((takes_some1 name.nonempty rfl name.word
    fun e tail he => outside_head hd e tail (hbehind.symm.trans he)).group 2)
  let place := p.after (l.indent ++ "class".toList ++ [' '] ++ name.text) (basesClause bases ++ ([':'] ++ '\n' :: rest))
  obtain ⟨added, hclause, hcarries⟩ := @clause_takes fuel place bases ('\n' :: rest) rfl
  have hall := ((hnamed.seq hclause).seq_nothing (takes_no_blanks rfl rfl)).seq (takes_char rfl)
  rw [← htext] at hall
  refine ⟨_, hall, ?_, ?_, ?_⟩
  · rw [List.nil_append, hcarries.lookup_of_ne _ (by decide)]
    exact congrArg some (Cursor.span_text hspan)
  · rw [List.nil_append, hcarries.lookup_of_ne _ (by decide)]
    exact congrArg some (Cursor.span_text rfl)
  · rw [List.nil_append]
    exact hcarries.lookup _ rfl

/-- Bases that are names are all kept. -/
theorem basesOf_names (m : Match) (bases : List Name) (h : m.group 3 = Name.joined bases) :
    basesOf m = bases.map Name.string := by
  have hplain : ∀ t ∈ bases.map Name.text, (!t.contains '=') = true := by
    intro t ht
    obtain ⟨n, -, rfl⟩ := List.mem_map.mp ht
    have hnot : '=' ∉ n.text := n.not_mem (by decide)
    rw [List.contains_eq_mem, decide_eq_false hnot]
    rfl
  rw [basesOf, h, commaList_joined, List.filter_eq_self.mpr hplain, List.map_map]
  rfl

theorem classHeader_reads : ReadsLines classHeader (fun m => (m.string 2, basesOf m)) Statement.class? where
  passes := rfl
  anchored fuel p hp := by
    have hanchor : (Regex.anchor .lineStart).Refuses fuel p := refuses_anchor (Bool.eq_false_iff.mpr hp)
    exact ((((((hanchor.seq _).seq _).seq _).seq _).seq _).seq _).seq _
  takes fuel p l rest b hp h hread := by
    cases hl : l.statement with
    | ofClass name bases =>
      rw [hl] at hread
      obtain rfl := Option.some.inj hread
      obtain ⟨added, htakes, hindent, hname, hbases⟩ := @classHeader_takes fuel p l name bases rest hl hp h
      refine ⟨added, htakes, ?_⟩
      let m : Match := ⟨p, p.after l.text ('\n' :: rest), added⟩
      have hfirst : m.group 1 = l.indent := congrArg (Option.getD · []) hindent
      have hsecond : m.group 2 = name.text := congrArg (Option.getD · []) hname
      have hthird : m.group 3 = Name.joined (bases.getD []) := by
        refine (congrArg (Option.getD · []) hbases).trans ?_
        cases bases <;> rfl
      rw [headerOf, indentOfMatch, hfirst, l.indent_width, Match.string, hsecond, basesOf_names m _ hthird]
      rfl
    | ofFunction name parameters =>
      rw [hl] at hread
      cases hread
    | pass =>
      rw [hl] at hread
      cases hread
  refuses fuel p l rest h hread := by
    have hbegin : (lit "class").BeginsIn (isTabOrSpace · = false) := beginsIn_lit fun c hc => by
      obtain rfl := Option.some.inj hc
      rfl
    have hword : (indentation ++ lit "class").Refuses fuel p := by
      refine line_refuses rfl hbegin l h fun c more htext => ?_
      cases hl : l.statement with
      | ofClass name bases =>
        rw [hl] at hread
        cases hread
      | ofFunction name parameters =>
        rw [hl] at htext
        obtain ⟨rfl, -⟩ := List.cons.inj htext
        rfl
      | pass =>
        rw [hl] at htext
        obtain ⟨rfl, -⟩ := List.cons.inj htext
        rfl
    exact ((((hword.seq _).seq _).seq _).seq _).seq _

/-! ### Function headers -/

def Statement.function? : Statement → Option String
  | .ofClass _ _ => none
  | .ofFunction name _ => some name.string
  | .pass => none

theorem functionHeader_takes (l : Line) {name : Name} {parameters : List Name} {rest : Text}
    (hl : l.statement = .ofFunction name parameters) (hp : StartsLine p) (h : p.rest = l.text ++ '\n' :: rest) :
    ∃ added, functionHeader.Takes fuel p l.text ('\n' :: rest) added ∧
      (added.lookup 1).map Span.text = some l.indent ∧ (added.lookup 3).map Span.text = some name.text := by
  have hindent := @indentation_takes fuel p l _ hp h
  have hstatement : l.statement.text ++ '\n' :: rest = "def".toList ++ ([' '] ++ (name.text ++ (['('] ++
      (Name.joined parameters ++ ([')'] ++ ([':'] ++ '\n' :: rest)))))) := by
    simp only [hl, Statement.text, List.append_assoc]
  have htext : l.text = l.indent ++ "def".toList ++ [' '] ++ name.text ++ ['('] ++ Name.joined parameters ++ [')']
      ++ [':'] := by
    simp only [Line.text, hl, Statement.text, List.append_assoc]
  have hspan : p.rest = l.indent ++ (l.statement.text ++ '\n' :: rest) := by rw [h, Line.text, List.append_assoc]
  have hlist : ∀ c ∈ Name.joined parameters, (c != ')') = true := fun c hc =>
    bne_iff_ne.mpr (joined_plain parameters (by decide) (by decide) c hc)
  rw [hstatement] at hindent
  have hasync : ∀ (q : Cursor) (later : Text), q.rest = "def".toList ++ later →
      (Regex.group 2 (lit "async" ++ blanks1)).Refuses fuel q := fun q later hq =>
    refuses_at hq rfl rfl
  have harrow : ∀ (q : Cursor) (later : Text), q.rest = [':'] ++ later →
      (blanks ++ lit "->" ++ blanks ++ .group 5 (few1 (· != ':'))).Refuses fuel q := fun q later hq =>
    refuses_at hq rfl rfl
  have hword := (hindent.seq_nothing ((hasync _ _ rfl).takes_opt rfl)).seq (takes_lit rfl)
  have hnamed := (hword.seq (takes_space_name name rfl)).seq ((takes_name name rfl (by decide)).group 3)
  have hopened := (hnamed.seq_nothing (takes_no_blanks rfl rfl)).seq (takes_char rfl)
  have hlisted := (hopened.seq ((takes_many rfl hlist (outside_head rfl)).group 4)).seq (takes_char rfl)
  have hall := ((hlisted.seq_nothing ((harrow _ _ rfl).takes_opt rfl)).seq_nothing (takes_no_blanks rfl rfl)).seq
    (takes_char rfl)
  rw [← htext] at hall
  refine ⟨_, hall, congrArg some (Cursor.span_text hspan), congrArg some (Cursor.span_text rfl)⟩

theorem functionHeader_reads : ReadsLines functionHeader (fun m => m.string 3) Statement.function? where
  passes := rfl
  anchored fuel p hp := by
    have hanchor : (Regex.anchor .lineStart).Refuses fuel p := refuses_anchor (Bool.eq_false_iff.mpr hp)
    exact (((((((((((hanchor.seq _).seq _).seq _).seq _).seq _).seq _).seq _).seq _).seq _).seq _).seq _).seq _
  takes fuel p l rest b hp h hread := by
    cases hl : l.statement with
    | ofClass name bases =>
      rw [hl] at hread
      cases hread
    | ofFunction name parameters =>
      rw [hl] at hread
      obtain rfl := Option.some.inj hread
      obtain ⟨added, htakes, hindent, hname⟩ := @functionHeader_takes fuel p l name parameters rest hl hp h
      refine ⟨added, htakes, ?_⟩
      let m : Match := ⟨p, p.after l.text ('\n' :: rest), added⟩
      have hfirst : m.group 1 = l.indent := congrArg (Option.getD · []) hindent
      have hthird : m.group 3 = name.text := congrArg (Option.getD · []) hname
      rw [headerOf, indentOfMatch, hfirst, l.indent_width, Match.string, hthird]
      rfl
    | pass =>
      rw [hl] at hread
      cases hread
  refuses fuel p l rest h hread := by
    have hasync : (lit "async").BeginsIn (isTabOrSpace · = false) := beginsIn_lit fun c hc => by
      obtain rfl := Option.some.inj hc
      rfl
    have hdef : (lit "def").BeginsIn (isTabOrSpace · = false) := beginsIn_lit fun c hc => by
      obtain rfl := Option.some.inj hc
      rfl
    have hgroup : (Regex.group 2 (lit "async" ++ blanks1)).BeginsIn (isTabOrSpace · = false) :=
      hasync.seq_of_some rfl blanks1
    have hword : (indentation ++ (opt (.group 2 (lit "async" ++ blanks1)) ++ lit "def")).Refuses fuel p := by
      refine line_refuses rfl (hgroup.opt.seq hdef) l h fun c more htext => ?_
      cases hl : l.statement with
      | ofClass name bases =>
        rw [hl] at htext
        obtain ⟨rfl, -⟩ := List.cons.inj htext
        rfl
      | ofFunction name parameters =>
        rw [hl] at hread
        cases hread
      | pass =>
        rw [hl] at htext
        obtain ⟨rfl, -⟩ := List.cons.inj htext
        rfl
    exact ((((((((hword.assoc.seq _).seq _).seq _).seq _).seq _).seq _).seq _).seq _).seq _

end CodeIndex.Python
