import CodeIndex.Proofs.RuleSet.ImportStatements

/-!
# Import rules

Where an import statement stands, the rule for its form takes it whole, up to its semicolon. The groups hold the
names and the module as they were written, whatever words the names are.
-/

namespace CodeIndex

namespace Regex

/-! ### Texts of groups -/

/-- Whether an expression takes a text and closes groups over the given texts, listed from the last one on. -/
def Reads (fuel : Nat) (r : Regex) (p : Cursor) (passed rest : Text) (held : List (Nat × Text)) : Prop :=
  ∃ added, r.Takes fuel p passed rest added ∧ added.map (fun g => (g.1, g.2.text)) = held

theorem lookup_text (label : Nat) (added : List (Nat × Span)) :
    (added.lookup label).map Span.text = (added.map fun g => (g.1, g.2.text)).lookup label := by
  induction added with
  | nil => rfl
  | cons g added ih =>
    rw [List.map_cons, List.lookup_cons, List.lookup_cons]
    cases label == g.1 with
    | true => rfl
    | false => exact ih

variable {fuel : Nat} {p : Cursor} {r s : Regex} {u v rest : Text} {held later : List (Nat × Text)}

theorem Takes.reads (h : r.Takes fuel p u rest []) : r.Reads fuel p u rest [] :=
  ⟨[], h, rfl⟩

theorem Takes.reads_group (h : r.Takes fuel p u rest []) (label : Nat) :
    (Regex.group label r).Reads fuel p u rest [(label, u)] :=
  ⟨_, h.group label, by rw [List.map_singleton, Cursor.span_text h.ahead]⟩

theorem Takes.then_reads (h : r.Takes fuel p u (v ++ rest) [])
    (h' : s.Reads fuel (p.after u (v ++ rest)) v rest held) : (r ++ s).Reads fuel p (u ++ v) rest held := by
  obtain ⟨added, htakes, hheld⟩ := h'
  exact ⟨added, h.then_takes htakes, hheld⟩

theorem Takes.nothing_reads (h : r.Takes fuel p [] (v ++ rest) []) (h' : s.Reads fuel p v rest held) :
    (r ++ s).Reads fuel p v rest held := by
  obtain ⟨added, htakes, hheld⟩ := h'
  exact ⟨added, h.nothing_seq htakes, hheld⟩

namespace Reads

theorem seq (h : r.Reads fuel p u (v ++ rest) held) (h' : s.Reads fuel (p.after u (v ++ rest)) v rest later) :
    (r ++ s).Reads fuel p (u ++ v) rest (later ++ held) := by
  obtain ⟨added, htakes, rfl⟩ := h
  obtain ⟨added', htakes', rfl⟩ := h'
  exact ⟨added' ++ added, htakes.seq htakes', List.map_append⟩

theorem then_takes (h : r.Reads fuel p u (v ++ rest) held) (h' : s.Takes fuel (p.after u (v ++ rest)) v rest []) :
    (r ++ s).Reads fuel p (u ++ v) rest held :=
  h.seq h'.reads

/-- Expressions with the same attempts, such as sequences in other groupings. -/
theorem of_attempt (h : r.Reads fuel p u rest held) (hsame : s.attempt fuel = r.attempt fuel) :
    s.Reads fuel p u rest held := by
  obtain ⟨added, htakes, hheld⟩ := h
  refine ⟨added, ⟨htakes.ahead, fun groups next done hnext => ?_⟩, hheld⟩
  rw [hsame]
  exact htakes.prefers groups next done hnext

theorem opt (h : r.Reads fuel p u rest held) : (Regex.opt r).Reads fuel p u rest held := by
  obtain ⟨added, htakes, hheld⟩ := h
  exact ⟨added, htakes.opt, hheld⟩

theorem oneOf (before : List Regex) {behind : List Regex} (hbefore : ∀ s ∈ before, s.Refuses fuel p)
    (h : r.Reads fuel p u rest held) : (Regex.oneOf (before ++ r :: behind)).Reads fuel p u rest held := by
  obtain ⟨added, htakes, hheld⟩ := h
  exact ⟨added, takes_oneOf before hbefore htakes, hheld⟩

/-- An option that what follows cannot do with. -/
theorem skip_opt (hrefuses : (r ++ s).Refuses fuel p) (h : s.Reads fuel p u rest held) :
    (Regex.opt r ++ s).Reads fuel p u rest held := by
  obtain ⟨added, htakes, hheld⟩ := h
  refine ⟨added, ⟨htakes.ahead, fun groups next done hnext => ?_⟩, hheld⟩
  have hattempt := hrefuses groups next
  rw [attempt_append] at hattempt
  rw [attempt_append, Regex.opt, attempt, hattempt]
  exact htakes.prefers groups next done hnext

theorem found (h : r.Reads fuel p u rest held) (hne : u ≠ []) :
    ∃ m : Match, r.found fuel p = m :: r.found fuel (p.after u rest) ∧ m.start = p ∧
      ∀ label, m.group? label = held.lookup label := by
  obtain ⟨added, htakes, rfl⟩ := h
  exact ⟨_, found_take htakes hne, rfl, fun label => lookup_text label added⟩

end Reads

/-! ### Texts in front -/

theorem reads_literal (word : Text) (h : p.rest = word ++ u ++ rest)
    (hs : s.Reads fuel (p.after word (u ++ rest)) u rest held) :
    (Regex.literal word ++ s).Reads fuel p (word ++ u) rest held :=
  (takes_literal (h.trans (List.append_assoc ..))).then_reads hs

theorem reads_char (c : Char) (h : p.rest = [c] ++ u ++ rest)
    (hs : s.Reads fuel (p.after [c] (u ++ rest)) u rest held) : (char c ++ s).Reads fuel p ([c] ++ u) rest held :=
  (takes_char (h.trans (List.append_assoc ..))).then_reads hs

theorem reads_gap (gap : Gap) (h : p.rest = gap.text ++ u ++ rest) (hu : (u ++ rest).head?.any isBlank = false)
    (hs : s.Reads fuel (p.after gap.text (u ++ rest)) u rest held) :
    (blanks ++ s).Reads fuel p (gap.text ++ u) rest held :=
  (JavaScript.takes_gap gap (h.trans (List.append_assoc ..)) hu).then_reads hs

theorem reads_space (h : p.rest = [' '] ++ u ++ rest) (hu : (u ++ rest).head?.any isBlank = false)
    (hs : s.Reads fuel (p.after [' '] (u ++ rest)) u rest held) :
    (blanks1 ++ s).Reads fuel p ([' '] ++ u) rest held :=
  (JavaScript.takes_spaces ⟨.space, List.cons_ne_nil _ _⟩ (h.trans (List.append_assoc ..)) hu).then_reads hs

theorem reads_between {a c : Char} {first accepts last : Char → Bool} {inner : Text} (label : Nat)
    (h : p.rest = (a :: (inner ++ [c])) ++ rest) (ha : first a = true) (hne : inner ≠ [])
    (hinner : ∀ e ∈ inner, accepts e = true) (hc : last c = true) (hstop : accepts c = false) :
    (Regex.one first ++ .group label (some1 accepts) ++ Regex.one last).Reads fuel p (a :: (inner ++ [c])) rest
      [(label, inner)] := by
  have hopen : (Regex.one first).Takes fuel p [a] (inner ++ ([c] ++ rest)) [] :=
    takes_one ha (by rw [h, List.cons_append, List.append_assoc]; rfl)
  have hgroup : (some1 accepts).Takes fuel (p.after [a] (inner ++ ([c] ++ rest))) inner ([c] ++ rest) [] :=
    takes_some1 hne rfl hinner (outside_head hstop)
  exact (hopen.then_reads (hgroup.reads_group label)).then_takes (takes_one hc rfl)

end Regex

namespace JavaScript

open Regex

variable {fuel : Nat} {p : Cursor} {rest : Text}

/-! ### Modules and lists -/

theorem reads_quoted (label : Nat) (m : ModuleName) (h : p.rest = m.quoted ++ rest) :
    (quoted label).Reads fuel p m.quoted rest [(label, m.text)] := by
  have hplain : ∀ c ∈ m.text, noneOf ['\'', '"'] c = true := fun c hc => by
    have hnot : ∀ c ∈ ['\'', '"'], isWord c = false := Text.forall_mem _ (by decide)
    have hquote : ∀ c ∈ m.text, ['\'', '"'].contains c = false :=
      m.letters.outside (fun c hword => Bool.eq_false_iff.mpr fun hmark =>
        Bool.false_ne_true ((hnot c (List.contains_iff_mem.mp hmark)).symm.trans hword)) (Text.forall_mem _ (by decide))
    rw [noneOf, hquote c hc]
    rfl
  exact reads_between label h rfl m.nonempty hplain rfl rfl

theorem reads_braced {form : Renaming} (label : Nat) (list : ItemList form) (h : p.rest = list.braced ++ rest) :
    (char '{' ++ .group label (some1 (· != '}')) ++ char '}').Reads fuel p list.braced rest
      [(label, ' ' :: (list.text ++ [' ']))] := by
  have hinner : Text.Uses (' ' :: (list.text ++ [' '])) ['$', ' ', ':', ','] :=
    .append (t := [' ']) (.of_all (by decide)) (list.uses.append (.of_all (by decide)))
  have hbrace : list.braced = '{' :: ((' ' :: (list.text ++ [' '])) ++ ['}']) := by
    rw [List.cons_append, List.append_assoc]
    rfl
  rw [hbrace] at h ⊢
  refine reads_between label h rfl (List.cons_ne_nil _ _) (fun c hc => bne_iff_ne.mpr ?_) rfl rfl
  rintro rfl
  exact hinner.not_mem (by decide) (by decide) hc

/-! ### Imports with names -/

/-- The texts of a clause in the groups of the rule. -/
def ImportClause.held : ImportClause → List (Nat × Text)
  | .default_ name => [(3, name.text)]
  | .namespace_ name => [(2, name.text)]
  | .listed list => [(1, ' ' :: (list.text ++ [' ']))]
  | .both name list => [(4, ' ' :: (list.text ++ [' '])), (3, name.text)]

theorem reads_from (m : ModuleName) (h : p.rest = " from ".toList ++ m.quoted ++ rest) :
    (blanks1 ++ (lit "from" ++ (blanks1 ++ quoted 5))).Reads fuel p (" from ".toList ++ m.quoted) rest [(5, m.text)] :=
  reads_space h rfl (reads_literal "from".toList rfl (reads_space rfl rfl (reads_quoted 5 m rfl)))

theorem reads_only_from (m : ModuleName) (h : p.rest = " from ".toList ++ m.quoted ++ rest) :
    fromRule.Reads fuel p (" from ".toList ++ m.quoted) rest [(5, m.text)] := by
  have hcomma : ∀ c, (char ',').mayBegin c = true → isBlank c = false := fun c hc => by
    obtain rfl := beq_iff_eq.mp hc
    rfl
  have hrefuses : (blanks ++ char ',').Refuses fuel p := (refuses_behind_space rfl hcomma h rfl rfl).1
  exact (((hrefuses.seq _).seq _).takes_opt h).nothing_reads (reads_from m h)

theorem reads_list_from (list : ItemList .as_) (m : ModuleName)
    (h : p.rest = ", ".toList ++ list.braced ++ (" from ".toList ++ m.quoted ++ rest)) :
    fromRule.Reads fuel p (", ".toList ++ list.braced ++ (" from ".toList ++ m.quoted)) rest
      [(5, m.text), (4, ' ' :: (list.text ++ [' ']))] := by
  generalize hbehind : " from ".toList ++ m.quoted = behind at h ⊢
  have hcomma : (blanks ++ char ',').Takes fuel p [','] ([' '] ++ (list.braced ++ (behind ++ rest))) [] :=
    .nothing_seq (takes_no_blanks h rfl) (takes_char h)
  have hspace : (blanks ++ char ',' ++ blanks).Takes fuel p ", ".toList (list.braced ++ (behind ++ rest)) [] :=
    hcomma.then_takes (takes_one_blank rfl rfl)
  have hoption := (hspace.then_reads (reads_braced 4 list rfl)).opt
  subst hbehind
  exact hoption.seq (reads_from m rfl)

theorem char_refuses_name (name : Name) {behind : Text} (h : p.rest = name.text ++ behind) {c : Char} (hc : isWord c = false) :
    (char c).Refuses fuel p := by
  obtain ⟨e, letters, htext, he⟩ := name.exists_cons
  rw [htext] at h
  exact refuses_at h rfl (beq_eq_false_iff_ne.mpr (ne_of_isWord he hc))

theorem reads_name (name : Name) {d : Char} {behind : Text} (h : p.rest = name.text ++ d :: behind)
    (hd : isWord d = false) : clauseRule.Reads fuel p name.text (d :: behind) [(3, name.text)] := by
  have hbrace : (char '{' ++ .group 1 (some1 (· != '}')) ++ char '}').Refuses fuel p :=
    ((char_refuses_name name h (by decide)).seq _).seq _
  have hstar : (char '*' ++ blanks1 ++ lit "as" ++ blanks1 ++ .group 2 word).Refuses fuel p :=
    ((((char_refuses_name name h (by decide)).seq _).seq _).seq _).seq _
  exact .oneOf [_, _] (List.forall_mem_cons.mpr ⟨hbrace, List.forall_mem_singleton.mpr hstar⟩)
    ((takes_name name h hd).reads_group 3)

theorem reads_namespace (name : Name) {d : Char} {behind : Text} (h : p.rest = "* as ".toList ++ name.text ++ d :: behind)
    (hd : isWord d = false) :
    clauseRule.Reads fuel p ("* as ".toList ++ name.text) (d :: behind) [(2, name.text)] := by
  have hbrace : (char '{' ++ .group 1 (some1 (· != '}')) ++ char '}').Refuses fuel p := refuses_at h rfl rfl
  have hstar : (char '*' ++ blanks1).Takes fuel p "* ".toList ("as".toList ++ ([' '] ++ (name.text ++ d :: behind))) [] :=
    (takes_char h).then_takes (takes_space rfl rfl)
  have hspace : (char '*' ++ blanks1 ++ lit "as" ++ blanks1).Takes fuel p "* as ".toList (name.text ++ d :: behind) [] :=
    (hstar.then_takes (takes_lit rfl)).then_takes (takes_space_name name rfl)
  exact .oneOf [_] (List.forall_mem_singleton.mpr hbrace) (hspace.then_reads ((takes_name name rfl hd).reads_group 2))

theorem reads_clause (clause : ImportClause) (m : ModuleName)
    (h : p.rest = clause.text ++ (" from ".toList ++ m.quoted ++ rest)) :
    (clauseRule ++ fromRule).Reads fuel p (clause.text ++ (" from ".toList ++ m.quoted)) rest ((5, m.text) :: clause.held) := by
  cases clause with
  | default_ name => exact (reads_name name h rfl).seq (reads_only_from m rfl)
  | namespace_ name => exact (reads_namespace name h rfl).seq (reads_only_from m rfl)
  | listed list => exact (Reads.oneOf [] (List.forall_mem_nil _) (reads_braced 1 list h)).seq (reads_only_from m rfl)
  | both name list =>
    generalize hbehind : " from ".toList ++ m.quoted = behind at h ⊢
    have hplace : p.rest = name.text ++ (", ".toList ++ list.braced ++ behind ++ rest) := by
      rw [h, ImportClause.text, List.append_assoc name.text, List.append_assoc _ behind]
    have hname : clauseRule.Reads fuel p name.text (", ".toList ++ list.braced ++ behind ++ rest) [(3, name.text)] :=
      reads_name name hplace rfl
    subst hbehind
    have hread := hname.seq (reads_list_from list m (List.append_assoc ..))
    rwa [← List.append_assoc name.text] at hread

/-- Behind a clause and some white space there comes the word `from`, if not a comma. -/
theorem fromRule_marks : fromRule.Meets isBlank ([',', 'f'].contains ·) ∧ fromRule.BeginsIn (isWord · = false) := by
  have hblank : blanks.Within isBlank ∧ blanks1.Within isBlank :=
    ⟨within_run (fun _ h => h) .many, within_some1 fun _ h => h⟩
  have hfrom : (lit "from").Meets isBlank ([',', 'f'].contains ·) := by
    rintro _ rfl
    exact ⟨[], 'f', "rom".toList, rfl, List.forall_mem_nil _, rfl⟩
  have hcomma : (blanks ++ char ',').BeginsIn (isWord · = false) := beginsIn_blanks.seq (beginsIn_char rfl)
  have hlist := ((hcomma.seq_of_some rfl blanks).seq_of_some rfl
    (char '{' ++ .group 4 (some1 (· != '}')) ++ char '}')).opt
  exact ⟨(((hblank.1.meets (meets_char rfl)).seq _).seq _).opt_seq (hblank.2.meets (hfrom.seq _)),
    hlist.seq (beginsIn_blanks1 _)⟩

/-- The word `from` in front of a module is no clause with a module behind it. -/
theorem not_clause_from {passed later behind : Text} (h : (clauseRule ++ fromRule).Accepts passed) :
    passed ++ later ≠ "from ".toList ++ '\'' :: behind := by
  intro hsplit
  obtain ⟨u, v, hu, hv, rfl⟩ := h
  rw [List.append_assoc] at hsplit
  have hother : ∀ r : Regex, r.mayPassNothing = false → r.mayBegin 'f' = false → ¬r.Accepts u := fun r hsome hbegin hu => by
    cases u with
    | nil => exact Bool.false_ne_true (hsome.symm.trans (mayPassNothing_of_accepts r hu))
    | cons c u =>
      obtain ⟨rfl, -⟩ := List.cons.inj hsplit
      exact Bool.false_ne_true (hbegin.symm.trans (mayBegin_of_accepts r _ u hu))
  rcases hu with hu | hu | hu
  · exact hother _ rfl rfl hu
  · exact hother _ rfl rfl hu
  -- a clause that is a name is the whole word, and then the module would have to be behind another word `from`
  · obtain ⟨-, hword⟩ := (accepts_some1 isWord u).mp hu
    obtain ⟨w, d, x, hv', hw, hd⟩ := fromRule_marks.1 v hv
    have hhead : (v ++ later).head?.any isWord = false := by
      cases v with
      | nil => exact absurd (mayPassNothing_of_accepts fromRule hv) (by decide)
      | cons c v => exact fromRule_marks.2 c (mayBegin_of_accepts fromRule c v hv)
    have hfrom : u ++ (v ++ later) = "from".toList ++ ([' '] ++ '\'' :: behind) := hsplit
    obtain ⟨-, hbehind⟩ := run_unique hfrom hword hhead (Text.forall_mem _ (by decide)) rfl
    rw [hv', List.append_assoc] at hbehind
    have hplain : ∀ c ∈ [',', 'f'], isBlank c = false := Text.forall_mem _ (by decide)
    obtain ⟨-, rfl, -⟩ := first_outside_unique hbehind hw (hplain d (List.contains_iff_mem.mp hd))
      (List.forall_mem_singleton.mpr rfl) rfl
    cases hd

/-- The word `type` is the default name where no clause follows it. -/
theorem type_refuses (clause : ImportClause) (m : ModuleName)
    (h : p.rest = clause.text ++ (" from ".toList ++ m.quoted ++ rest)) :
    (lit "type" ++ blanks1 ++ (clauseRule ++ fromRule)).Refuses fuel p := by
  -- behind a name there is either no white space, or the word that no clause with a module begins with
  have hname : ∀ (name : Name) {d : Char} {behind : Text}, p.rest = name.text ++ d :: behind → isWord d = false →
      (isBlank d = true → d = ' ' ∧ ∃ later, behind = "from ".toList ++ '\'' :: later) →
      (lit "type" ++ blanks1 ++ (clauseRule ++ fromRule)).Refuses fuel p := by
    intro name d behind hplace hd hblank
    refine refuses_of_accepts fun passed later haccepts hrest => ?_
    obtain ⟨_, z, ⟨_, gap, rfl, hgap, rfl⟩, hz, rfl⟩ := haccepts
    obtain ⟨hne, hspaces⟩ := (accepts_some1 isBlank gap).mp hgap
    obtain ⟨e, more, rfl⟩ := List.exists_cons_of_ne_nil hne
    have he : isBlank e = true := hspaces e List.mem_cons_self
    have hsplit : name.text ++ d :: behind = "type".toList ++ (e :: more ++ (z ++ later)) := by
      rw [← hplace, hrest, List.append_assoc, List.append_assoc]
    obtain ⟨-, hbehind⟩ := run_unique hsplit name.word hd (Text.forall_mem _ (by decide))
      (isWord_eq_false he)
    obtain ⟨rfl, -⟩ := List.cons.inj hbehind
    obtain ⟨rfl, later', rfl⟩ := hblank he
    have hhead : (z ++ later).head?.any isBlank = false := by
      cases z with
      | nil => exact absurd (mayPassNothing_of_accepts (clauseRule ++ fromRule) hz) (by decide)
      | cons c z =>
        have hplain : ∀ c ∈ ['{', '*'], isBlank c = false := Text.forall_mem _ (by decide)
        have hc := (clauseRule_begins.seq_of_some rfl fromRule) c (mayBegin_of_accepts _ c z hz)
        exact hc.elim isBlank_eq_false (hplain c)
    have hspace : [' '] ++ ("from ".toList ++ '\'' :: later') = ' ' :: more ++ (z ++ later) := hbehind
    obtain ⟨-, hfrom⟩ := run_unique hspace (List.forall_mem_singleton.mpr rfl) rfl hspaces hhead
    exact not_clause_from hz hfrom.symm
  cases clause with
  | default_ name => exact hname name h rfl fun _ => ⟨rfl, _, rfl⟩
  | namespace_ name => exact refuses_at h rfl rfl
  | listed list => exact refuses_at h rfl rfl
  | both name list =>
    rw [ImportClause.text, List.append_assoc] at h
    exact hname name h rfl fun hblank => absurd hblank (by decide)

/-! ### Statements -/

theorem reads_behind_import {s : Regex} {v : Text} {held : List (Nat × Text)} (h : p.rest = "import ".toList ++ v ++ rest)
    (hedge : p.before.any isWord = false) (hv : (v ++ rest).head?.any isBlank = false)
    (hs : ∀ q : Cursor, q.rest = v ++ rest → s.Reads fuel q v rest held) :
    (edge ++ (lit "import" ++ (blanks1 ++ s))).Reads fuel p ("import ".toList ++ v) rest held := by
  have hplace : Anchor.wordBoundary.holds p = true := by
    rw [Anchor.holds, hedge, h]
    rfl
  exact (takes_anchor hplace h).nothing_reads (reads_literal "import".toList h (reads_space rfl hv (hs _ rfl)))

theorem bareImport_reads (m : ModuleName) (h : p.rest = (ImportStatement.bare m).text ++ rest)
    (hedge : p.before.any isWord = false) :
    bareImport.Reads fuel p (ImportStatement.bare m).text rest [(1, m.text)] := by
  have hread : (edge ++ (lit "import" ++ (blanks1 ++ quoted 1))).Reads fuel p ("import ".toList ++ m.quoted) rest
      [(1, m.text)] := reads_behind_import h hedge rfl fun _ hq => reads_quoted 1 m hq
  exact hread.of_attempt rfl

theorem namedImport_reads (clause : ImportClause) (m : ModuleName)
    (h : p.rest = (ImportStatement.named clause m).text ++ rest) (hedge : p.before.any isWord = false) :
    namedImport.Reads fuel p (ImportStatement.named clause m).text rest ((5, m.text) :: clause.held) := by
  have hhead : (clause.text ++ (" from ".toList ++ m.quoted) ++ rest).head?.any isBlank = false := by
    obtain ⟨c, letters, htext, hblank, -⟩ := clause.begins
    rw [htext]
    exact hblank
  have hrule : ∀ q : Cursor, q.rest = clause.text ++ (" from ".toList ++ m.quoted) ++ rest →
      namedRule.Reads fuel q (clause.text ++ (" from ".toList ++ m.quoted)) rest ((5, m.text) :: clause.held) := fun q hq => by
    rw [List.append_assoc] at hq
    exact .skip_opt (type_refuses clause m hq) (reads_clause clause m hq)
  exact (reads_behind_import h hedge hhead hrule).of_attempt rfl

/-! ### Required modules -/

/-- The texts of the target of a required module in the groups of the rule. -/
def RequireTarget.held : RequireTarget → List (Nat × Text)
  | .single name => [(2, name.text)]
  | .listed list => [(1, ' ' :: (list.text ++ [' ']))]

def requireRule : Regex :=
  blanks ++ (char '=' ++ (blanks ++ (lit "require" ++ (blanks ++ (char '(' ++ (blanks ++ (quoted 3
    ++ (blanks ++ char ')'))))))))

theorem reads_require (m : ModuleName) (h : p.rest = " = require(".toList ++ (m.quoted ++ ")".toList) ++ rest) :
    requireRule.Reads fuel p (" = require(".toList ++ (m.quoted ++ ")".toList)) rest [(3, m.text)] := by
  have hclose : ∀ q : Cursor, q.rest = [')'] ++ rest → (blanks ++ char ')').Takes fuel q [')'] rest [] := fun q hq =>
    .nothing_seq (takes_no_blanks hq rfl) (takes_char hq)
  have hmodule : ∀ q : Cursor, q.rest = m.quoted ++ [')'] ++ rest →
      (quoted 3 ++ (blanks ++ char ')')).Reads fuel q (m.quoted ++ [')']) rest [(3, m.text)] := fun q hq =>
    (reads_quoted 3 m (hq.trans (List.append_assoc ..))).then_takes (hclose _ rfl)
  exact reads_gap .space h rfl (reads_char '=' rfl (reads_gap .space rfl rfl (reads_literal "require".toList rfl
    (reads_gap .none rfl rfl (reads_char '(' rfl (reads_gap .none rfl rfl (hmodule _ rfl)))))))

def targetRule : Regex :=
  oneOf [char '{' ++ .group 1 (some1 (· != '}')) ++ char '}', .group 2 word]

theorem reads_target (target : RequireTarget) (h : p.rest = target.text ++ rest) (hrest : rest.head?.any isWord = false) :
    targetRule.Reads fuel p target.text rest target.held := by
  cases target with
  | single name =>
    have hbrace : (char '{' ++ .group 1 (some1 (· != '}')) ++ char '}').Refuses fuel p :=
      ((char_refuses_name name h (by decide)).seq _).seq _
    exact .oneOf [_] (List.forall_mem_singleton.mpr hbrace) ((takes_whole name h hrest).reads_group 2)
  | listed list => exact .oneOf [] (List.forall_mem_nil _) (reads_braced 1 list h)

theorem requireCall_reads (target : RequireTarget) (m : ModuleName)
    (h : p.rest = (ImportStatement.required target m).text ++ rest) (hedge : p.before.any isWord = false) :
    requireCall.Reads fuel p (ImportStatement.required target m).text rest ((3, m.text) :: target.held) := by
  have hplace : Anchor.wordBoundary.holds p = true := by
    rw [Anchor.holds, hedge, h]
    rfl
  have hread := fun q : Cursor => @reads_require fuel q rest m
  have hbehind : (" = require(".toList ++ (m.quoted ++ ")".toList) ++ rest).head?.any isWord = false := rfl
  rw [ImportStatement.text_required] at h ⊢
  generalize " = require(".toList ++ (m.quoted ++ ")".toList) = call at h hread hbehind ⊢
  have hhead : (target.text ++ call ++ rest).head?.any isBlank = false := by
    rw [List.append_assoc]
    cases target with
    | single name => exact head?_blank name _
    | listed list => rfl
  have hword : (words ["const", "let", "var"]).Takes fuel p "const".toList ([' '] ++ (target.text ++ call) ++ rest) [] :=
    takes_words (by decide) (by decide) h
  have hspace : (blanks1 ++ (targetRule ++ requireRule)).Reads fuel
      (p.after "const".toList ([' '] ++ (target.text ++ call) ++ rest)) ([' '] ++ (target.text ++ call)) rest
      ((3, m.text) :: target.held) :=
    reads_space rfl hhead ((reads_target target (List.append_assoc ..) hbehind).seq (hread _ rfl))
  exact ((takes_anchor hplace h).nothing_reads (hword.then_reads hspace)).of_attempt rfl

end JavaScript

end CodeIndex
