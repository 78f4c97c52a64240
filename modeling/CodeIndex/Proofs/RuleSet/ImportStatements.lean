import CodeIndex.Proofs.Regex.Walk
import CodeIndex.Proofs.RuleSet.ExportRules
import CodeIndex.Proofs.RuleSet.ImportLists

/-!
# Import statements

The statements that import a module, in the forms of both module systems, and what each of the three import rules
does where a statement stands: its own statements it takes whole, and the others it passes over.
-/

namespace CodeIndex.JavaScript

open Regex

/-! ### Statements -/

/-- What names a module: word characters, dots, slashes, dashes and at signs. -/
structure ModuleName where
  text : Text
  nonempty : text ≠ []
  letters : text.Uses ['.', '/', '-', '@']

/-- What an import statement names. -/
inductive ImportClause where
  | default_ (name : Name)
  | namespace_ (name : Name)
  | listed (list : ItemList .as_)
  | both (name : Name) (list : ItemList .as_)

inductive RequireTarget where
  | single (name : Name)
  | listed (list : ItemList .colon)

/-- A statement that imports a module. -/
inductive ImportStatement where
  | named (clause : ImportClause) (module_ : ModuleName)
  | bare (module_ : ModuleName)
  | required (target : RequireTarget) (module_ : ModuleName)

def ModuleName.quoted (m : ModuleName) : Text :=
  '\'' :: (m.text ++ ['\''])

def ItemList.braced {form : Renaming} (list : ItemList form) : Text :=
  "\x7b ".toList ++ (list.text ++ " \x7d".toList)

def ImportClause.text : ImportClause → Text
  | .default_ name => name.text
  | .namespace_ name => "* as ".toList ++ name.text
  | .listed list => list.braced
  | .both name list => name.text ++ (", ".toList ++ list.braced)

/-- The local names of a clause, the default or the namespace first. -/
def ImportClause.items : ImportClause → List String
  | .default_ name => [name.string]
  | .namespace_ name => [name.string]
  | .listed list => list.localNames
  | .both name list => name.string :: list.localNames

def RequireTarget.text : RequireTarget → Text
  | .single name => name.text
  | .listed list => list.braced

def RequireTarget.items : RequireTarget → List String
  | .single name => [name.string]
  | .listed list => list.localNames

namespace ImportStatement

/-- A statement up to its semicolon. -/
def text : ImportStatement → Text
  | .named clause module_ => "import ".toList ++ (clause.text ++ (" from ".toList ++ module_.quoted))
  | .bare module_ => "import ".toList ++ module_.quoted
  | .required target module_ =>
    "const ".toList ++ (target.text ++ (" = require(".toList ++ (module_.quoted ++ ")".toList)))

theorem text_named (clause : ImportClause) (m : ModuleName) :
    (named clause m).text = "import ".toList ++ (clause.text ++ (" from ".toList ++ m.quoted)) := rfl

theorem text_required (target : RequireTarget) (m : ModuleName) : (required target m).text =
    "const ".toList ++ (target.text ++ (" = require(".toList ++ (m.quoted ++ ")".toList))) := rfl

def moduleName : ImportStatement → String
  | .named _ module_ | .bare module_ | .required _ module_ => String.ofList module_.text

def items : ImportStatement → List String
  | .named clause _ => clause.items
  | .bare _ => []
  | .required target _ => target.items

def kind : ImportStatement → ImportKind
  | .required .. => .commonJs
  | _ => .es6

end ImportStatement

/-! ### Marks of the import rules -/

variable {fuel : Nat} {p : Cursor} {rest : Text}

/-- Whether a character stands in words, in the white space between them, or is one of some others. -/
def betweenMarks (others : List Char) (c : Char) : Bool :=
  isWord c || isBlank c || others.contains c

theorem betweenMarks_word {others : List Char} {c : Char} (h : isWord c = true) : betweenMarks others c = true := by
  rw [betweenMarks, h, Bool.true_or, Bool.true_or]

theorem betweenMarks_blank {others : List Char} {c : Char} (h : isBlank c = true) : betweenMarks others c = true := by
  rw [betweenMarks, h, Bool.or_true, Bool.true_or]

theorem within_edge (inside : Char → Bool) : edge.Within inside := fun passed h => by
  obtain rfl : passed = [] := h
  exact List.forall_mem_nil _

theorem within_blanks (others : List Char) :
    blanks.Within (betweenMarks others) ∧ blanks1.Within (betweenMarks others) :=
  ⟨within_run (fun _ => betweenMarks_blank) .many, within_some1 fun _ => betweenMarks_blank⟩

theorem meets_quoted (inside : Char → Bool) {marks : Char → Bool} (h : marks '\'' = true) (h' : marks '"' = true)
    (label : Nat) : (quoted label).Meets inside marks := by
  refine ((meets_one fun c hc => ?_).seq _).seq _
  obtain rfl | rfl : c = '\'' ∨ c = '"' := by simpa using hc
  · exact h
  · exact h'

/-- Behind the word `import` there is white space. -/
theorem imports_blank : namedImport.Meets isWord isBlank ∧ bareImport.Meets isWord isBlank := by
  have hfront : (edge ++ lit "import" ++ blanks1).Meets isWord isBlank :=
    ((within_edge _).seq (within_lit (by decide))).meets ((meets_one fun _ hc => hc).seq _)
  exact ⟨((((((hfront.seq _).seq _).seq _).seq _).seq _).seq _).seq _, hfront.seq _⟩

theorem bareImport_marks : bareImport.Meets (betweenMarks []) (['\'', '"'].contains ·) := by
  have hfront : (edge ++ lit "import" ++ blanks1).Within (betweenMarks []) :=
    ((within_edge _).seq (within_lit (by decide))).seq (within_blanks []).2
  exact hfront.meets (meets_quoted _ rfl rfl 1)

theorem namedImport_marks : namedImport.Meets (betweenMarks [',']) (['{', '*', '\'', '"'].contains ·) := by
  obtain ⟨hblanks, hblanks1⟩ := within_blanks [',']
  have hfront := (((within_edge (betweenMarks [','])).seq (within_lit (s := "import") (by decide))).seq hblanks1).seq
    ((within_lit (s := "type") (by decide)).seq hblanks1).opt
  have hquoted : (quoted 5).Meets (betweenMarks [',']) (['{', '*', '\'', '"'].contains ·) := meets_quoted _ rfl rfl 5
  have hmodule := hblanks1.meets ((within_lit (s := "from") (by decide)).meets (hblanks1.meets hquoted))
  have hlist : (blanks ++ char ',' ++ blanks ++ char '{' ++ Regex.group 4 (some1 (· != '}')) ++ char '}').Meets
      (betweenMarks [',']) (['{', '*', '\'', '"'].contains ·) :=
    ((((hblanks.seq (within_char rfl)).seq hblanks).meets (meets_char rfl)).seq _).seq _
  have htail := hlist.opt_seq hmodule
  have hname : (Regex.group 3 word).Within (betweenMarks [',']) := within_some1 fun _ => betweenMarks_word
  have hnamespace : (char '*' ++ blanks1 ++ lit "as" ++ blanks1 ++ Regex.group 2 word).Meets (betweenMarks [','])
      (['{', '*', '\'', '"'].contains ·) := ((((meets_char rfl).seq _).seq _).seq _).seq _
  have hnames : (char '{' ++ Regex.group 1 (some1 (· != '}')) ++ char '}').Meets (betweenMarks [','])
      (['{', '*', '\'', '"'].contains ·) := ((meets_char rfl).seq _).seq _
  have hclause := (hnames.seq _).alt_seq ((hnamespace.seq _).alt_seq (hname.meets htail))
  exact (hfront.meets hclause).assoc.assoc.assoc.assoc.assoc

theorem requireCall_marks : requireCall.Meets (betweenMarks []) (['{', '='].contains ·) := by
  obtain ⟨hblanks, hblanks1⟩ := within_blanks []
  have hkeywords : (words ["const", "let", "var"]).Within (betweenMarks []) :=
    (within_lit (by decide)).alt ((within_lit (by decide)).alt (within_lit (by decide)))
  have hlist : (char '{' ++ Regex.group 1 (some1 (· != '}')) ++ char '}').Meets (betweenMarks []) (['{', '='].contains ·) :=
    ((meets_char rfl).seq _).seq _
  have hname : (Regex.group 2 word).Within (betweenMarks []) := within_some1 fun _ => betweenMarks_word
  have hequals : (char '=').Meets (betweenMarks []) (['{', '='].contains ·) := meets_char rfl
  have htarget := (hlist.seq _).alt_seq (hname.meets (hblanks.meets hequals))
  have hfront := ((((within_edge _).seq hkeywords).seq hblanks1).meets htarget).assoc.assoc
  exact (((((((hfront.seq _).seq _).seq _).seq _).seq _).seq _).seq _).seq _

/-! ### Passed places -/

/-- Whether a scan passes over a text in front of another one. -/
def SkipsOver (fuel : Nat) (r : Regex) (passed rest : Text) : Prop :=
  ∀ p : Cursor, p.rest = passed ++ rest → r.found fuel p = r.found fuel (p.after passed rest)

theorem SkipsOver.append {r : Regex} {u v : Text} (h : SkipsOver fuel r u (v ++ rest)) (h' : SkipsOver fuel r v rest) :
    SkipsOver fuel r (u ++ v) rest := by
  intro p hp
  rw [h p (by rw [hp, List.append_assoc]), h' _ rfl, Cursor.after_after]

theorem skips_unbegun {r : Regex} (hsome : r.mayPassNothing = false) {u : Text} (hu : (u.all fun c => !r.mayBegin c) = true) :
    SkipsOver fuel r u rest := fun p hp =>
  found_skip_begin hsome p u rest hp (Text.forall_mem_not hu)

/-- A scan passes over a text without the marks that a rule leads to. -/
theorem skips_unmarked {r : Regex} {inside marks : List Char} (h : r.Meets (betweenMarks inside) (marks.contains ·))
    (hmarks : (marks.all fun c => !betweenMarks inside c) = true) {u : Text} {d : Char} {others : List Char}
    (hu : u.Uses others) (hothers : (others.all fun c => !marks.contains c) = true)
    (hd : (!betweenMarks inside d && !marks.contains d) = true) : SkipsOver fuel r u (d :: rest) := by
  have hapart : ∀ c, marks.contains c = true → betweenMarks inside c = false := fun c hc =>
    Text.forall_mem_not hmarks c (List.contains_iff_mem.mp hc)
  have hword : ∀ c, isWord c = true → marks.contains c = false := fun c hc => Bool.eq_false_iff.mpr fun hmark =>
    Bool.false_ne_true ((hapart c hmark).symm.trans (betweenMarks_word hc))
  exact fun p hp => h.found_pass hapart hp (hu.outside hword (Text.forall_mem_not hothers)) (by simpa using hd)

/-- A scan for imports passes over a text without white space. -/
theorem skips_dense {r : Regex} (h : r.Meets isWord isBlank) {u : Text} {d : Char} {others : List Char}
    (hu : u.Uses others) (hothers : (others.all fun c => !isBlank c) = true) (hd : (!isWord d && !isBlank d) = true) :
    SkipsOver fuel r u (d :: rest) := by
  have hplain : ∀ c ∈ u, isBlank c = false := hu.outside (fun _ => isBlank_eq_false) (Text.forall_mem_not hothers)
  exact fun p hp => h.found_pass (fun _ => isWord_eq_false) hp hplain (by simpa using hd)

/-- A scan for imports passes over a word in front of what does not follow the word `import`. -/
theorem skips_word {r s : Regex} (hr : ∀ q, (edge ++ (lit "import" ++ (blanks1 ++ s))).Refuses fuel q → r.Refuses fuel q)
    (hsome : s.mayPassNothing = false) (hbegin : s.BeginsIn (isBlank · = false)) (w : Name) {d : Char}
    (hd : isBlank d = false) (hsd : s.mayBegin d = false) : SkipsOver fuel r w.text (' ' :: d :: rest) := by
  refine fun p hp => found_skip p w.text _ hp fun a c b hab => (hr _ ?_).matchAt?
  refine refuses_of_accepts fun passed later haccepts hrest => ?_
  obtain ⟨_, _, rfl, ⟨_, _, rfl, ⟨gap, x, hgap, hx, rfl⟩, rfl⟩, rfl⟩ := haccepts
  obtain ⟨hne, hblank⟩ := (accepts_some1 isBlank gap).mp hgap
  obtain ⟨e, gap, rfl⟩ := List.exists_cons_of_ne_nil hne
  cases x with
  | nil =>
    rw [mayPassNothing_of_accepts s hx] at hsome
    cases hsome
  | cons f x =>
    have hf := mayBegin_of_accepts s f x hx
    -- a match would read what is left of the word as `import`, and then go on behind the one space
    have hletters : ∀ e ∈ c :: b, isWord e = true := fun e he => w.word e (by
      rw [hab]
      exact List.mem_append_right a he)
    have hspace : isWord e = false := isWord_eq_false (hblank e List.mem_cons_self)
    have himport : ∀ e ∈ "import".toList, isWord e = true := Text.forall_mem _ (by decide)
    have hsplit : (c :: b) ++ (' ' :: d :: rest) = "import".toList ++ (e :: gap ++ (f :: x ++ later)) := by
      simpa using hrest
    obtain ⟨-, hbehind⟩ := run_unique hsplit hletters rfl himport hspace
    have hone : ∀ e ∈ [' '], isBlank e = true := Text.forall_mem _ (by decide)
    obtain ⟨-, hhead⟩ := run_unique (a := [' ']) hbehind hone hd hblank (hbegin f hf)
    obtain ⟨rfl, -⟩ := List.cons.inj hhead
    rw [hf] at hsd
    cases hsd

/-- No rule that leads to marks outside of a list between braces finds anything there. -/
theorem skips_braced {form : Renaming} (list : ItemList form) {r : Regex} (hsome : r.mayPassNothing = false)
    (hbegin : (['{', ' ', '}'].all fun c => !r.mayBegin c) = true) {inside marks : List Char}
    (h : r.Meets (betweenMarks inside) (marks.contains ·)) (hmarks : (marks.all fun c => !betweenMarks inside c) = true)
    (hlist : (['$', ' ', ':', ','].all fun c => !marks.contains c) = true)
    (hclose : (!betweenMarks inside '}' && !marks.contains '}') = true) : SkipsOver fuel r list.braced rest := by
  have hopen : (['{', ' '].all fun c => !r.mayBegin c) = true :=
    List.all_eq_true.mpr fun c hc => List.all_eq_true.mp hbegin c (List.mem_append_left ['}'] hc)
  have hend : (['}'].all fun c => !r.mayBegin c) = true :=
    List.all_eq_true.mpr fun c hc => List.all_eq_true.mp hbegin c (List.mem_append_right ['{', ' '] hc)
  have hinner : Text.Uses (list.text ++ [' ']) ['$', ' ', ':', ','] := list.uses.append (.of_all (by decide))
  have htext : list.braced = ['{', ' '] ++ ((list.text ++ [' ']) ++ ['}']) := by
    rw [ItemList.braced, List.append_assoc]
    rfl
  rw [htext]
  exact (skips_unbegun hsome hopen).append
    ((skips_unmarked h hmarks hinner hlist hclose).append (skips_unbegun hsome hend))

/-! ### Statements of the other rules -/

/-- What follows the words `import` and `type`. -/
def clauseRule : Regex :=
  oneOf
    [char '{' ++ .group 1 (some1 (· != '}')) ++ char '}',
      char '*' ++ blanks1 ++ lit "as" ++ blanks1 ++ .group 2 word,
      .group 3 word]

/-- What follows a clause: another list, and the module. -/
def fromRule : Regex :=
  opt (blanks ++ char ',' ++ blanks ++ (char '{' ++ .group 4 (some1 (· != '}')) ++ char '}'))
    ++ (blanks1 ++ (lit "from" ++ (blanks1 ++ quoted 5)))

def namedRule : Regex :=
  opt (lit "type" ++ blanks1) ++ (clauseRule ++ fromRule)

theorem quoted_begins (label : Nat) : (quoted label).BeginsIn (· ∈ ['\'', '"']) := by
  have hmark : (oneIn ['\'', '"']).BeginsIn (· ∈ ['\'', '"']) := fun c hc => List.contains_iff_mem.mp hc
  exact (hmark.seq_of_some rfl _).seq_of_some rfl _

theorem clauseRule_begins : clauseRule.BeginsIn fun c => isWord c = true ∨ c ∈ ['{', '*'] := by
  have hword : ∀ label, (Regex.group label word).BeginsIn fun c => isWord c = true ∨ c ∈ ['{', '*'] := fun _ c hc =>
    Or.inl (by rwa [Regex.mayBegin, word, mayBegin_some1] at hc)
  have hchar : ∀ d ∈ ['{', '*'], (char d).BeginsIn fun c => isWord c = true ∨ c ∈ ['{', '*'] := fun d hd c hc => by
    obtain rfl := beq_iff_eq.mp hc
    exact Or.inr hd
  have hlist := ((hchar '{' (by decide)).seq_of_some rfl (Regex.group 1 (some1 (· != '}')))).seq_of_some rfl (char '}')
  have hnamespace := (((hchar '*' (by decide)).seq_of_some rfl blanks1).seq_of_some rfl (lit "as")).seq_of_some rfl blanks1
  exact hlist.alt ((hnamespace.seq_of_some rfl _).alt (hword 3))

theorem namedRule_begins : namedRule.BeginsIn fun c => isWord c = true ∨ c ∈ ['{', '*'] := by
  have htype : (lit "type" ++ blanks1).BeginsIn fun c => isWord c = true ∨ c ∈ ['{', '*'] :=
    (beginsIn_lit fun c hc => by
      obtain rfl := Option.some.inj hc
      exact Or.inl (by decide)).seq_of_some rfl _
  exact htype.opt.seq (clauseRule_begins.seq_of_some rfl _)

def importWord : Name :=
  .ofString "import" (by decide)

theorem namedImport_skips_word (w : Name) {d : Char} (hd : (!isBlank d && !isWord d && !List.contains ['{', '*'] d) = true) :
    SkipsOver fuel namedImport w.text (' ' :: d :: rest) := by
  obtain ⟨⟨hblank, hword⟩, hmark⟩ : (isBlank d = false ∧ isWord d = false) ∧ ['{', '*'].contains d = false := by
    simpa only [Bool.and_eq_true, Bool.not_eq_true'] using hd
  have hplain : ∀ c ∈ ['{', '*'], isBlank c = false := Text.forall_mem _ (by decide)
  refine skips_word (r := namedImport) (s := namedRule) (fun _ h => h) rfl (fun c hc => ?_) w hblank ?_
  · rcases namedRule_begins c hc with hc | hc
    · exact isBlank_eq_false hc
    · exact hplain c hc
  · refine Bool.eq_false_iff.mpr fun hd => ?_
    rcases namedRule_begins d hd with hd | hd
    · exact Bool.false_ne_true (hword.symm.trans hd)
    · exact Bool.false_ne_true (hmark.symm.trans (List.contains_iff_mem.mpr hd))

theorem bareImport_skips_word (w : Name) {d : Char} (hd : isBlank d = false) (hmark : d ∉ ['\'', '"']) :
    SkipsOver fuel bareImport w.text (' ' :: d :: rest) := by
  have hplain : ∀ c ∈ ['\'', '"'], isBlank c = false := Text.forall_mem _ (by decide)
  refine skips_word (r := bareImport) (s := quoted 1) (fun _ h => h) rfl (fun c hc => ?_) w hd ?_
  · exact hplain c (quoted_begins 1 c hc)
  · exact Bool.eq_false_iff.mpr fun hd => hmark (quoted_begins 1 d hd)

theorem quoted_uses (m : ModuleName) : m.quoted.Uses ['.', '/', '-', '@', '\''] := by
  have hquote : Text.Uses ['\''] ['.', '/', '-', '@', '\''] := .of_all (by decide)
  exact hquote.append ((m.letters.mono (by decide)).append hquote)

theorem ImportClause.begins (clause : ImportClause) :
    ∃ c letters, clause.text = c :: letters ∧ isBlank c = false ∧ c ∉ ['\'', '"'] := by
  have hname : ∀ (name : Name) (behind : Text),
      ∃ c letters, name.text ++ behind = c :: letters ∧ isBlank c = false ∧ c ∉ ['\'', '"'] := by
    intro name behind
    obtain ⟨c, letters, htext, hc⟩ := name.exists_cons
    have hplain : ∀ c ∈ ['\'', '"'], isWord c = false := Text.forall_mem _ (by decide)
    exact ⟨c, letters ++ behind, by rw [htext, List.cons_append], isBlank_eq_false hc, fun hmem =>
      Bool.false_ne_true ((hplain c hmem).symm.trans hc)⟩
  cases clause with
  | default_ name =>
    have hbegins := hname name []
    rwa [List.append_nil] at hbegins
  | namespace_ name => exact ⟨'*', _, rfl, by decide, by decide⟩
  | listed list => exact ⟨'{', _, rfl, by decide, by decide⟩
  | both name list => exact hname name _

theorem bareImport_skips_named (clause : ImportClause) (m : ModuleName) :
    SkipsOver fuel bareImport (ImportStatement.named clause m).text (';' :: rest) := by
  have hunbegun : ∀ u : Text, (u.all fun c => !bareImport.mayBegin c) = true → ∀ rest, SkipsOver fuel bareImport u rest :=
    fun _ hu _ => skips_unbegun rfl hu
  have hfirst : ∀ rest, SkipsOver fuel bareImport "import ".toList (clause.text ++ rest) := fun rest => by
    obtain ⟨c, letters, htext, hblank, hmark⟩ := clause.begins
    rw [htext]
    exact SkipsOver.append (u := "import".toList) (v := [' ']) (bareImport_skips_word importWord hblank hmark)
      (hunbegun _ (by decide) _)
  have hname : ∀ (name : Name) behind, SkipsOver fuel bareImport name.text (" from ".toList ++ behind) :=
    fun name _ => bareImport_skips_word name (d := 'f') (by decide) (by decide)
  have hbraced : ∀ (list : ItemList .as_) behind, SkipsOver fuel bareImport list.braced behind := fun list _ =>
    skips_braced list rfl (by decide) bareImport_marks (by decide) (by decide) (by decide)
  have hclause : ∀ behind, SkipsOver fuel bareImport clause.text (" from ".toList ++ behind) := by
    intro behind
    cases clause with
    | default_ name => exact hname name behind
    | namespace_ name => exact (hunbegun _ (by decide) _).append (hname name behind)
    | listed list => exact hbraced list _
    | both name list =>
      exact (skips_dense imports_blank.2 (name.uses []) rfl (d := ',') (by decide)).append
        ((hunbegun ", ".toList (by decide) _).append (hbraced list _))
  have hmodule : SkipsOver fuel bareImport m.quoted (';' :: rest) :=
    skips_dense imports_blank.2 (quoted_uses m) (by decide) (by decide)
  have hbehind : SkipsOver fuel bareImport (" from ".toList ++ m.quoted) (';' :: rest) :=
    (hunbegun " from ".toList (by decide) _).append hmodule
  have hall : SkipsOver fuel bareImport (clause.text ++ (" from ".toList ++ m.quoted)) (';' :: rest) := by
    refine SkipsOver.append ?_ hbehind
    rw [List.append_assoc]
    exact hclause _
  refine SkipsOver.append ?_ hall
  rw [List.append_assoc]
  exact hfirst _

/-- Neither rule for imports finds anything in a statement that requires a module. -/
theorem skips_required {r : Regex} (hsome : r.mayPassNothing = false)
    (hbegin : ("const \x7b \x7d(".toList.all fun c => !r.mayBegin c) = true) (hblank : r.Meets isWord isBlank)
    {inside marks : List Char} (hmeets : r.Meets (betweenMarks inside) (marks.contains ·))
    (hmarks : (marks.all fun c => !betweenMarks inside c) = true)
    (hothers : (['$', ' ', ':', ',', '='].all fun c => !marks.contains c) = true)
    (hend : (['=', '(', '}'].all fun c => !betweenMarks inside c && !marks.contains c) = true)
    (target : RequireTarget) (m : ModuleName) :
    SkipsOver fuel r (ImportStatement.required target m).text (';' :: rest) := by
  have hunbegun : ∀ u : Text, u ⊆ "const \x7b \x7d(".toList → ∀ behind, SkipsOver fuel r u behind := fun u hu _ =>
    skips_unbegun hsome (List.all_eq_true.mpr fun c hc => List.all_eq_true.mp hbegin c (hu hc))
  have hunmarked : ∀ (u : Text) (d : Char) behind, u.Uses ['$', ' ', ':', ',', '='] → d ∈ ['=', '(', '}'] →
      SkipsOver fuel r u (d :: behind) := fun u d _ hu hd =>
    skips_unmarked hmeets hmarks hu hothers (List.all_eq_true.mp hend d hd)
  have htarget : ∀ behind, SkipsOver fuel r (target.text ++ [' ']) ('=' :: behind) := by
    intro behind
    cases target with
    | single name => exact hunmarked _ _ _ ((name.uses _).append (.of_all (by decide))) (by decide)
    | listed list =>
      refine SkipsOver.append (skips_braced list hsome ?_ hmeets hmarks ?_ ?_) (hunbegun _ (by decide) _)
      · exact List.all_eq_true.mpr fun c hc => List.all_eq_true.mp hbegin c
          ((by decide : ['{', ' ', '}'] ⊆ "const \x7b \x7d(".toList) hc)
      · exact List.all_eq_true.mpr fun c hc => List.all_eq_true.mp hothers c (List.mem_append_left ['='] hc)
      · exact List.all_eq_true.mp hend '}' (by decide)
  have hrequire : SkipsOver fuel r "= require".toList (['('] ++ (m.quoted ++ [')']) ++ ';' :: rest) :=
    hunmarked _ _ _ (.of_all (by decide)) (by decide)
  have hmodule : SkipsOver fuel r (['('] ++ (m.quoted ++ [')'])) (';' :: rest) := by
    have hquoted : Text.Uses (m.quoted ++ [')']) ['.', '/', '-', '@', '\'', ')'] :=
      ((quoted_uses m).mono (by decide)).append (.of_all (by decide))
    exact (hunbegun _ (by decide) _).append (skips_dense hblank hquoted (by decide) (by decide))
  have htext : (ImportStatement.required target m).text =
      "const ".toList ++ ((target.text ++ [' ']) ++ ("= require".toList ++ (['('] ++ (m.quoted ++ [')'])))) := by
    rw [ImportStatement.text_required, List.append_assoc target.text]
    rfl
  rw [htext]
  exact (hunbegun _ (by decide) _).append ((htarget _).append (hrequire.append hmodule))

theorem bareImport_skips_required (target : RequireTarget) (m : ModuleName) :
    SkipsOver fuel bareImport (ImportStatement.required target m).text (';' :: rest) :=
  skips_required rfl (by decide) imports_blank.2 bareImport_marks (by decide) (by decide) (by decide) target m

theorem namedImport_skips_required (target : RequireTarget) (m : ModuleName) :
    SkipsOver fuel namedImport (ImportStatement.required target m).text (';' :: rest) :=
  skips_required rfl (by decide) imports_blank.1 namedImport_marks (by decide) (by decide) (by decide) target m

theorem namedImport_skips_bare (m : ModuleName) :
    SkipsOver fuel namedImport (ImportStatement.bare m).text (';' :: rest) := by
  have hword : ∀ behind, SkipsOver fuel namedImport "import".toList (' ' :: '\'' :: behind) := fun _ =>
    namedImport_skips_word importWord (by decide)
  have hspace : ∀ behind, SkipsOver fuel namedImport [' '] behind := fun _ => skips_unbegun rfl (by decide)
  have hmodule : SkipsOver fuel namedImport m.quoted (';' :: rest) :=
    skips_dense imports_blank.1 (quoted_uses m) (by decide) (by decide)
  exact ((hword _).append (hspace _)).append hmodule

/-- The rule for required modules finds nothing in an import statement. -/
theorem requireCall_skips_bare (m : ModuleName) :
    SkipsOver fuel requireCall (ImportStatement.bare m).text (';' :: rest) := by
  have hfront : ∀ behind, SkipsOver fuel requireCall "import ".toList behind := fun _ => skips_unbegun rfl (by decide)
  exact (hfront _).append (skips_unmarked requireCall_marks (by decide) (quoted_uses m) (by decide) (by decide))

theorem requireCall_skips_named (clause : ImportClause) (m : ModuleName) :
    SkipsOver fuel requireCall (ImportStatement.named clause m).text (';' :: rest) := by
  have hunbegun : ∀ u : Text, (u.all fun c => !requireCall.mayBegin c) = true → ∀ behind, SkipsOver fuel requireCall u behind :=
    fun _ hu _ => skips_unbegun rfl hu
  have hends : ∀ d ∈ ['\'', ','], (!betweenMarks [] d && !List.contains ['{', '='] d) = true := Text.forall_mem _ (by decide)
  have hunmarked : ∀ (u : Text) (d : Char) behind, u.Uses [' '] → d ∈ ['\'', ','] → SkipsOver fuel requireCall u (d :: behind) :=
    fun u d _ hu hd => skips_unmarked requireCall_marks (by decide) hu (by decide)
      (hends d hd)
  have hbraced : ∀ (list : ItemList .as_) behind, SkipsOver fuel requireCall list.braced behind := fun list _ =>
    skips_braced list rfl (by decide) requireCall_marks (by decide) (by decide) (by decide)
  have hfrom : ∀ behind, SkipsOver fuel requireCall " from ".toList behind := hunbegun _ (by decide)
  have hname : ∀ (name : Name) behind, SkipsOver fuel requireCall (name.text ++ " from ".toList) ('\'' :: behind) :=
    fun name _ => hunmarked _ _ _ ((name.uses _).append (.of_all (by decide))) (by decide)
  have hclause : ∀ behind, SkipsOver fuel requireCall (clause.text ++ " from ".toList) ('\'' :: behind) := by
    intro behind
    cases clause with
    | default_ name => exact hname name behind
    | namespace_ name =>
      have htext : (ImportClause.namespace_ name).text ++ " from ".toList =
          "* as ".toList ++ (name.text ++ " from ".toList) := List.append_assoc ..
      rw [htext]
      exact (hunbegun "* as ".toList (by decide) _).append (hname name behind)
    | listed list => exact (hbraced list _).append (hfrom _)
    | both name list =>
      have hnamed : ∀ behind, SkipsOver fuel requireCall name.text (',' :: behind) := fun _ =>
        hunmarked _ _ _ (name.uses _) (by decide)
      exact ((hnamed _).append ((hunbegun ", ".toList (by decide) _).append (hbraced list _))).append (hfrom _)
  have hmodule : SkipsOver fuel requireCall m.quoted (';' :: rest) :=
    skips_unmarked requireCall_marks (by decide) (quoted_uses m) (by decide) (by decide)
  rw [ImportStatement.text_named, ← List.append_assoc clause.text]
  exact (hunbegun "import ".toList (by decide) _).append ((hclause _).append hmodule)

end CodeIndex.JavaScript
