import CodeIndex.Proofs.Path.Pieces
import CodeIndex.Text.Blank
import CodeIndex.Text.Word

/-!
# Names and lists of names

A name is made of word characters, and no white space is one. So names that are joined by commas are
found again, trimmed and in their order.
-/

namespace CodeIndex

/-- The characters of a text, checked one after another. -/
theorem Text.forall_mem {good : Char → Prop} [DecidablePred good] (t : Text)
    (h : t.all (fun c => decide (good c)) = true) : ∀ c ∈ t, good c :=
  fun c hc => of_decide_eq_true (List.all_eq_true.mp h c hc)

theorem Text.forall_mem_not {bad : Char → Bool} {t : Text} (h : (t.all fun c => !bad c) = true) :
    ∀ c ∈ t, bad c = false := fun c hc => by
  have hthis := List.all_eq_true.mp h c hc
  rwa [Bool.not_eq_true'] at hthis

/-! ### Word characters -/

/-- The codes of the white space characters. -/
def blankCodes : List Nat :=
  [9, 10, 11, 12, 13, 32, 133, 160, 5760, 8192, 8193, 8194, 8195, 8196, 8197, 8198, 8199, 8200, 8201,
    8202, 8232, 8233, 8239, 8287, 12288]

/-- A number that is found by halving lies in a range of the table. -/
theorem inRangesBetween_mem {table : Array (Nat × Nat)} {n fuel low high : Nat} (hhigh : high ≤ table.size)
    (h : inRangesBetween table n fuel low high = true) : ∃ r ∈ table.toList, r.1 ≤ n ∧ n ≤ r.2 := by
  induction fuel generalizing low high with
  | zero => exact absurd h Bool.false_ne_true
  | succ fuel ih =>
    rw [inRangesBetween] at h
    split at h
    · exact absurd h (by decide)
    · next hlow =>
      have hmiddle : (low + high) / 2 < table.size := by omega
      have hentry : table.getD ((low + high) / 2) (0, 0) = table[(low + high) / 2] := by
        rw [Array.getD_eq_getD_getElem?, Array.getElem?_eq_getElem hmiddle, Option.getD_some]
      simp only [hentry] at h
      split at h
      · exact ih (by omega) h
      · split at h
        · exact ih hhigh h
        · exact ⟨_, Array.getElem_mem_toList hmiddle, by omega, by omega⟩

theorem not_inRanges {table : Array (Nat × Nat)} {n : Nat}
    (h : ∀ r ∈ table.toList, n < r.1 ∨ r.2 < n) : inRanges table n = false := by
  refine Bool.eq_false_iff.mpr fun hin => ?_
  obtain ⟨r, hr, hfirst, hlast⟩ := inRangesBetween_mem (Nat.le_refl _) hin
  have hout := h r hr
  omega

/-- No range of word characters holds white space. -/
theorem wordRanges_not_blank : ∀ r ∈ wordRanges.toList, ∀ n ∈ blankCodes, n < r.1 ∨ r.2 < n := by
  simp only [wordRanges, Array.toList_append, List.forall_mem_append]
  refine ⟨⟨⟨?_, ?_⟩, ?_⟩, ?_⟩ <;> decide +kernel

theorem isBlank_eq_false {c : Char} (h : isWord c = true) : isBlank c = false := by
  have hascii : ∀ n ∈ blankCodes, isAsciiWord (Char.ofNat n) = false := by decide +kernel
  refine Bool.eq_false_iff.mpr fun hblank => ?_
  have hmem : c.toNat ∈ blankCodes := by
    simp only [isBlank, Bool.or_eq_true, Bool.and_eq_true, decide_eq_true_eq, beq_iff_eq] at hblank
    simp only [blankCodes, List.mem_cons, List.not_mem_nil, or_false]
    omega
  rw [isWord] at h
  split at h
  · have hc := hascii c.toNat hmem
    rw [Char.ofNat_toNat, h] at hc
    cases hc
  · rw [not_inRanges fun r hr => wordRanges_not_blank r hr c.toNat hmem] at h
    cases h

theorem isWord_eq_false {c : Char} (h : isBlank c = true) : isWord c = false :=
  Bool.eq_false_iff.mpr fun hword => Bool.false_ne_true ((isBlank_eq_false hword).symm.trans h)

/-- A word character is none of the characters that are not. -/
theorem ne_of_isWord {c d : Char} (h : isWord c = true) (hd : isWord d = false) : c ≠ d := by
  rintro rfl
  rw [h] at hd
  cases hd

/-! ### Names -/

/-- A name: one or more word characters. -/
structure Name where
  text : Text
  nonempty : text ≠ []
  word : ∀ c ∈ text, isWord c = true

namespace Name

def ofString (s : String) (h : s.toList ≠ [] ∧ s.toList.all isWord = true) : Name :=
  ⟨s.toList, h.1, List.all_eq_true.mp h.2⟩

def string (n : Name) : String := String.ofList n.text

theorem not_blank (n : Name) : ∀ c ∈ n.text, isBlank c = false :=
  fun c hc => isBlank_eq_false (n.word c hc)

theorem not_mem (n : Name) {d : Char} (hd : isWord d = false) : d ∉ n.text :=
  fun h => ne_of_isWord (n.word d h) hd rfl

/-- The names one after another, with commas and spaces between them. -/
def joined (names : List Name) : Text :=
  Text.join ", ".toList (names.map text)

theorem joined_cons (n m : Name) (names : List Name) :
    joined (n :: m :: names) = n.text ++ ',' :: ' ' :: joined (m :: names) :=
  List.append_assoc ..

theorem exists_cons (n : Name) : ∃ c rest, n.text = c :: rest ∧ isWord c = true := by
  obtain ⟨c, rest, hn⟩ := List.exists_cons_of_ne_nil n.nonempty
  exact ⟨c, rest, hn, n.word c (hn ▸ List.mem_cons_self)⟩

theorem joined_mem (names : List Name) : ∀ c ∈ joined names, isWord c = true ∨ c = ',' ∨ c = ' ' := by
  induction names with
  | nil => exact List.forall_mem_nil _
  | cons n names ih =>
    cases names with
    | nil => exact fun c hc => Or.inl (n.word c hc)
    | cons m names =>
      rw [joined_cons]
      refine List.forall_mem_append.mpr ⟨fun c hc => Or.inl (n.word c hc), ?_⟩
      exact List.forall_mem_cons.mpr ⟨Or.inr (Or.inl rfl), List.forall_mem_cons.mpr ⟨Or.inr (Or.inr rfl), ih⟩⟩

/-- Joined names end in a word character. -/
theorem joined_last (first : Name) (more : List Name) :
    ∃ c, (joined (first :: more)).getLast? = some c ∧ isWord c = true := by
  induction more generalizing first with
  | nil =>
    have hlast := List.getLast?_eq_some_getLast first.nonempty
    exact ⟨_, hlast, first.word _ (List.getLast_mem first.nonempty)⟩
  | cons m more ih =>
    obtain ⟨c, hc, hword⟩ := ih m
    refine ⟨c, ?_, hword⟩
    rw [joined_cons, List.getLast?_append, List.getLast?_cons_cons, List.getLast?_cons, hc]
    rfl

end Name

/-! ### Characters between names -/

/-- Whether a text has only word characters and some others. -/
def Text.Uses (t : Text) (others : List Char) : Prop :=
  ∀ c ∈ t, isWord c = true ∨ c ∈ others

namespace Text.Uses

variable {t u : Text} {others more : List Char}

theorem of_all (h : (t.all fun c => isWord c || others.contains c) = true) : t.Uses others := fun c hc => by
  have hthis := List.all_eq_true.mp h c hc
  rwa [Bool.or_eq_true, List.contains_iff_mem] at hthis

theorem append (h : t.Uses others) (h' : u.Uses others) : Text.Uses (t ++ u) others :=
  List.forall_mem_append.mpr ⟨h, h'⟩

theorem mono (h : t.Uses others) (hmore : others ⊆ more) : t.Uses more :=
  fun c hc => (h c hc).imp_right fun hin => hmore hin

/-- A class without word characters has no character of such a text if it has none of the others. -/
theorem outside (h : t.Uses others) {marks : Char → Bool} (hword : ∀ c, isWord c = true → marks c = false)
    (hothers : ∀ c ∈ others, marks c = false) : ∀ c ∈ t, marks c = false :=
  fun c hc => (h c hc).elim (hword c) (hothers c)

theorem not_mem (h : t.Uses others) {d : Char} (hword : isWord d = false) (hd : d ∉ others) : d ∉ t := fun hmem =>
  (h d hmem).elim (fun hc => Bool.false_ne_true (hword.symm.trans hc)) hd

end Text.Uses

theorem Name.uses (n : Name) (others : List Char) : n.text.Uses others :=
  fun c hc => Or.inl (n.word c hc)

/-- White space between two names, or nothing. -/
structure Gap where
  text : Text
  blank : ∀ c ∈ text, isBlank c = true

def Gap.none : Gap :=
  ⟨[], List.forall_mem_nil _⟩

def Gap.space : Gap :=
  ⟨[' '], Text.forall_mem _ (by decide)⟩

/-! ### Lists -/

theorem trim_of_not_blank (t : Text) (h : ∀ c ∈ t, isBlank c = false) : t.trim = t := by
  have hhead : ∀ u : Text, (∀ c ∈ u, isBlank c = false) → u.dropWhile isBlank = u := by
    intro u hu
    cases u with
    | nil => rfl
    | cons c u => rw [List.dropWhile_cons_of_neg (by rw [hu c List.mem_cons_self]; decide)]
  rw [Text.trim, Text.trimStart, hhead t h, Text.trimEnd, Text.dropEndWhile,
    hhead t.reverse fun c hc => h c (List.mem_reverse.mp hc), List.reverse_reverse]

theorem commaList_append (u v : Text) :
    Text.commaList (u ++ ',' :: v) = Text.commaList u ++ Text.commaList v := by
  simp only [Text.commaList, splitOn_append (· == ',') u v ',' rfl, List.map_append, List.filter_append]

theorem commaList_blank {c : Char} (hc : isBlank c = true) (t : Text) :
    Text.commaList (c :: t) = Text.commaList t := by
  have htrim : ∀ u : Text, Text.trim (c :: u) = Text.trim u := fun u => by
    rw [Text.trim, Text.trimStart, List.dropWhile_cons_of_pos hc]
    rfl
  have hcomma : ¬(c == ',') = true := fun h => by
    rw [beq_iff_eq.mp h] at hc
    exact absurd hc (by decide)
  rw [Text.commaList, Text.commaList, Text.splitOn, if_neg hcomma]
  cases hpieces : Text.splitOn (· == ',') t with
  | nil => exact absurd hpieces (splitOn_ne_nil _ t)
  | cons piece pieces => simp only [List.map_cons, htrim]

theorem commaList_gap (gap : Gap) (t : Text) : Text.commaList (gap.text ++ t) = Text.commaList t := by
  obtain ⟨blanks, hblank⟩ := gap
  induction blanks with
  | nil => rfl
  | cons c blanks ih =>
    obtain ⟨hc, hblanks⟩ := List.forall_mem_cons.mp hblank
    rw [List.cons_append, commaList_blank hc]
    exact ih hblanks

/-- A text without commas and white space is one piece. -/
theorem commaList_plain (t : Text) (hne : t ≠ []) (h : ∀ c ∈ t, isBlank c = false ∧ c ≠ ',') :
    Text.commaList t = [t] := by
  have hsplit := splitOn_of_none (· == ',') t fun c hc => beq_eq_false_iff_ne.mpr (h c hc).2
  have hsome : t.isEmpty = false := List.isEmpty_eq_false_iff.mpr hne
  rw [Text.commaList, hsplit, List.map_singleton, trim_of_not_blank t fun c hc => (h c hc).1,
    List.filter_cons_of_pos (by rw [hsome]; rfl)]
  rfl

theorem Name.plain (n : Name) : ∀ c ∈ n.text, isBlank c = false ∧ c ≠ ',' :=
  fun c hc => ⟨n.not_blank c hc, ne_of_isWord (n.word c hc) (by decide)⟩

theorem commaList_name (n : Name) : Text.commaList n.text = [n.text] :=
  commaList_plain n.text n.nonempty n.plain

/-- Joined names are found again. -/
theorem commaList_joined (names : List Name) :
    Text.commaList (Name.joined names) = names.map Name.text := by
  induction names with
  | nil => rfl
  | cons n names ih =>
    cases names with
    | nil => exact commaList_name n
    | cons m names =>
      rw [Name.joined_cons, commaList_append, commaList_name, commaList_blank rfl, ih]
      rfl

end CodeIndex
