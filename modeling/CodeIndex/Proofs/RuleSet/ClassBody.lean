import CodeIndex.Proofs.RuleSet.MethodHeader

/-!
# Bodies made of methods

A class whose body is a sequence of methods. The mask of the body keeps the header of each method and turns its
block into white space, so the method rule finds the headers one after another. The other member rules begin
with characters that stand nowhere but in these headers: the constructor rule finds nothing there, and every
property overlaps a method.
-/

namespace CodeIndex.JavaScript

open Regex

/-! ### First characters of members -/

/-- Whether a character may begin a member. -/
def BeginsMember (c : Char) : Prop :=
  isWord c = true ∨ c = '#'

theorem not_beginsMember_of_blank {c : Char} (h : isBlank c = true) : ¬BeginsMember c := by
  rintro (hword | rfl)
  · rw [isBlank_eq_false hword] at h
    cases h
  · exact absurd h (by decide)

theorem beginsMember_lit {s : String} (h : s.toList.head?.all isWord = true) : (lit s).BeginsIn BeginsMember :=
  beginsIn_lit fun c hc => by
    rw [Option.mem_def.mp hc] at h
    exact Or.inl h

/-- A modifier and the white space behind it, or nothing. -/
theorem beginsMember_modifier {r : Regex} (h : r.BeginsIn BeginsMember) (hsome : r.mayPassNothing = false) :
    (opt (r ++ blanks1)).BeginsIn BeginsMember :=
  (h.seq_of_some hsome blanks1).opt

theorem beginsMember_access : access.BeginsIn BeginsMember := by
  have hwords : (words ["public", "private", "protected"]).BeginsIn BeginsMember :=
    (beginsMember_lit rfl).alt ((beginsMember_lit rfl).alt (beginsMember_lit rfl))
  exact beginsMember_modifier (r := .group 1 (words ["public", "private", "protected"])) hwords rfl

theorem beginsMember_name : (opt (char '#') ++ word).BeginsIn BeginsMember := by
  have hsign : (char '#').BeginsIn BeginsMember := fun c hc => Or.inr (beq_iff_eq.mp hc)
  have hword : word.BeginsIn BeginsMember := fun c hc => Or.inl (by rwa [word, mayBegin_some1] at hc)
  exact hsign.opt.seq hword

theorem methodHeader_begins : methodHeader.BeginsIn BeginsMember := by
  have hstatic := beginsMember_modifier (r := .group 2 (lit "static")) (beginsMember_lit (s := "static") rfl) rfl
  have hasync := beginsMember_modifier (r := .group 3 (lit "async")) (beginsMember_lit (s := "async") rfl) rfl
  have hget := beginsMember_modifier (r := words ["get", "set"])
    ((beginsMember_lit rfl).alt (beginsMember_lit rfl)) rfl
  have hname : (Regex.group 4 (opt (char '#') ++ word)).BeginsIn BeginsMember := beginsMember_name
  have hfront := ((((beginsMember_access.seq hstatic).seq hasync).seq hget).seq hname)
  exact ((((((hfront.seq_of_some rfl _).seq_of_some rfl _).seq_of_some rfl _).seq_of_some rfl _).seq_of_some rfl
    _).seq_of_some rfl _).seq_of_some rfl _

theorem property_begins : property.BeginsIn BeginsMember := by
  have hstatic := beginsMember_modifier (r := .group 2 (lit "static")) (beginsMember_lit (s := "static") rfl) rfl
  have hreadonly := beginsMember_modifier (beginsMember_lit (s := "readonly") rfl) rfl
  have hname : (Regex.group 3 (opt (char '#') ++ word)).BeginsIn BeginsMember := beginsMember_name
  have hfront := ((beginsMember_access.seq hstatic).seq hreadonly).seq hname
  exact (((hfront.seq_of_some rfl _).seq_of_some rfl _).seq_of_some rfl _).seq_of_some rfl _

/-! ### Masked bodies -/

theorem not_brace_of_blank {c : Char} (h : isBlank c = true) : c ≠ '{' ∧ c ≠ '}' :=
  ⟨by rintro rfl; exact absurd h (by decide), by rintro rfl; exact absurd h (by decide)⟩

/-- In front of its block a method has no braces. -/
theorem front_not_brace (m : MethodSource) : ∀ c ∈ m.gap ++ m.front, c ≠ '{' ∧ c ≠ '}' := by
  have hword : ∀ c ∈ m.name.text, c ≠ '{' ∧ c ≠ '}' := fun c hc =>
    ⟨ne_of_isWord (m.name.word c hc) (by decide), ne_of_isWord (m.name.word c hc) (by decide)⟩
  have hclosing : ∀ c ∈ ") ".toList, c ≠ '{' ∧ c ≠ '}' := Text.forall_mem _ (by decide)
  exact List.forall_mem_append.mpr ⟨fun c hc => not_brace_of_blank (m.blank c hc), List.forall_mem_append.mpr
    ⟨hword, List.forall_mem_cons.mpr ⟨by decide, List.forall_mem_append.mpr ⟨m.not_brace, hclosing⟩⟩⟩⟩

theorem mask_method (m : MethodSource) (rest : Text) :
    ∃ blank : Text, maskNested (m.text ++ rest) = m.gap ++ (m.header ++ (blank ++ ['}'] ++ maskNested rest)) ∧
      blank.Blanks m.body := by
  obtain ⟨blank, hblock, hblank⟩ := maskFrom_block m.body rest m.balanced.leads
  have hsplit : m.text ++ rest = (m.gap ++ m.front) ++ '{' :: (m.body ++ '}' :: rest) := by
    simp only [MethodSource.text, m.header_eq, List.append_assoc, List.cons_append, List.nil_append]
  refine ⟨blank, ?_, hblank⟩
  rw [maskNested, hsplit, maskFrom_plain _ _ (front_not_brace m), hblock, m.header_eq]
  simp only [List.append_assoc, List.singleton_append, maskNested]

/-- What a mask leaves of a block begins no member. -/
theorem quiet_of_blanks {blank t : Text} (h : blank.Blanks t) : ∀ c ∈ blank ++ ['}'], ¬BeginsMember c := by
  refine List.forall_mem_append.mpr ⟨fun c hc => ?_, List.forall_mem_singleton.mpr (by unfold BeginsMember; decide)⟩
  obtain rfl | rfl := h.only c hc
  · exact not_beginsMember_of_blank rfl
  · exact not_beginsMember_of_blank rfl

/-- A character of two texts stands in the first or in the second. -/
theorem append_eq_append_cons {a b u v : Text} {c : Char} (h : a ++ b = u ++ c :: v) :
    (∃ w, a = u ++ c :: w ∧ v = w ++ b) ∨ ∃ w, u = a ++ w ∧ b = w ++ c :: v := by
  obtain ⟨w, hu, hb⟩ | ⟨w, ha, hcv⟩ := List.append_eq_append_iff.mp h
  · exact Or.inr ⟨w, hu, hb⟩
  · cases w with
    | nil => exact Or.inr ⟨[], by rw [ha, List.append_nil, List.append_nil], hcv.symm⟩
    | cons d w =>
      obtain ⟨rfl, hv⟩ := List.cons.inj hcv
      exact Or.inl ⟨w, ha, hv⟩

/-! ### Methods -/

/-- The place behind the gap of a method, and the place behind its block, in a mask. -/
structure MethodPlaces (m : MethodSource) (place : Cursor) (masked : Text) where
  tail : Text
  rest : place.rest = m.gap ++ (m.header ++ (tail ++ masked))
  quiet : ∀ c ∈ tail, ¬BeginsMember c
  width : Text.width tail = Text.width (m.body ++ ['}'])

namespace MethodPlaces

variable {m : MethodSource} {place : Cursor} {masked : Text}

def start (h : MethodPlaces m place masked) : Cursor :=
  place.after m.gap (m.header ++ (h.tail ++ masked))

def behind (h : MethodPlaces m place masked) : Cursor :=
  (h.start.after m.header (h.tail ++ masked)).after h.tail masked

/-- The match of the method rule. -/
def matched (h : MethodPlaces m place masked) : Match :=
  m.matched h.start (h.tail ++ masked)

theorem start_offset (h : MethodPlaces m place masked) : h.start.offset = place.offset + m.gap.width := rfl

theorem behind_offset (h : MethodPlaces m place masked) : h.behind.offset = place.offset + m.text.width := by
  rw [behind, Cursor.after_offset, Cursor.after_offset, start_offset, MethodSource.text, Text.width_append,
    Text.width_append, h.width]
  omega

theorem gap_quiet (m : MethodSource) : ∀ c ∈ m.gap, ¬BeginsMember c :=
  fun c hc => not_beginsMember_of_blank (m.blank c hc)

/-- Where a member may begin, there is a header, or the place lies behind the method. -/
theorem place_cases (h : MethodPlaces m place masked) {u v : Text} {c : Char} (hsplit : place.rest = u ++ c :: v)
    (hc : BeginsMember c) :
    h.start.offset ≤ place.offset + u.width ∧ place.offset + u.width < h.start.offset + m.header.width ∨
      ∃ w, masked = w ++ c :: v ∧ place.offset + u.width = h.behind.offset + Text.width w := by
  have hnot : ∀ a x : Text, (∀ d ∈ a, ¬BeginsMember d) → ∀ w, a ≠ x ++ c :: w := by
    rintro a x ha w rfl
    exact ha c (List.mem_append_right x List.mem_cons_self) hc
  obtain ⟨w, hgap, -⟩ | ⟨x, hu, hx⟩ := append_eq_append_cons (h.rest.symm.trans hsplit)
  · exact absurd hgap (hnot _ _ (gap_quiet m) _)
  obtain ⟨w, hheader, -⟩ | ⟨y, hxy, hy⟩ := append_eq_append_cons hx
  · have hpos := c.utf8Size_pos
    rw [hu, hheader, start_offset, Text.width_append, Text.width_append, Text.width]
    omega
  obtain ⟨w, htail, -⟩ | ⟨z, hyz, hz⟩ := append_eq_append_cons hy
  · exact absurd htail (hnot _ _ h.quiet _)
  · refine Or.inr ⟨z, hz, ?_⟩
    rw [hu, hxy, hyz, behind, Cursor.after_offset, Cursor.after_offset, start_offset, Text.width_append,
      Text.width_append, Text.width_append]
    omega

/-- A rule that begins members passes over the gap and the block of a method. -/
theorem found_behind {r : Regex} (hr : r.BeginsIn BeginsMember) (hsome : r.mayPassNothing = false) (fuel : Nat)
    (h : MethodPlaces m place masked) :
    r.found fuel place = r.found fuel h.start ∧
      r.found fuel (h.start.after m.header (h.tail ++ masked)) = r.found fuel h.behind := by
  have hquiet : ∀ c : Char, ¬BeginsMember c → r.mayBegin c = false := fun c hc =>
    Bool.eq_false_iff.mpr fun h => hc (hr c h)
  exact ⟨found_skip_begin hsome place m.gap _ h.rest fun c hc => hquiet c (gap_quiet m c hc),
    found_skip_begin hsome _ h.tail masked rfl fun c hc => hquiet c (h.quiet c hc)⟩

end MethodPlaces

theorem methodPlaces (m : MethodSource) (place : Cursor) (more : Text)
    (hrest : place.rest = maskNested (m.text ++ more)) : Nonempty (MethodPlaces m place (maskNested more)) := by
  obtain ⟨blank, hmask, hblank⟩ := mask_method m more
  exact ⟨⟨blank ++ ['}'], hrest.trans hmask, quiet_of_blanks hblank, by
    rw [Text.width_append, hblank.width, Text.width_append]⟩⟩

/-- The methods of a body that stands behind a text, each on the line of its name. -/
def methodsBehind : Text → List MethodSource → List Method
  | _, [] => []
  | before, m :: more =>
    m.decl ((before ++ m.gap).count '\n' + 1) :: methodsBehind (before ++ m.text) more

/-- What the method rule finds from a place of a mask on. -/
structure FindsMethods (t : Text) (place : Cursor) (found : List Match) (methods : List Method) : Prop where
  made : found.mapM (methodOf? t (.ofText t)) = some methods
  named : ∀ m ∈ found, namesMethod m = true
  /-- Where a member may begin, a method was found. -/
  covers : ∀ (u : Text) (c : Char) (v : Text), place.rest = u ++ c :: v → BeginsMember c →
    ∃ m ∈ found, m.start.offset ≤ place.offset + u.width ∧ place.offset + u.width < m.stop.offset

/-- The end of a body in which nothing follows. -/
theorem mask_blank (last : Text) (h : ∀ c ∈ last, isBlank c = true) : maskNested last = last := by
  have hmask := maskFrom_plain last [] fun c hc => not_brace_of_blank (h c hc)
  rwa [List.append_nil, maskFrom, List.append_nil] at hmask

theorem methods_found {t : Text} (fuel : Nat) (methods : List MethodSource) (last : Text)
    (hlast : ∀ c ∈ last, isBlank c = true) (before rest : Text)
    (ht : t = before ++ (methods.flatMap MethodSource.text ++ last ++ rest)) (place : Cursor)
    (hoffset : place.offset = before.width)
    (hrest : place.rest = maskNested (methods.flatMap MethodSource.text ++ last)) :
    FindsMethods t place (methodHeader.found fuel place) (methodsBehind before methods) := by
  induction methods generalizing before place with
  | nil =>
    have hmask : place.rest = last := hrest.trans (mask_blank last hlast)
    have hquiet : ∀ c ∈ place.rest, ¬BeginsMember c := fun c hc =>
      not_beginsMember_of_blank (hlast c (hmask ▸ hc))
    have hnothing : methodHeader.found fuel place = [] :=
      found_eq_nil rfl place fun c hc => Bool.eq_false_iff.mpr fun h => hquiet c hc (methodHeader_begins c h)
    rw [hnothing]
    refine ⟨rfl, List.forall_mem_nil _, fun u c v hsplit hc => absurd hc (hquiet c ?_)⟩
    rw [hsplit]
    exact List.mem_append_right u List.mem_cons_self
  | cons m methods ih =>
    rw [List.flatMap_cons, List.append_assoc] at hrest
    obtain ⟨places⟩ := methodPlaces m place _ hrest
    have hstart : places.start.offset = (before ++ m.gap).width := by
      rw [places.start_offset, hoffset, Text.width_append]
    have hbehind : places.behind.offset = (before ++ m.text).width := by
      rw [places.behind_offset, hoffset, Text.width_append]
    obtain ⟨hskip, hlater⟩ := places.found_behind methodHeader_begins rfl fuel
    have hfound : methodHeader.found fuel place =
        places.matched :: methodHeader.found fuel places.behind := by
      rw [hskip, found_take (methodHeader_takes m rfl) (by rw [m.header_eq]; simp), hlater]
      rfl
    have hmore := ih (before ++ m.text)
      (by rw [ht, List.flatMap_cons]; simp only [List.append_assoc]) places.behind hbehind rfl
    have hmade : methodOf? t (.ofText t) (places.matched) =
        some (m.decl ((before ++ m.gap).count '\n' + 1)) := by
      have hmatched := methodOf?_matched m (before ++ m.gap) (methods.flatMap MethodSource.text ++ last ++ rest)
        _ hstart (Cursor.after_rest place m.gap _)
      have hsplit : (before ++ m.gap) ++ (m.header ++ (m.body ++ '}' ::
          (methods.flatMap MethodSource.text ++ last ++ rest))) = t := by
        rw [ht, List.flatMap_cons, MethodSource.text]
        simp only [List.append_assoc, List.cons_append, List.nil_append]
      rwa [hsplit] at hmatched
    rw [hfound]
    refine ⟨?_, ?_, fun u c v hsplit hc => ?_⟩
    · rw [List.mapM_cons, hmade, hmore.made]
      rfl
    · exact List.forall_mem_cons.mpr ⟨namesMethod_matched m rfl, hmore.named⟩
    · obtain hhere | ⟨w, hmasked, hplace⟩ := places.place_cases hsplit hc
      · exact ⟨_, List.mem_cons_self, hhere⟩
      · obtain ⟨found, hmem, hbounds⟩ := hmore.covers w c v hmasked hc
        exact ⟨found, List.mem_cons_of_mem _ hmem, by rwa [hplace]⟩

/-! ### Constructors -/

theorem constructorHeader_begins : constructorHeader.BeginsIn BeginsMember := by
  have hfront : (edge ++ lit "constructor").BeginsIn BeginsMember :=
    BeginsIn.seq (fun _ hc => nomatch hc) (beginsMember_lit rfl)
  exact ((((((hfront.seq_of_some rfl _).seq_of_some rfl _).seq_of_some rfl _).seq_of_some rfl _).seq_of_some rfl
    _).seq_of_some rfl _)

/-- Behind the word `constructor` and white space the rule asks for a parenthesis. -/
theorem constructor_refuses {fuel : Nat} {p : Cursor}
    (h : ∀ space later : Text, (∀ c ∈ space, isBlank c = true) →
      p.rest ≠ "constructor".toList ++ (space ++ '(' :: later)) : constructorHeader.Refuses fuel p := by
  have hfront : (edge ++ lit "constructor" ++ blanks ++ char '(').Refuses fuel p := by
    refine refuses_of_accepts ?_
    rintro _ later ⟨_, _, ⟨_, space, ⟨_, _, rfl, rfl, rfl⟩, hspace, rfl⟩, hparen, rfl⟩
    obtain rfl := (accepts_char '(' _).mp hparen
    have hne := h space later hspace
    simpa only [List.nil_append, List.append_assoc, List.singleton_append] using hne
  exact (((hfront.seq _).seq _).seq _).seq _

/-- In the name of a method: its whole is not `constructor`, and no rest of it stands behind an edge. -/
theorem name_refuses (m : MethodSource) (fuel : Nat) (place : Cursor) (a n behind : Text) (c : Char)
    (hname : m.name.text = a ++ c :: n) :
    constructorHeader.Refuses fuel (place.after a (c :: (n ++ '(' :: behind))) := by
  have hcword : isWord c = true :=
    m.name.word c (by rw [hname]; exact List.mem_append_right a List.mem_cons_self)
  rcases List.eq_nil_or_concat a with rfl | ⟨a', e, rfl⟩
  · refine constructor_refuses fun space later hspace hrest => m.named.1 ?_
    have hsplit : m.name.text ++ '(' :: behind = "constructor".toList ++ (space ++ '(' :: later) := by
      rw [hname]
      exact hrest
    obtain ⟨d, more, hd, hdword⟩ : ∃ d more, space ++ '(' :: later = d :: more ∧ isWord d = false := by
      cases space with
      | nil => exact ⟨'(', later, rfl, by decide⟩
      | cons d space =>
        refine ⟨d, _, rfl, Bool.eq_false_iff.mpr fun hd => ?_⟩
        exact not_beginsMember_of_blank (hspace d List.mem_cons_self) (Or.inl hd)
    rw [hd] at hsplit
    have hconstructor : ∀ c ∈ "constructor".toList, isWord c = true := Text.forall_mem _ (by decide)
    exact (first_outside_unique hsplit m.name.word (by decide) hconstructor hdword).1
  · have heword : isWord e = true := m.name.word e (by rw [hname, List.concat_eq_append]; simp)
    have hedge : Anchor.wordBoundary.holds
        (place.after (a'.concat e) (c :: (n ++ '(' :: behind))) = false := by
      rw [Anchor.holds, Cursor.after, List.concat_eq_append, List.getLast?_append, List.getLast?_singleton,
        Option.some_or, Option.some_or, Option.any_some, heword, List.head?_cons, Option.any_some, hcword]
      rfl
    exact (((((((refuses_anchor hedge).seq _).seq _).seq _).seq _).seq _).seq _).seq _

/-- In the parameters of a method: the next parenthesis closes. -/
theorem parameters_refuse (m : MethodSource) (fuel : Nat) (place : Cursor) (a q behind : Text) (c : Char)
    (hparameters : m.parameters = a ++ c :: q) (before : Text) :
    constructorHeader.Refuses fuel (place.after before (c :: (q ++ ')' :: behind))) := by
  refine constructor_refuses fun space later hspace hrest => ?_
  have hinside : ∀ d ∈ c :: q, (d != '(' && d != ')') = true := by
    intro d hd
    have hparen := m.not_paren d (by rw [hparameters]; exact List.mem_append_right a hd)
    simp only [hparen.1, hparen.2, Bool.and_eq_true, bne_iff_ne, ne_eq, not_false_eq_true, and_self]
  have hword : ∀ d ∈ "constructor".toList ++ space, (d != '(' && d != ')') = true := by
    refine List.forall_mem_append.mpr ⟨Text.forall_mem _ (by decide), fun d hd => ?_⟩
    have hblank := hspace d hd
    have hopen : d ≠ '(' := by rintro rfl; exact absurd hblank (by decide)
    have hclose : d ≠ ')' := by rintro rfl; exact absurd hblank (by decide)
    simp only [hopen, hclose, Bool.and_eq_true, bne_iff_ne, ne_eq, not_false_eq_true, and_self]
  have hsplit : (c :: q) ++ ')' :: behind = ("constructor".toList ++ space) ++ '(' :: later :=
    hrest.trans (List.append_assoc ..).symm
  exact absurd (first_outside_unique hsplit hinside rfl hword rfl).2.1 (by decide)

/-- No place of a method header is one of a constructor. -/
theorem header_refuses (m : MethodSource) (fuel : Nat) (place : Cursor) (rest a b : Text) (c : Char)
    (hsplit : m.header = a ++ c :: b) :
    constructorHeader.Refuses fuel (place.after a (c :: (b ++ rest))) := by
  have hsymbol : isWord c = false → c ≠ '#' → constructorHeader.Refuses fuel (place.after a (c :: (b ++ rest))) := by
    refine fun hword hsign => refuses_of_begin rfl fun d later hd => ?_
    obtain ⟨rfl, -⟩ := List.cons.inj hd
    refine Bool.eq_false_iff.mpr fun h => ?_
    obtain h | h := constructorHeader_begins c h
    · rw [hword] at h
      cases h
    · exact hsign h
  obtain ⟨n, hname, hb⟩ | ⟨w, ha, hw⟩ := append_eq_append_cons hsplit
  · have hrefuses := name_refuses m fuel place a n (m.parameters ++ ") \x7b".toList ++ rest) c hname
    rw [hb, List.append_assoc]
    exact hrefuses
  · cases w with
    | nil =>
      obtain ⟨rfl, -⟩ := List.cons.inj hw
      exact hsymbol (by decide) (by decide)
    | cons d w =>
      obtain ⟨-, hbehind⟩ := List.cons.inj hw
      obtain ⟨q, hparameters, hb⟩ | ⟨x, -, hx⟩ := append_eq_append_cons hbehind
      · have hrefuses := parameters_refuse m fuel place w q (" \x7b".toList ++ rest) c hparameters a
        rw [hb, List.append_assoc]
        exact hrefuses
      · have hmem : c ∈ [')', ' ', '{'] := by
          rw [show [')', ' ', '{'] = x ++ c :: b from hx]
          exact List.mem_append_right x List.mem_cons_self
        have hall : ∀ d ∈ [')', ' ', '{'], isWord d = false ∧ d ≠ '#' := Text.forall_mem _ (by decide)
        exact hsymbol (hall c hmem).1 (hall c hmem).2

theorem constructors_found (fuel : Nat) (methods : List MethodSource) (last : Text)
    (hlast : ∀ c ∈ last, isBlank c = true) (place : Cursor)
    (hrest : place.rest = maskNested (methods.flatMap MethodSource.text ++ last)) :
    constructorHeader.found fuel place = [] := by
  induction methods generalizing place with
  | nil =>
    have hmask : place.rest = last := hrest.trans (mask_blank last hlast)
    refine found_eq_nil rfl place fun c hc => Bool.eq_false_iff.mpr fun h => ?_
    exact not_beginsMember_of_blank (hlast c (hmask ▸ hc)) (constructorHeader_begins c h)
  | cons m methods ih =>
    rw [List.flatMap_cons, List.append_assoc] at hrest
    obtain ⟨places⟩ := methodPlaces m place _ hrest
    obtain ⟨hskip, hlater⟩ := places.found_behind constructorHeader_begins rfl fuel
    rw [hskip, found_skip places.start m.header _ rfl fun a c b hsplit =>
      (header_refuses m fuel places.start _ a b c hsplit).matchAt?, hlater]
    exact ih places.behind rfl

/-! ### Members -/

/-- Every property that is found overlaps a method. -/
theorem properties_overlap {t : Text} {place : Cursor} {found : List Match} {methods : List Method}
    (h : FindsMethods t place found methods) :
    (property.findAllFrom place).filter (!·.overlapsAny found) = [] := by
  refine List.filter_eq_nil_iff.mpr fun p hp => ?_
  obtain ⟨⟨before, hbefore⟩, passed, haccepts, hpasses⟩ := property.findAllFrom_passes place p hp
  cases passed with
  | nil => exact absurd (mayPassNothing_of_accepts property haccepts) (by decide)
  | cons c passed =>
    have hc := property_begins c (mayBegin_of_accepts property c passed haccepts)
    obtain ⟨m, hm, hstart, hstop⟩ := h.covers before c (passed ++ p.stop.rest)
      (by rw [hbefore.rest, hpasses.rest, List.cons_append]) hc
    have hpos := c.utf8Size_pos
    have hbehind := hpasses.offset
    rw [Text.width] at hbehind
    have hoverlaps : p.overlaps m = true := by
      rw [Match.overlaps, Bool.and_eq_true, decide_eq_true_eq, decide_eq_true_eq, hbefore.offset]
      rw [hbefore.offset] at hbehind
      omega
    have hany : p.overlapsAny found = true := List.any_eq_true.mpr ⟨m, hm, hoverlaps⟩
    rw [hany]
    decide

/-- The members of a class with methods in its body: the methods alone. -/
theorem withMembers?_methods {t : Text} (methods : List MethodSource) (last : Text)
    (hlast : ∀ c ∈ last, isBlank c = true) (before rest : Text)
    (ht : t = before ++ (methods.flatMap MethodSource.text ++ last ++ rest)) (c : ClassDecl) :
    withMembers? t (.ofText t)
        ⟨none, before.width, maskNested (methods.flatMap MethodSource.text ++ last)⟩ c =
      some { c with constructors := [], methods := methodsBehind before methods, properties := [] } := by
  generalize hbody : (⟨none, before.width, maskNested (methods.flatMap MethodSource.text ++ last)⟩ : Cursor) =
    body
  have hoffset : body.offset = before.width := by rw [← hbody]
  have hrest : body.rest = maskNested (methods.flatMap MethodSource.text ++ last) := by rw [← hbody]
  have hmethods := methods_found body.rest.length methods last hlast before rest ht body hoffset hrest
  have hconstructors : constructorHeader.findAllFrom body = [] :=
    constructors_found body.rest.length methods last hlast body hrest
  have hall : (methodHeader.findAllFrom body).filter (fun m => !m.overlapsAny [] && namesMethod m) =
      methodHeader.findAllFrom body :=
    List.filter_eq_self.mpr fun m hm => hmethods.named m hm
  have hmade : (methodHeader.findAllFrom body).mapM (methodOf? t (.ofText t)) =
      some (methodsBehind before methods) := hmethods.made
  have hproperties : (property.findAllFrom body).filter (!·.overlapsAny (methodHeader.findAllFrom body)) = [] :=
    properties_overlap hmethods
  simp only [withMembers?, hconstructors, hall, hmade, hproperties, List.nil_append]
  rfl

/-! ### Texts -/

/-- A text made of one class, with methods and white space in its body, and line feeds at the end. -/
structure ClassSource where
  name : Name
  methods : List MethodSource
  last : Text
  blank : ∀ c ∈ last, isBlank c = true
  final : Nat

namespace ClassSource

/-- The class up to its opening brace. -/
def header (s : ClassSource) : Text :=
  "class ".toList ++ s.name.text ++ " \x7b".toList

def text (s : ClassSource) : Text :=
  s.header ++ (s.methods.flatMap MethodSource.text ++ s.last ++ '}' :: List.replicate s.final '\n')

theorem last_utf8Size (s : ClassSource) : ∀ c, s.text.getLast? = some c → c.utf8Size = 1 := by
  intro c hc
  rw [text, List.getLast?_append, List.getLast?_append, List.getLast?_cons, Option.some_or] at hc
  obtain rfl := Option.some.inj hc
  cases hlast : (List.replicate s.final '\n').getLast? with
  | none => rfl
  | some d =>
    obtain rfl := List.eq_of_mem_replicate (List.mem_of_getLast? hlast)
    rfl

end ClassSource

/-- A body made of methods leaves the depth of braces as it was. -/
theorem leads_methods (methods : List MethodSource) (last : Text) (hlast : ∀ c ∈ last, isBlank c = true) :
    Text.Leads 0 (methods.flatMap MethodSource.text ++ last) 0 := by
  induction methods with
  | nil => exact Text.leads_plain 0 last fun c hc => not_brace_of_blank (hlast c hc)
  | cons m methods ih =>
    have hsplit : (m :: methods).flatMap MethodSource.text ++ last =
        (m.gap ++ m.front) ++ (m.block ++ (methods.flatMap MethodSource.text ++ last)) := by
      simp only [List.flatMap_cons, MethodSource.text, m.header_eq, MethodSource.block, List.append_assoc,
        List.cons_append, List.nil_append]
    rw [hsplit]
    exact (Text.leads_plain 0 _ (front_not_brace m)).append (m.balanced.leads.block.append ih)

end CodeIndex.JavaScript

namespace CodeIndex

open JavaScript Regex

/-- The first class of a text with a class of methods has these methods and no other members: no statement of a
body is taken for one. -/
theorem extract_class_body (language : Language) (hlanguage : language ∈ JavaScript.ruleSet.languages)
    (s : ClassSource) :
    ∃ d c, Registry.standard.extract language s.text = .ok d ∧ d.classes.head? = some c ∧
      c.name = s.name.string ∧ c.line = 1 ∧ c.methods = methodsBehind s.header s.methods ∧
      c.constructors = [] ∧ c.properties = [] := by
  let head : ClassHead := ⟨s.name, none, []⟩
  have hheader : head.text = s.header := List.append_assoc ..
  obtain ⟨header, hfound, hclass⟩ := class_found head s.text.length [] _ (List.replicate s.final '\n') rfl
    (leads_methods s.methods s.last s.blank)
  simp only [hheader, List.nil_append, List.count_nil, Nat.zero_add] at hfound hclass
  have hmade : classOf? s.text (.ofText s.text) header = some _ := hclass.trans
    (withMembers?_methods s.methods s.last s.blank s.header ('}' :: List.replicate s.final '\n') rfl (head.bare 1))
  obtain ⟨d, hd⟩ := describe?_exists language s.text s.last_utf8Size
  have hclasses := (describe?_parts hd).1
  rw [show classHeader.findAll s.text = header :: _ from hfound, List.mapM_cons, hmade, Option.bind_eq_bind,
    Option.bind_some, Option.bind_eq_bind, Option.bind_eq_some_iff] at hclasses
  obtain ⟨later, -, hall⟩ := hclasses
  refine ⟨d, _, ?_, by rw [← Option.some.inj hall]; rfl, rfl, rfl, rfl, rfl, rfl⟩
  rw [extract_ruleSet hlanguage, hd]
  rfl

/-- A method with a class in its block, and a method with a branch. -/
theorem extract_class_body_nested :
    ∃ d c, Registry.standard.extract .typeScript
        "class A \x7b\n  run(x) \x7b class B \x7b go() \x7b if (x) \x7b\x7d \x7d \x7d \x7d\n  get(a, b) \x7b x = a; \x7d\n\x7d\n".toList = .ok d ∧
      d.classes.head? = some c ∧ c.methods.map (fun m => (m.name, m.line, m.complexity)) =
        [("run", 2, 2), ("get", 3, 1)] ∧ c.constructors = [] ∧ c.properties = [] := by
  let source : ClassSource :=
    { name := .ofString "A" (by decide)
      methods :=
        [ { gap := "\n  ".toList, name := .ofString "run" (by decide), parameters := "x".toList
            body := " class B \x7b go() \x7b if (x) \x7b\x7d \x7d \x7d ".toList
            blank := Text.forall_mem _ (by decide), named := by decide
            plain := Text.forall_mem _ (by decide), balanced := by decide }
        , { gap := "\n  ".toList, name := .ofString "get" (by decide), parameters := "a, b".toList
            body := " x = a; ".toList
            blank := Text.forall_mem _ (by decide), named := by decide
            plain := Text.forall_mem _ (by decide), balanced := by decide } ]
      last := "\n".toList
      blank := Text.forall_mem _ (by decide)
      final := 1 }
  obtain ⟨d, c, hd, hhead, -, -, hmethods, hconstructors, hproperties⟩ :=
    extract_class_body .typeScript (by decide) source
  refine ⟨d, c, hd, hhead, ?_, hconstructors, hproperties⟩
  rw [hmethods]
  decide +kernel

end CodeIndex
