import CodeIndex.Proofs.RuleSet.ExportRules

/-!
# Matches of the export rules

A match of either rule ends in a whole name, and in front of the name it holds the word `export` only once. So a
match that reaches over the place of another exported declaration is an export of that word.
-/

namespace CodeIndex

/-- Where a text is parted in two ways, the longer part in front begins with the shorter one. -/
theorem Text.append_of_width_lt {u v x y : Text} (h : u ++ x = v ++ y) (hlt : u.width < v.width) :
    ∃ w, w ≠ [] ∧ v = u ++ w ∧ x = w ++ y := by
  rcases List.append_eq_append_iff.mp h with ⟨w, rfl, rfl⟩ | ⟨w, rfl, -⟩
  · refine ⟨w, ?_, rfl, rfl⟩
    rintro rfl
    rw [List.append_nil] at hlt
    exact absurd hlt (Nat.lt_irrefl _)
  · rw [Text.width_append] at hlt
    exact absurd hlt (Nat.not_lt.mpr (Nat.le_add_right ..))

namespace JavaScript

open Regex

/-! ### Names at the ends of matches -/

/-- Whether a match passes a front and then a whole name, which is its only group. -/
structure EndsIn (m : Match) (front : Text) (label : Nat) (name : Name) : Prop where
  ahead : m.start.rest = front ++ (name.text ++ m.stop.rest)
  offset : m.stop.offset = m.start.offset + (front ++ name.text).width
  ends : m.stop.rest.head?.any isWord = false
  groups : ∃ place : Cursor, m.groups = [(label, ⟨place, place.offset + name.text.width⟩)] ∧
    place.rest = name.text ++ m.stop.rest

namespace EndsIn

variable {m : Match} {front : Text} {label : Nat} {name : Name}

theorem group? (h : EndsIn m front label name) : m.group? label = some name.text := by
  obtain ⟨place, hgroups, hplace⟩ := h.groups
  rw [Match.group?, Match.span?, hgroups, List.lookup_cons_self, Option.map_some, Cursor.span_text hplace]

theorem string (h : EndsIn m front label name) {word : Text} (hword : name.text = word) :
    m.string label = String.ofList word := by
  rw [Match.string, Match.group, h.group?, Option.getD_some, hword]

theorem group?_of_ne (h : EndsIn m front label name) {other : Nat} (hne : other ≠ label) : m.group? other = none := by
  obtain ⟨place, hgroups, -⟩ := h.groups
  rw [Match.group?, Match.span?, hgroups, List.lookup_cons, beq_false_of_ne hne]
  rfl

theorem of {p place : Cursor} {passed : Text} (hstart : m.start = p) (hrest : p.rest = passed ++ m.stop.rest)
    (hstop : m.stop = p.after passed m.stop.rest) (hpassed : passed = front ++ name.text)
    (hends : m.stop.rest.head?.any isWord = false)
    (hgroups : m.groups = [(label, ⟨place, place.offset + name.text.width⟩)])
    (hplace : place.rest = name.text ++ m.stop.rest) : EndsIn m front label name where
  ahead := by rw [hstart, hrest, hpassed, List.append_assoc]
  offset := by rw [hstop, hstart, ← hpassed]; rfl
  ends := hends
  groups := ⟨place, hgroups, hplace⟩

/-- The name of a default export, unless it is a keyword that opens an anonymous one. -/
theorem defaultName (h : EndsIn m front label name) (hlabel : label ∈ [1, 2, 3]) :
    defaultName m = if isOneOf ["function", "class", "async"] name.text then "default" else name.string := by
  have hword : ((m.group? 1).orElse fun _ => m.group? 2).getD (m.group 3) = name.text := by
    simp only [List.mem_cons, List.not_mem_nil, or_false] at hlabel
    rcases hlabel with rfl | rfl | rfl
    · rw [h.group?]
      rfl
    · rw [h.group?_of_ne (by decide), h.group?]
      rfl
    · rw [h.group?_of_ne (by decide), h.group?_of_ne (by decide), Match.group, h.group?]
      rfl
  rw [JavaScript.defaultName, hword]
  rfl

end EndsIn

/-! ### Overrun places -/

/-- Whether a text begins an export and holds no second such beginning, not even the first half of one at its
end. -/
def OpensExport (front : Text) : Prop :=
  ∃ u v : Text, front = 'e' :: 'x' :: (u ++ v) ∧ 'x' ∉ u ++ v ∧ v ≠ [] ∧ 'e' ∉ v

/-- No export begins inside of such a text behind its start. -/
theorem OpensExport.begins {front w c later rest : Text} (h : OpensExport front) (hfront : front = w ++ c)
    (hw : w ≠ []) (hc : c ++ later = 'e' :: 'x' :: rest) : c = [] := by
  obtain ⟨u, v, rfl, hx, hv, he⟩ := h
  obtain ⟨e, w, rfl⟩ := List.exists_cons_of_ne_nil hw
  obtain ⟨rfl, hrest⟩ := List.cons.inj hfront
  cases c with
  | nil => rfl
  | cons d c =>
    obtain ⟨rfl, hlater⟩ := List.cons.inj hc
    cases c with
    | nil =>
      have hend : v.getLast? = some 'e' := by
        have hlast := congrArg List.getLast? hrest
        rw [List.append_eq, List.getLast?_concat, ← List.cons_append, List.getLast?_append, List.getLast?_eq_some_getLast hv,
          Option.some_or] at hlast
        rw [List.getLast?_eq_some_getLast hv, hlast]
      exact absurd (List.mem_of_getLast? hend) he
    | cons f c =>
      obtain ⟨rfl, -⟩ := List.cons.inj hlater
      cases w with
      | nil => cases (List.cons.inj hrest).1
      | cons g w =>
        have htail := (List.cons.inj hrest).2
        rw [htail] at hx
        exact absurd (List.mem_append_right w (List.mem_cons_of_mem 'e' List.mem_cons_self)) hx

/-- A match that reaches over the place of an exported declaration names the word `export`. -/
theorem EndsIn.overrun {m : Match} {front : Text} {label : Nat} {name : Name} (h : EndsIn m front label name)
    (hfront : OpensExport front) {before rest : Text} {s : ExportedName}
    (hm : (before ++ (s.text ++ rest)).start.Reaches m.start) (hedge : before.getLast?.any isWord = false)
    (hstart : m.start.offset < before.width) (hstop : before.width < m.stop.offset) :
    name.text = "export".toList := by
  obtain ⟨passed, hpassed⟩ := hm
  have hoffset : m.start.offset = passed.width := by
    rw [hpassed.offset]
    exact Nat.zero_add _
  obtain ⟨w, hw, rfl, hrest⟩ := Text.append_of_width_lt
    (show passed ++ m.start.rest = before ++ (s.text ++ rest) from hpassed.rest.symm) (by rw [← hoffset]; exact hstart)
  have hwidth : Text.width w < Text.width (front ++ name.text) := by
    rw [h.offset, hoffset, Text.width_append] at hstop
    omega
  have hbegins : ∀ later : Text, s.text ++ later = 'e' :: 'x' :: ("port".toList ++ (s.gap.text ++ (s.head.text
      ++ s.name.text)) ++ later) := fun later => rfl
  rw [h.ahead] at hrest
  -- the declaration does not begin inside of the front, so it begins in the name or right in front of it
  obtain ⟨w, rfl, hname⟩ : ∃ w' : Text, w = front ++ w' ∧ name.text ++ m.stop.rest = w' ++ (s.text ++ rest) := by
    rcases List.append_eq_append_iff.mp hrest with ⟨c, rfl, hc⟩ | ⟨c, hc, hlater⟩
    · exact ⟨c, rfl, hc⟩
    · obtain rfl := hfront.begins hc hw (hlater.symm.trans (hbegins rest))
      refine ⟨[], ?_, hlater.symm⟩
      rw [List.append_nil, hc, List.append_nil]
  rcases List.eq_nil_or_concat w with rfl | ⟨w, c, rfl⟩
  · have hgap := s.gap.head? isWord (s.head.text ++ s.name.text ++ rest) fun c hc => isBlank_eq_false hc
    have hexport : name.text ++ m.stop.rest = "export".toList ++ (s.gap.text ++ (s.head.text ++ s.name.text ++ rest)) := by
      simp only [hname, ExportedName.text_eq, List.nil_append, List.append_assoc]
    exact (run_unique hexport name.word h.ends (List.all_eq_true.mp rfl) hgap).1
  · -- the place would stand inside of the name, behind a word character
    rw [Text.width_append, Text.width_append] at hwidth
    obtain ⟨z, -, hz, -⟩ := Text.append_of_width_lt hname.symm (Nat.lt_of_add_lt_add_left hwidth)
    rw [List.concat_eq_append] at hz hedge
    have hc := name.word c (hz ▸ List.mem_append_left z List.mem_concat_self)
    rw [← List.append_assoc, ← List.append_assoc, List.getLast?_concat, Option.any_some,
      hc] at hedge
    cases hedge

/-! ### Forms of the matches -/

theorem Gap.not_mem {gap : Gap} {c : Char} (hc : isBlank c = false) : c ∉ gap.text := fun hin =>
  Bool.false_ne_true (hc.symm.trans (gap.blank c hin))

theorem optional_not_mem {word : String} {c : Char} (o : Option Space) (hword : c ∉ word.toList)
    (hc : isBlank c = false) : c ∉ optional word o := by
  cases o with
  | none => exact List.not_mem_nil
  | some space => exact fun hin => (List.mem_append.mp hin).elim hword (Gap.not_mem hc)

/-- The keywords of declarations that the rule for exports knows. -/
def exportedKeywords : List String :=
  ["const", "let", "var", "function", "function*", "class", "interface", "type", "enum"]

theorem way_declaringWord {p : Cursor} {passed rest : Text} {added : List (Nat × Span)}
    (h : declaringWord.Way p passed rest added) :
    ∃ keyword ∈ exportedKeywords, passed = keyword.toList ∧ added = [] := by
  rcases h with h | h | h | ⟨_, _, _, _, rfl, rfl, ⟨rfl, rfl⟩, hstar⟩ | h | h | h | h
  · exact ⟨"const", by decide, h⟩
  · exact ⟨"let", by decide, h⟩
  · exact ⟨"var", by decide, h⟩
  · rcases way_star hstar with ⟨rfl | rfl, rfl⟩
    · exact ⟨"function", by decide, rfl, rfl⟩
    · exact ⟨"function*", by decide, rfl, rfl⟩
  · exact ⟨"class", by decide, h⟩
  · exact ⟨"interface", by decide, h⟩
  · exact ⟨"type", by decide, h⟩
  · exact ⟨"enum", by decide, h⟩

variable {fuel : Nat} {p : Cursor} {m : Match}

theorem exportedDeclaration_reads (h : exportedDeclaration.matchAt? fuel p = some m) :
    ∃ (space gap : Space) (async_ : Option Space) (keyword : String) (name : Name), keyword ∈ exportedKeywords ∧
      EndsIn m ("export".toList ++ (space.text ++ (optional "async" async_ ++ (keyword.toList ++ gap.text)))) 1 name := by
  have hstart := (matchAt?_liesBehind _ fuel p m h).1
  have hends : m.stop.rest.head?.any isWord = false := ((endsOutside_some1 1 isWord).seq _).matchAt? h
  have hnested : (edge ++ (lit "export" ++ (blanks1 ++ (opt (lit "async" ++ blanks1) ++ (declaringWord
      ++ (blanks1 ++ Regex.group 1 word)))))).matchAt? fuel p = some m := h
  obtain ⟨_, hrest, hstop, hway⟩ := matchAt?_way hnested
  obtain ⟨_, _, _, _, rfl, hgroups, ⟨rfl, rfl, -⟩, _, _, _, _, rfl, rfl, ⟨rfl, rfl⟩, _, _, _, _, rfl, rfl, hspace,
    _, _, _, _, rfl, rfl, hasync, _, _, _, _, rfl, rfl, hkeyword, _, _, _, _, rfl, rfl, hgap, _, rfl, hname⟩ := hway
  obtain ⟨space, rfl, rfl⟩ := way_blanks1 hspace
  obtain ⟨async_, rfl, rfl⟩ := way_optional hasync
  obtain ⟨keyword, hknown, rfl, rfl⟩ := way_declaringWord hkeyword
  obtain ⟨gap, rfl, rfl⟩ := way_blanks1 hgap
  obtain ⟨name, rfl, rfl⟩ := way_word hname
  exact ⟨space, gap, async_, keyword, name, hknown, .of hstart hrest hstop
    (by simp only [List.append_assoc, List.nil_append]) hends hgroups rfl⟩

theorem opensExport (space : Space) {u v : Text} (hu : 'x' ∉ u) (hv : 'x' ∉ v) (hne : v ≠ []) (he : 'e' ∉ v) :
    OpensExport ("export".toList ++ (space.text ++ (u ++ v))) := by
  refine ⟨"port".toList ++ (space.text ++ u), v, by simp only [List.append_assoc]; rfl, ?_, hne, he⟩
  simp only [List.mem_append, not_or]
  exact ⟨⟨by decide, Gap.not_mem rfl, hu⟩, hv⟩

theorem opensExport_declaration (space gap : Space) (async_ : Option Space) {keyword : String}
    (hkeyword : keyword ∈ exportedKeywords) : OpensExport ("export".toList ++ (space.text
      ++ (optional "async" async_ ++ (keyword.toList ++ gap.text)))) := by
  have hx : 'x' ∉ keyword.toList := (by decide : ∀ k ∈ exportedKeywords, 'x' ∉ k.toList) keyword hkeyword
  have hu : 'x' ∉ optional "async" async_ ++ keyword.toList := fun h =>
    (List.mem_append.mp h).elim (optional_not_mem async_ (by decide) rfl) hx
  rw [← List.append_assoc (optional "async" async_)]
  exact opensExport space hu (Gap.not_mem rfl) gap.nonempty (Gap.not_mem rfl)

/-- The parts of a default export in front of the name, of which the last may be missing. -/
theorem opensExport_default (space d : Space) (abstract_ : Option Space) {v : Text}
    (hx : 'x' ∉ v) (he : 'e' ∉ v) : OpensExport ("export".toList ++ (space.text ++ ("default".toList ++ (d.text
      ++ (optional "abstract" abstract_ ++ v))))) := by
  have hd : 'x' ∉ "default".toList ++ d.text := fun h => (List.mem_append.mp h).elim (by decide) (Gap.not_mem rfl)
  cases abstract_ with
  | some behind =>
    have hu : 'x' ∉ "default".toList ++ d.text ++ "abstract".toList := fun h =>
      (List.mem_append.mp h).elim hd (by decide)
    have hopens := opensExport space hu (v := behind.text ++ v)
      (fun h => (List.mem_append.mp h).elim (Gap.not_mem rfl) hx)
      (fun h => behind.nonempty (List.append_eq_nil_iff.mp h).1)
      (fun h => (List.mem_append.mp h).elim (Gap.not_mem rfl) he)
    simpa only [optional, List.append_assoc] using hopens
  | none =>
    have hopens := opensExport space (u := "default".toList) (by decide) (v := d.text ++ v)
      (fun h => (List.mem_append.mp h).elim (Gap.not_mem rfl) hx)
      (fun h => d.nonempty (List.append_eq_nil_iff.mp h).1)
      (fun h => (List.mem_append.mp h).elim (Gap.not_mem rfl) he)
    exact hopens

theorem defaultExport_reads (h : defaultExport.matchAt? fuel p = some m) :
    ∃ (space d : Space) (later : Text) (label : Nat) (name : Name), label ∈ [1, 2, 3] ∧
      OpensExport ("export".toList ++ (space.text ++ ("default".toList ++ (d.text ++ later)))) ∧
      EndsIn m ("export".toList ++ (space.text ++ ("default".toList ++ (d.text ++ later)))) label name := by
  have hstart := (matchAt?_liesBehind _ fuel p m h).1
  have hends : m.stop.rest.head?.any isWord = false :=
    (((((endsOutside_some1 1 isWord).seq _).alt (((endsOutside_some1 2 isWord).seq _).alt
      (endsOutside_some1 3 isWord))).seq _)).matchAt? h
  have hnested : (edge ++ (lit "export" ++ (blanks1 ++ (lit "default" ++ (blanks1 ++ (opt (lit "abstract" ++ blanks1)
      ++ oneOf
        [lit "class" ++ (blanks1 ++ .group 1 word),
          opt (lit "async" ++ blanks1) ++ (lit "function" ++ (blanks ++ (opt (char '*') ++ (blanks
            ++ .group 2 word)))),
          .group 3 word])))))).matchAt? fuel p = some m := h
  obtain ⟨_, hrest, hstop, hway⟩ := matchAt?_way hnested
  obtain ⟨_, _, _, _, rfl, hgroups, ⟨rfl, rfl, -⟩, _, _, _, _, rfl, rfl, ⟨rfl, rfl⟩, _, _, _, _, rfl, rfl, hspace,
    _, _, _, _, rfl, rfl, ⟨rfl, rfl⟩, _, _, _, _, rfl, rfl, hd, _, _, _, _, rfl, rfl, habstract, hform⟩ := hway
  obtain ⟨space, rfl, rfl⟩ := way_blanks1 hspace
  obtain ⟨d, rfl, rfl⟩ := way_blanks1 hd
  obtain ⟨abstract_, rfl, rfl⟩ := way_optional habstract
  rcases hform with ⟨_, _, _, _, rfl, rfl, ⟨rfl, rfl⟩, _, _, _, _, rfl, rfl, hgap, _, rfl, hname⟩ |
    ⟨_, _, _, _, rfl, rfl, hasync, _, _, _, _, rfl, rfl, ⟨rfl, rfl⟩, _, _, _, _, rfl, rfl, hbefore, star, _, _, _, rfl,
      rfl, hstar, _, _, _, _, rfl, rfl, hbehind, _, rfl, hname⟩ | ⟨_, rfl, hname⟩
  · obtain ⟨gap, rfl, rfl⟩ := way_blanks1 hgap
    obtain ⟨name, rfl, rfl⟩ := way_word hname
    refine ⟨space, d, optional "abstract" abstract_ ++ ("class".toList ++ gap.text), 1, name, by decide,
      opensExport_default space d abstract_ ?_ ?_, .of hstart hrest hstop
        (by simp only [List.append_assoc, List.nil_append]) hends hgroups rfl⟩
    · exact fun h => (List.mem_append.mp h).elim (by decide) (Gap.not_mem rfl)
    · exact fun h => (List.mem_append.mp h).elim (by decide) (Gap.not_mem rfl)
  · obtain ⟨async_, rfl, rfl⟩ := way_optional hasync
    obtain ⟨before, rfl, rfl⟩ := way_blanks hbefore
    obtain ⟨behind, rfl, rfl⟩ := way_blanks hbehind
    obtain ⟨name, rfl, rfl⟩ := way_word hname
    obtain ⟨hmarks, rfl⟩ := way_star hstar
    have hout : ∀ c, isBlank c = false → c ∉ "async".toList → c ∉ "function".toList → c ≠ '*' →
        c ∉ optional "async" async_ ++ ("function".toList ++ (before.text ++ (star ++ behind.text))) := by
      intro c hc hword hword' hne
      have hmark : c ∉ star := by
        rcases hmarks with rfl | rfl
        · exact List.not_mem_nil
        · exact fun h => hne (List.mem_singleton.mp h)
      simp only [List.mem_append, not_or]
      exact ⟨optional_not_mem async_ hword hc, hword', Gap.not_mem hc, hmark, Gap.not_mem hc⟩
    exact ⟨space, d, _, 2, name, by decide, opensExport_default space d abstract_
      (hout 'x' rfl (by decide) (by decide) (by decide)) (hout 'e' rfl (by decide) (by decide) (by decide)),
      .of hstart hrest hstop (by simp only [List.append_assoc, List.nil_append]) hends hgroups rfl⟩
  · obtain ⟨name, rfl, rfl⟩ := way_word hname
    refine ⟨space, d, optional "abstract" abstract_ ++ [], 3, name, by decide,
      opensExport_default space d abstract_ List.not_mem_nil List.not_mem_nil, .of hstart hrest hstop
        (by simp only [List.append_assoc, List.nil_append]) hends hgroups rfl⟩

/-! ### Declarations at the places of matches -/

namespace ExportedName

variable {s : ExportedName} {rest : Text}

theorem head_begins (head : ExportedHead) : ∃ (c : Char) (later : Text), head.text = c :: later ∧
    c ∈ ['a', 'c', 'd', 'f', 'l', 'v'] ∧ (c = 'd' → ∃ d, head.default_ = some d) := by
  cases head with
  | class_ default_ abstract_ gap =>
    cases default_ with
    | some d => exact ⟨'d', _, rfl, by decide, fun _ => ⟨d, rfl⟩⟩
    | none =>
      cases abstract_ with
      | some => exact ⟨'a', _, rfl, by decide, fun h => absurd h (by decide)⟩
      | none => exact ⟨'c', _, rfl, by decide, fun h => absurd h (by decide)⟩
  | function default_ async_ gap =>
    cases default_ with
    | some d => exact ⟨'d', _, rfl, by decide, fun _ => ⟨d, rfl⟩⟩
    | none =>
      cases async_ with
      | some => exact ⟨'a', _, rfl, by decide, fun h => absurd h (by decide)⟩
      | none => exact ⟨'f', _, rfl, by decide, fun h => absurd h (by decide)⟩
  | generator default_ async_ before behind =>
    cases default_ with
    | some d => exact ⟨'d', _, rfl, by decide, fun _ => ⟨d, rfl⟩⟩
    | none =>
      cases async_ with
      | some => exact ⟨'a', _, rfl, by decide, fun h => absurd h (by decide)⟩
      | none => exact ⟨'f', _, rfl, by decide, fun h => absurd h (by decide)⟩
  | held keyword known gap =>
    simp only [List.mem_cons, List.not_mem_nil, or_false] at known
    rcases known with rfl | rfl | rfl
    · exact ⟨'c', _, rfl, by decide, fun h => absurd h (by decide)⟩
    · exact ⟨'l', _, rfl, by decide, fun h => absurd h (by decide)⟩
    · exact ⟨'v', _, rfl, by decide, fun h => absurd h (by decide)⟩

theorem StandsAt.behind (h : s.StandsAt p rest) (gap : Gap) {x : Text}
    (hx : p.rest = "export".toList ++ (gap.text ++ x)) (hblank : x.head?.any isBlank = false) :
    x = s.head.text ++ (s.name.text ++ rest) := by
  have hgaps : gap.text ++ x = s.gap.text ++ (s.head.text ++ (s.name.text ++ rest)) := by
    refine (List.append_right_inj "export".toList).mp ?_
    rw [← hx, h.ahead]
    simp only [ExportedName.text_eq, List.append_assoc]
  obtain ⟨c, later, hhead, hc, -⟩ := head_begins s.head
  refine (run_unique hgaps gap.blank hblank s.gap.blank ?_).2
  rw [hhead]
  have hletters : ∀ c ∈ ['a', 'c', 'd', 'f', 'l', 'v'], isBlank c = false := Text.forall_mem _ (by decide)
  exact hletters c hc

/-- The rule for default exports matches nothing else. -/
theorem StandsAt.defaulted (hs : s.StandsAt p rest) (h : defaultExport.matchAt? fuel p = some m) :
    ∃ d, s.head.default_ = some d := by
  obtain ⟨space, d, later, _, name, -, -, hreads⟩ := defaultExport_reads h
  have hahead := hreads.ahead
  rw [(matchAt?_liesBehind _ fuel p m h).1] at hahead
  simp only [List.append_assoc] at hahead
  have hbehind := hs.behind space.toGap hahead rfl
  obtain ⟨c, later, hhead, -, hd⟩ := head_begins s.head
  rw [hhead] at hbehind
  exact hd (List.cons.inj hbehind).1.symm

theorem StandsAt.not_listed (hs : s.StandsAt p rest) : exportList.matchAt? fuel p = none := by
  refine Option.eq_none_iff_forall_ne_some.mpr fun m h => ?_
  have hnested : (Regex.edge ++ (lit "export" ++ (blanks ++ (char '{' ++ (Regex.group 1 (any (· != '}'))
      ++ char '}'))))).matchAt? fuel p = some m := h
  obtain ⟨_, hrest, -, hway⟩ := matchAt?_way hnested
  obtain ⟨_, _, _, _, rfl, -, ⟨rfl, rfl, -⟩, _, _, _, _, rfl, rfl, ⟨rfl, rfl⟩, _, _, _, _, rfl, rfl, hblanks, _, _, _, _,
    rfl, rfl, ⟨⟨_, hc, rfl⟩, rfl⟩, -⟩ := hway
  obtain rfl := beq_iff_eq.mp hc
  obtain ⟨gap, rfl, -⟩ := way_blanks hblanks
  simp only [List.nil_append, List.append_assoc, List.singleton_append] at hrest
  obtain ⟨c, later, hhead, hbrace, -⟩ := head_begins s.head
  have hbehind := hs.behind gap hrest rfl
  rw [hhead] at hbehind
  rw [← (List.cons.inj hbehind).1] at hbrace
  exact absurd hbrace (by decide)

theorem StandsAt.not_assigned (hs : s.StandsAt p rest) : assignedExport.matchAt? fuel p = none := by
  refine Option.eq_none_iff_forall_ne_some.mpr fun m h => ?_
  have hnested : (Regex.alt
      (Regex.edge ++ (lit "module.exports" ++ (blanks ++ (char '=' ++ (blanks ++ Regex.group 1 word)))))
      (Regex.edge ++ (lit "exports." ++ (Regex.group 2 word ++ (blanks ++ char '='))))).matchAt? fuel p = some m := h
  obtain ⟨_, hrest, -, hway⟩ := matchAt?_way hnested
  rw [hs.ahead] at hrest
  rcases hway with ⟨_, _, _, _, rfl, -, ⟨rfl, -, -⟩, _, _, _, _, rfl, -, ⟨rfl, -⟩, -⟩ |
    ⟨_, _, _, _, rfl, -, ⟨rfl, -, -⟩, _, _, _, _, rfl, -, ⟨rfl, -⟩, -⟩
  · cases (List.cons.inj hrest).1
  · -- an `s` would have to be white space
    have hspace := s.gap.head? (· == 's') (s.head.text ++ s.name.text ++ rest) fun c hc => by
      rw [beq_iff_eq.mp hc]
      rfl
    simp only [ExportedName.text_eq, List.append_assoc, List.nil_append] at hrest hspace
    rw [(List.append_right_inj "export".toList).mp hrest] at hspace
    cases hspace

/-- The rule for declarations reads the asterisk of a generator right behind the keyword, in front of white space. -/
theorem asterisk_behind {before behind : Gap} {gap : Space} {keyword : String} (hkeyword : keyword ∈ exportedKeywords)
    {name name' : Name} {more rest : Text} (h : keyword.toList ++ (gap.text ++ (name.text ++ more)) =
      "function".toList ++ (before.text ++ '*' :: (behind.text ++ (name'.text ++ rest)))) :
    before.text = [] ∧ behind.text ≠ [] := by
  simp only [exportedKeywords, List.mem_cons, List.not_mem_nil, or_false] at hkeyword
  rcases hkeyword with rfl | rfl | rfl | rfl | rfl | rfl | rfl | rfl | rfl
  · cases (List.cons.inj h).1
  · cases (List.cons.inj h).1
  · cases (List.cons.inj h).1
  · obtain ⟨-, hname⟩ := run_unique (List.append_cancel_left h) gap.blank (head?_blank name more) before.blank rfl
    obtain ⟨c, tail, hc, hword⟩ := name.exists_cons
    rw [hc] at hname
    obtain ⟨rfl, -⟩ := List.cons.inj hname
    cases hword
  · have hstar : '*' :: (gap.text ++ (name.text ++ more)) = before.text ++ '*' :: (behind.text ++ (name'.text ++ rest)) :=
      (List.append_right_inj "function".toList).mp h
    obtain ⟨hnone, hlater⟩ := run_unique (a := []) hstar (List.forall_mem_nil _) rfl before.blank rfl
    obtain ⟨hgap, -⟩ := run_unique (List.cons.inj hlater).2 gap.blank (head?_blank name more) behind.blank
      (head?_blank name' rest)
    exact ⟨hnone.symm, hgap ▸ gap.nonempty⟩
  · cases (List.cons.inj h).1
  · cases (List.cons.inj h).1
  · cases (List.cons.inj h).1
  · cases (List.cons.inj h).1

theorem optional_cancel {async_ async_' : Option Space} {u v : Text} (h : optional "async" async_ ++ u =
      optional "async" async_' ++ v) (hu : u.head?.any isBlank = false) (hv : v.head?.any isBlank = false)
    (ha : Text.startsWith u ['a'] = false) (ha' : Text.startsWith v ['a'] = false) : u = v := by
  cases async_ with
  | none =>
    cases async_' with
    | none => exact h
    | some =>
      obtain rfl : u = _ := h
      cases ha
  | some space =>
    cases async_' with
    | none =>
      obtain rfl : _ = v := h
      cases ha'
    | some space' =>
      rw [optional, optional, List.append_assoc, List.append_assoc] at h
      exact (run_unique (List.append_cancel_left h) space.blank hu space'.blank hv).2

/-- The rule for declarations matches only where it reports the name. -/
theorem StandsAt.listed (hs : s.StandsAt p rest) (h : exportedDeclaration.matchAt? fuel p = some m) :
    s.head.default_ = none ∧ s.Listed := by
  obtain ⟨space, gap, async_, keyword, name, hkeyword, hreads⟩ := exportedDeclaration_reads h
  have hahead := hreads.ahead
  rw [(matchAt?_liesBehind _ fuel p m h).1] at hahead
  simp only [List.append_assoc] at hahead
  generalize hlater : gap.text ++ (name.text ++ m.stop.rest) = later at hahead
  have hbegins : (optional "async" async_ ++ (keyword.toList ++ later)).head?.any isBlank = false ∧
      Text.startsWith (optional "async" async_ ++ (keyword.toList ++ later)) ['d'] = false ∧
      Text.startsWith (optional "async" async_ ++ (keyword.toList ++ later)) ['a', 'b'] = false := by
    cases async_ with
    | some => exact ⟨rfl, rfl, rfl⟩
    | none =>
      simp only [exportedKeywords, List.mem_cons, List.not_mem_nil, or_false] at hkeyword
      rcases hkeyword with rfl | rfl | rfl | rfl | rfl | rfl | rfl | rfl | rfl <;> exact ⟨rfl, rfl, rfl⟩
  have hbehind := hs.behind space.toGap hahead hbegins.1
  rw [hbehind] at hbegins
  obtain ⟨-, hd, hab⟩ := hbegins
  obtain ⟨sgap, head, sname⟩ := s
  cases head with
  | class_ default_ abstract_ gap =>
    cases default_ with
    | some => cases hd
    | none =>
      cases abstract_ with
      | some => cases hab
      | none => exact ⟨rfl, rfl⟩
  | function default_ async_ gap =>
    cases default_ with
    | some => cases hd
    | none => exact ⟨rfl, trivial⟩
  | generator default_ async_' before behind =>
    cases default_ with
    | some => cases hd
    | none =>
      subst hlater
      have hkeywords : (keyword.toList ++ (gap.text ++ (name.text ++ m.stop.rest))).head?.any isBlank = false ∧
          Text.startsWith (keyword.toList ++ (gap.text ++ (name.text ++ m.stop.rest))) ['a'] = false := by
        simp only [exportedKeywords, List.mem_cons, List.not_mem_nil, or_false] at hkeyword
        rcases hkeyword with rfl | rfl | rfl | rfl | rfl | rfl | rfl | rfl | rfl <;> exact ⟨rfl, rfl⟩
      simp only [ExportedHead.text, optional, List.nil_append, List.append_assoc, List.singleton_append] at hbehind
      exact ⟨rfl, asterisk_behind hkeyword (optional_cancel hbehind hkeywords.1 rfl hkeywords.2 rfl)⟩
  | held => exact ⟨rfl, trivial⟩

end ExportedName

end JavaScript

end CodeIndex
