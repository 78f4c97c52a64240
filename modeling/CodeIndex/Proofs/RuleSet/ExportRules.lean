import CodeIndex.Proofs.Regex.Tried
import CodeIndex.Proofs.RuleSet.ExportHeads

/-!
# Export rules

Where an exported declaration stands, the rule for declarations or the one for default exports takes it up to its
name in some of its forms, and the rules refuse it in the others.
-/

namespace CodeIndex.Regex

variable {fuel : Nat} {p : Cursor} {r s : Regex} {rest : Text} {added : List (Nat × Span)}

theorem Takes.then_takes {u v : Text} (h : r.Takes fuel p u (v ++ rest) [])
    (h' : s.Takes fuel (p.after u (v ++ rest)) v rest added) : (r ++ s).Takes fuel p (u ++ v) rest added := by
  rw [← List.append_nil added]
  exact h.seq h'

end CodeIndex.Regex

namespace CodeIndex.JavaScript

open Regex

variable {fuel : Nat} {p : Cursor} {rest : Text}

/-! ### Words and white space -/

theorem takes_spaces (space : Space) (h : p.rest = space.text ++ rest) (hrest : rest.head?.any isBlank = false) :
    blanks1.Takes fuel p space.text rest [] :=
  takes_some1 space.nonempty h space.blank fun _ _ hc => by
    rw [hc] at hrest
    exact hrest

theorem takes_gap (gap : Gap) (h : p.rest = gap.text ++ rest) (hrest : rest.head?.any isBlank = false) :
    blanks.Takes fuel p gap.text rest [] :=
  takes_many h gap.blank fun _ _ hc => by
    rw [hc] at hrest
    exact hrest

theorem takes_whole (n : Name) (h : p.rest = n.text ++ rest) (hrest : rest.head?.any isWord = false) :
    word.Takes fuel p n.text rest [] :=
  takes_some1 n.nonempty h n.word fun _ _ hc => by
    rw [hc] at hrest
    exact hrest

theorem takes_optional {word : String} (o : Option Space) (h : p.rest = optional word o ++ rest)
    (hrest : rest.head?.any isBlank = false) (hword : Text.startsWith rest word.toList = false) :
    (opt (lit word ++ blanks1)).Takes fuel p (optional word o) rest [] := by
  cases o with
  | none =>
    have hrefuses : (lit word).Refuses fuel p := refuses_unless (by rw [h]; exact hword)
    exact (hrefuses.seq blanks1).takes_opt h
  | some space => exact ((takes_lit (by rw [h, optional, List.append_assoc])).then_takes (takes_spaces space rfl hrest)).opt

theorem head?_blank (n : Name) (rest : Text) : (n.text ++ rest).head?.any isBlank = false := by
  obtain ⟨c, tail, hname, hc⟩ := n.exists_cons
  rw [hname]
  exact isBlank_eq_false hc

theorem Space.head? (space : Space) (accepts : Char → Bool) (rest : Text)
    (haccepts : ∀ c, accepts c = true → isBlank c = false) : (space.text ++ rest).head?.any accepts = false := by
  obtain ⟨c, tail, hspace⟩ := List.exists_cons_of_ne_nil space.nonempty
  have hblank := space.blank c (by rw [hspace]; exact List.mem_cons_self)
  rw [hspace]
  exact Bool.eq_false_iff.mpr fun hc => Bool.false_ne_true ((haccepts c hc).symm.trans hblank)

theorem takes_export (fuel : Nat) {r : Regex} {v : Text} {added : List (Nat × Span)} (space : Space)
    (h : p.rest = "export".toList ++ (space.text ++ v) ++ rest) (hedge : p.before.any isWord = false)
    (hv : (v ++ rest).head?.any isBlank = false)
    (hr : r.Takes fuel (p.after ("export".toList ++ space.text) (v ++ rest)) v rest added) :
    (edge ++ (lit "export" ++ (blanks1 ++ r))).Takes fuel p ("export".toList ++ (space.text ++ v)) rest added := by
  have hplace : Anchor.wordBoundary.holds p = true := by
    rw [Anchor.holds, hedge, h]
    rfl
  rw [← Cursor.after_after _ _ _ (space.text ++ (v ++ rest))] at hr
  refine (takes_anchor hplace h).nothing_seq ((takes_lit (by rw [h, List.append_assoc])).then_takes ?_)
  rw [List.append_assoc]
  exact (takes_spaces space rfl hv).then_takes hr

/-! ### Exported declarations -/

/-- The keywords of declarations that both a header rule and the rule for exports know. -/
def declaringKeywords : List String :=
  ["const", "let", "var", "function", "function*", "class"]

/-- What the rule for exports reads of a declaration in front of the name. -/
def declaringWord : Regex :=
  oneOf
    [lit "const", lit "let", lit "var", lit "function" ++ opt (char '*'), lit "class", lit "interface", lit "type",
      lit "enum"]

theorem takes_keyword {keyword : String} (hkeyword : keyword ∈ declaringKeywords) (h : p.rest = keyword.toList ++ rest)
    (hrest : rest.head?.any (· == '*') = false) :
    declaringWord.Takes fuel p keyword.toList rest [] := by
  have hword : ∀ {s : String}, Text.startsWith (keyword.toList ++ rest) s.toList = false →
      (lit s).Refuses fuel p := fun hs => refuses_unless (by rw [h]; exact hs)
  simp only [declaringKeywords, List.mem_cons, List.not_mem_nil, or_false] at hkeyword
  rcases hkeyword with rfl | rfl | rfl | rfl | rfl | rfl
  · exact takes_oneOf [] (List.forall_mem_nil _) (takes_lit h)
  · exact takes_oneOf [_] (List.forall_mem_singleton.mpr (hword rfl)) (takes_lit h)
  · exact takes_oneOf [_, _] (List.forall_mem_cons.mpr ⟨hword rfl,
      List.forall_mem_singleton.mpr (hword rfl)⟩) (takes_lit h)
  · have hstar : (char '*').Refuses fuel (p.after "function".toList rest) :=
      refuses_of_begin rfl fun c tail hc => by
        rw [show rest = c :: tail from hc] at hrest
        exact hrest
    exact takes_oneOf [_, _, _] (List.forall_mem_cons.mpr ⟨hword rfl, List.forall_mem_cons.mpr
      ⟨hword rfl, List.forall_mem_singleton.mpr (hword rfl)⟩⟩) ((takes_lit h).seq_nothing (hstar.takes_opt rfl))
  · exact takes_oneOf [_, _, _] (List.forall_mem_cons.mpr ⟨hword rfl, List.forall_mem_cons.mpr
      ⟨hword rfl, List.forall_mem_singleton.mpr (hword rfl)⟩⟩)
      ((takes_lit (show p.rest = "function".toList ++ (['*'] ++ rest) from h)).then_takes (takes_char rfl).opt)
  · exact takes_oneOf [_, _, _, _] (List.forall_mem_cons.mpr ⟨hword rfl, List.forall_mem_cons.mpr
      ⟨hword rfl, List.forall_mem_cons.mpr ⟨hword rfl, List.forall_mem_singleton.mpr ((hword rfl).seq _)⟩⟩⟩)
      (takes_lit h)

theorem takes_declaration (space gap : Space) (async_ : Option Space) {keyword : String}
    (hkeyword : keyword ∈ declaringKeywords) (name : Name)
    (h : p.rest = "export".toList ++ (space.text ++ (optional "async" async_ ++ (keyword.toList ++ (gap.text
      ++ name.text)))) ++ rest) (hedge : p.before.any isWord = false) (hends : rest.head?.any isWord = false) :
    ∃ place : Cursor, exportedDeclaration.Takes fuel p ("export".toList ++ (space.text ++ (optional "async" async_
        ++ (keyword.toList ++ (gap.text ++ name.text))))) rest [(1, ⟨place, place.offset + name.text.width⟩)] ∧
      place.rest = name.text ++ rest := by
  have hbegins : ∀ later : Text, (keyword.toList ++ later).head?.any isBlank = false ∧
      Text.startsWith (keyword.toList ++ later) "async".toList = false := by
    intro later
    simp only [declaringKeywords, List.mem_cons, List.not_mem_nil, or_false] at hkeyword
    rcases hkeyword with rfl | rfl | rfl | rfl | rfl | rfl <;> exact ⟨rfl, rfl⟩
  have hkeyword' := hbegins (gap.text ++ name.text ++ rest)
  rw [← List.append_assoc keyword.toList] at hkeyword'
  have hspace : ∀ later : Text, (gap.text ++ later).head?.any (· == '*') = false := fun later =>
    gap.head? (· == '*') later fun c hc => by rw [beq_iff_eq.mp hc]; rfl
  have hstar := hspace (name.text ++ rest)
  rw [← List.append_assoc] at hstar
  have hv : (optional "async" async_ ++ (keyword.toList ++ (gap.text ++ name.text)) ++ rest).head?.any isBlank
      = false := by
    cases async_ with
    | none => exact hkeyword'.1
    | some => rfl
  have htakes := takes_export fuel space h hedge hv
    ((takes_optional async_ (List.append_assoc ..) hkeyword'.1 hkeyword'.2).then_takes
      ((takes_keyword hkeyword (List.append_assoc ..) hstar).then_takes
        ((takes_spaces gap (List.append_assoc ..) (head?_blank name rest)).then_takes
          ((takes_whole name rfl hends).group 1))))
  exact ⟨_, ⟨htakes.ahead, htakes.prefers⟩, rfl⟩

/-! ### Default exports -/

/-- The asterisk of a generator with the white space behind it, or nothing. -/
def starred : Option Gap → Text
  | none => []
  | some gap => '*' :: gap.text

theorem takes_starred (fuel : Nat) (behind : Option Gap) (name : Name) (h : p.rest = starred behind ++ name.text ++ rest)
    (hends : rest.head?.any isWord = false) :
    ∃ place : Cursor, (opt (char '*') ++ (blanks ++ Regex.group 2 word)).Takes fuel p (starred behind ++ name.text)
      rest [(2, ⟨place, place.offset + name.text.width⟩)] ∧ place.rest = name.text ++ rest := by
  cases behind with
  | none =>
    obtain ⟨d, later, hname, hd⟩ := name.exists_cons
    have hbegins : p.rest = d :: (later ++ rest) := by rw [h, hname]; rfl
    have hrefuses : (char '*').Refuses fuel p := refuses_at hbegins rfl (beq_false_of_ne (ne_of_isWord hd rfl))
    have hblanks : blanks.Takes fuel p [] (name.text ++ rest) [] :=
      takes_gap .none h (head?_blank name rest)
    exact ⟨p, (hrefuses.takes_opt h).nothing_seq (hblanks.nothing_seq ((takes_whole name h hends).group 2)), h⟩
  | some gap =>
    exact ⟨_, (takes_char h).opt.then_takes ((takes_gap gap (List.append_assoc ..) (head?_blank name rest)).then_takes
      ((takes_whole name rfl hends).group 2)), rfl⟩

/-- What the rule for default exports reads behind the word `default`. -/
def defaultTail : Regex :=
  opt (lit "abstract" ++ blanks1)
    ++ oneOf
      [lit "class" ++ blanks1 ++ .group 1 word,
        opt (lit "async" ++ blanks1) ++ lit "function" ++ blanks ++ opt (char '*') ++ blanks ++ .group 2 word,
        .group 3 word]

theorem takes_defaultClass (fuel : Nat) (abstract_ : Option Space) (gap : Space) (name : Name)
    (h : p.rest = optional "abstract" abstract_ ++ ("class".toList ++ (gap.text ++ name.text)) ++ rest)
    (hends : rest.head?.any isWord = false) :
    ∃ place : Cursor, defaultTail.Takes fuel p (optional "abstract" abstract_ ++ ("class".toList ++ (gap.text
        ++ name.text))) rest [(1, ⟨place, place.offset + name.text.width⟩)] ∧ place.rest = name.text ++ rest := by
  exact ⟨_, (takes_optional abstract_ (h.trans (List.append_assoc ..)) rfl rfl).then_takes
    (takes_oneOf [] (List.forall_mem_nil _) (Takes.assoc ((takes_lit (List.append_assoc ..)).then_takes
      ((takes_spaces gap (List.append_assoc ..) (head?_blank name rest)).then_takes
        ((takes_whole name rfl hends).group 1))))), rfl⟩

theorem takes_defaultFunction (fuel : Nat) (async_ : Option Space) (before : Gap) (behind : Option Gap) (name : Name)
    (h : p.rest = optional "async" async_ ++ ("function".toList ++ (before.text ++ (starred behind ++ name.text)))
      ++ rest) (hends : rest.head?.any isWord = false) :
    ∃ place : Cursor, defaultTail.Takes fuel p (optional "async" async_ ++ ("function".toList ++ (before.text
        ++ (starred behind ++ name.text)))) rest [(2, ⟨place, place.offset + name.text.width⟩)] ∧
      place.rest = name.text ++ rest := by
  have hword : ∀ {s : String}, Text.startsWith (optional "async" async_ ++ ("function".toList ++ (before.text
      ++ (starred behind ++ name.text))) ++ rest) s.toList = false → (lit s).Refuses fuel p := fun hs =>
    refuses_unless (by rw [h]; exact hs)
  have habstract : (lit "abstract").Refuses fuel p := hword (by cases async_ <;> rfl)
  have hclass : (lit "class").Refuses fuel p := hword (by cases async_ <;> rfl)
  have hblank : (starred behind ++ name.text ++ rest).head?.any isBlank = false := by
    cases behind with
    | none => exact head?_blank name rest
    | some => rfl
  obtain ⟨place, hname, hrest⟩ := takes_starred fuel (p := Cursor.after _ _ _) behind name rfl hends
  have hfunction := (takes_optional async_ (h.trans (List.append_assoc ..)) rfl rfl).then_takes
    ((takes_lit (List.append_assoc ..)).then_takes ((takes_gap before (List.append_assoc ..) hblank).then_takes hname))
  exact ⟨place, ((habstract.seq blanks1).takes_opt h).nothing_seq
    (takes_oneOf [_] (List.forall_mem_singleton.mpr ((hclass.seq _).seq _))
      ⟨hfunction.ahead, hfunction.prefers⟩), hrest⟩

theorem takes_default (fuel : Nat) (space d : Space) {v : Text}
    (h : p.rest = "export".toList ++ (space.text ++ ("default".toList ++ (d.text ++ v))) ++ rest)
    (hedge : p.before.any isWord = false) (hv : (v ++ rest).head?.any isBlank = false) :
    ∃ q : Cursor, q.rest = v ++ rest ∧ ∀ added, defaultTail.Takes fuel q v rest added →
      defaultExport.Takes fuel p ("export".toList ++ (space.text ++ ("default".toList ++ (d.text ++ v)))) rest added := by
  refine ⟨((p.after ("export".toList ++ space.text) ("default".toList ++ (d.text ++ v) ++ rest)).after "default".toList
    (d.text ++ v ++ rest)).after d.text (v ++ rest), rfl, fun added htail => ?_⟩
  have htakes := takes_export fuel space h hedge rfl ((takes_lit (s := "default") (List.append_assoc ..)).then_takes
    ((takes_spaces d (List.append_assoc ..) hv).then_takes htail))
  exact ⟨htakes.ahead, htakes.prefers⟩

/-! ### Declarations up to their names -/

namespace ExportedName

variable {s : ExportedName}

/-- Whether the export rules report an exported declaration under its name. -/
def Listed (s : ExportedName) : Prop :=
  match s.head with
  | .class_ none abstract_ _ => abstract_ = none
  | .generator none _ before behind => before.text = [] ∧ behind.text ≠ []
  | .function none .. | .held .. => True
  | .class_ (some _) .. | .function (some _) .. | .generator (some _) .. =>
    isOneOf ["function", "class", "async"] s.name.text = false

theorem listed_of_default {d : Space} (h : s.head.default_ = some d) :
    s.Listed ↔ isOneOf ["function", "class", "async"] s.name.text = false := by
  obtain ⟨gap, head, name⟩ := s
  cases head with
  | held => cases h
  | class_ default_ =>
    obtain rfl : default_ = some d := h
    exact Iff.rfl
  | function default_ =>
    obtain rfl : default_ = some d := h
    exact Iff.rfl
  | generator default_ =>
    obtain rfl : default_ = some d := h
    exact Iff.rfl

theorem Listed.form (h : s.Listed) (hplain : s.head.default_ = none) :
    ∃ (async_ : Option Space) (keyword : String) (gap : Space), keyword ∈ declaringKeywords ∧
      s.head.text = optional "async" async_ ++ (keyword.toList ++ gap.text) := by
  obtain ⟨space, head, name⟩ := s
  cases head with
  | class_ default_ abstract_ gap =>
    obtain rfl : default_ = none := hplain
    obtain rfl : abstract_ = none := h
    exact ⟨none, "class", gap, by decide, rfl⟩
  | function default_ async_ gap =>
    obtain rfl : default_ = none := hplain
    exact ⟨async_, "function", gap, by decide, rfl⟩
  | generator default_ async_ before behind =>
    obtain rfl : default_ = none := hplain
    obtain ⟨hbefore, hbehind⟩ : before.text = [] ∧ behind.text ≠ [] := h
    refine ⟨async_, "function*", ⟨behind, hbehind⟩, by decide, ?_⟩
    simp only [ExportedHead.text, optional, hbefore]
    rfl
  | held keyword known gap => exact ⟨none, keyword, gap, (by decide : ["const", "let", "var"] ⊆ declaringKeywords) known, rfl⟩

theorem takes_exported (h : s.StandsAt p rest) (hlisted : s.Listed) (hplain : s.head.default_ = none) :
    ∃ place : Cursor, exportedDeclaration.Takes fuel p s.text rest [(1, ⟨place, place.offset + s.name.text.width⟩)] ∧
      place.rest = s.name.text ++ rest := by
  obtain ⟨async_, keyword, gap, hkeyword, htext⟩ := hlisted.form hplain
  have hform : s.text = "export".toList ++ (s.gap.text ++ (optional "async" async_ ++ (keyword.toList ++ (gap.text
      ++ s.name.text)))) := by
    simp only [ExportedName.text_eq, htext, List.append_assoc]
  rw [hform]
  exact takes_declaration s.gap gap async_ hkeyword s.name (by rw [h.ahead, hform]) h.edge h.ends

theorem takes_defaulted (fuel : Nat) (h : s.StandsAt p rest) {d : Space} (hdefault : s.head.default_ = some d) :
    ∃ (label : Nat) (place : Cursor), label ∈ [1, 2] ∧ defaultExport.Takes fuel p s.text rest
      [(label, ⟨place, place.offset + s.name.text.width⟩)] ∧ place.rest = s.name.text ++ rest := by
  obtain ⟨space, head, name⟩ := s
  have hforms : (∃ (abstract_ : Option Space) (gap : Space), head.text = "default".toList ++ d.text
        ++ (optional "abstract" abstract_ ++ ("class".toList ++ gap.text))) ∨
      ∃ (async_ : Option Space) (before : Gap) (behind : Option Gap), head.text = "default".toList ++ d.text
        ++ (optional "async" async_ ++ ("function".toList ++ (before.text ++ starred behind))) := by
    cases head with
    | class_ default_ abstract_ gap =>
      obtain rfl : default_ = some d := hdefault
      exact Or.inl ⟨abstract_, gap, rfl⟩
    | function default_ async_ gap =>
      obtain rfl : default_ = some d := hdefault
      exact Or.inr ⟨async_, gap.toGap, none, by rw [starred, List.append_nil]; rfl⟩
    | generator default_ async_ before behind =>
      obtain rfl : default_ = some d := hdefault
      exact Or.inr ⟨async_, before, some behind, rfl⟩
    | held => cases hdefault
  rcases hforms with ⟨abstract_, gap, htext⟩ | ⟨async_, before, behind, htext⟩
  · have hform : (⟨space, head, name⟩ : ExportedName).text = "export".toList ++ (space.text ++ ("default".toList
        ++ (d.text ++ (optional "abstract" abstract_ ++ ("class".toList ++ (gap.text ++ name.text)))))) := by
      simp only [ExportedName.text_eq, htext, List.append_assoc]
    obtain ⟨q, hq, htakes⟩ := takes_default fuel space d (h.ahead.trans (by rw [hform])) h.edge
      (by cases abstract_ <;> rfl)
    obtain ⟨place, htail, hname⟩ := takes_defaultClass fuel abstract_ gap name hq h.ends
    exact ⟨1, place, by decide, by rw [hform]; exact htakes _ htail, hname⟩
  · have hform : (⟨space, head, name⟩ : ExportedName).text = "export".toList ++ (space.text ++ ("default".toList
        ++ (d.text ++ (optional "async" async_ ++ ("function".toList ++ (before.text ++ (starred behind
        ++ name.text))))))) := by
      simp only [ExportedName.text_eq, htext, List.append_assoc]
    obtain ⟨q, hq, htakes⟩ := takes_default fuel space d (h.ahead.trans (by rw [hform])) h.edge
      (by cases async_ <;> rfl)
    obtain ⟨place, htail, hname⟩ := takes_defaultFunction fuel async_ before behind name hq h.ends
    exact ⟨2, place, by decide, by rw [hform]; exact htakes _ htail, hname⟩

end ExportedName

end CodeIndex.JavaScript
