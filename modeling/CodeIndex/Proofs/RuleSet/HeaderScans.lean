import CodeIndex.Proofs.Regex.Language
import CodeIndex.Proofs.Regex.Loop
import CodeIndex.Proofs.RuleSet.LastLineFeed
import CodeIndex.Proofs.RuleSet.Positions

/-!
# Scans for class headers

In the languages with braces the scan for class headers is a loop that goes on behind the opening brace of each
header that it takes, so that classes inside of a class are found too. A header begins with no brace and ends in
one. So the loop moves on with each header and ends, its headers have no place in common, and the only headers of
a text that it does not take start inside of one that it takes, in front of the opening brace.
-/

namespace CodeIndex

open Regex

/-! ### Headers -/

/-- Whether an expression is one of headers: what it matches begins with no opening brace and ends in one. -/
structure Regex.OfHeaders (r : Regex) : Prop where
  ends : ∃ s, r = s ++ char '{'
  begins : r.mayBegin '{' = false

/-- Whether headers are those that a loop over a text takes which goes on behind the opening brace of each. -/
structure Regex.Enumerates (r : Regex) (t : Text) (headers : List Match) : Prop where
  /-- The loop ends, and these are the headers that it takes. -/
  ends : ∀ found, r.Loop (·.stop.offset) t 0 found ↔ found = headers
  /-- The positions of the loop grow with each header. -/
  rising : (0 :: headers.map (·.stop.offset)).Pairwise (· < ·)
  /-- No position is behind the end of the text. -/
  within : ∀ position ∈ 0 :: headers.map (·.stop.offset), position ≤ t.width
  /-- Each header starts in front of its opening brace, behind which the loop goes on. -/
  braces : ∀ header ∈ headers, header.OpensBlock t ∧ header.start.offset < openingBrace header ∧
    header.stop.offset = openingBrace header + 1
  /-- Headers have no place in common. -/
  apart : headers.Pairwise fun a b => openingBrace a < b.start.offset
  /-- The first header is the first match of the text. -/
  first : ∀ header ∈ headers.head?, r.Leftmost t 0 header
  /-- Every other header is the first match that starts at or behind the opening brace of the one before it. -/
  next : ∀ before a b later, headers = before ++ a :: b :: later → r.Leftmost t (openingBrace a) b
  /-- A match is one of the headers or starts inside of one, in front of its opening brace. -/
  covers : ∀ place m, t.start.Reaches place → r.matchAt? t.length place = some m →
    m ∈ headers ∨ ∃ header ∈ headers, header.start.offset < place.offset ∧ place.offset < openingBrace header

theorem Match.OpensBlock.stop_eq {m : Match} {t : Text} (h : m.OpensBlock t) :
    m.stop.offset = openingBrace m + 1 := by
  obtain ⟨before, rest, -, hstop⟩ := h
  rw [openingBrace, hstop]
  rfl

namespace Regex.OfHeaders

variable {r : Regex} {t : Text} {fuel : Nat}

/-! ### One header -/

theorem mayPassNothing_eq (h : r.OfHeaders) : r.mayPassNothing = false := by
  obtain ⟨s, rfl⟩ := h.ends
  exact Bool.and_false _

theorem stop_before (h : r.OfHeaders) {m : Match} (hm : r.matchAt? fuel m.start = some m) :
    m.stop.before = some '{' := by
  obtain ⟨s, rfl⟩ := h.ends
  obtain ⟨c, hc, hlast⟩ := matchAt?_last s _ fuel m.start m hm
  rw [hlast, beq_iff_eq.mp hc]

theorem opensBlock (h : r.OfHeaders) {m : Match} (hplace : t.start.Reaches m.start)
    (hm : r.matchAt? fuel m.start = some m) : m.OpensBlock t := by
  have hlies := (matchAt?_liesBehind _ fuel m.start m hm).2
  exact Match.LiesBehind.opensBlock ⟨hplace, hlies.stop, hlies.groups⟩ (h.stop_before hm)

/-- A header starts in front of its opening brace. -/
theorem start_lt (h : r.OfHeaders) {m : Match} (hm : r.matchAt? fuel m.start = some m) :
    m.start.offset < openingBrace m := by
  obtain ⟨c, passed, -, hstop, hbegins⟩ := matchAt?_begins hm h.mayPassNothing_eq
  cases passed with
  | nil =>
    -- one character would be the brace, with which no header begins
    have hlast := h.stop_before hm
    rw [hstop] at hlast
    obtain rfl : c = '{' := Option.some.inj hlast
    rw [h.begins] at hbegins
    cases hbegins
  | cons d passed =>
    have hpos := c.utf8Size_pos
    have hpos' := d.utf8Size_pos
    rw [openingBrace, hstop, Cursor.after_offset, Text.width, Text.width]
    omega

/-- No header starts at the opening brace of another. -/
theorem refuses_brace (h : r.OfHeaders) {m : Match} (hm : m.OpensBlock t) {place : Cursor}
    (hplace : t.start.Reaches place) (hbrace : place.offset = openingBrace m) : r.matchAt? fuel place = none := by
  obtain ⟨before, rest, rfl, hstop⟩ := hm
  have hat : (before ++ '{' :: rest).start.Reaches
      ((before ++ '{' :: rest).start.after before ('{' :: rest)) := ⟨before, Cursor.passes_after rfl⟩
  have hoffset : place.offset = ((before ++ '{' :: rest).start.after before ('{' :: rest)).offset := by
    rw [hbrace, openingBrace, hstop, Nat.add_sub_cancel]
    exact (Nat.zero_add _).symm
  rw [hplace.eq_of_offset hat hoffset]
  exact (refuses_at rfl h.mayPassNothing_eq h.begins).matchAt?

/-- The first header behind an opening brace is also the first one at or behind it. -/
theorem leftmost_brace (h : r.OfHeaders) {a b : Match} (ha : a.OpensBlock t)
    (hb : r.Leftmost t a.stop.offset b) : r.Leftmost t (openingBrace a) b where
  place := hb.place
  behind := by
    have hstop := ha.stop_eq
    have hbehind := hb.behind
    omega
  found := hb.found
  first place hplace hbehind hlt := by
    rcases Nat.lt_or_eq_of_le hbehind with hafter | hbrace
    · exact hb.first place hplace (ha.stop_eq ▸ hafter) hlt
    · exact h.refuses_brace ha hplace hbrace.symm

/-! ### All headers of a text -/

theorem found_at {header : Match} (hheader : header ∈ r.findAll t) :
    t.start.Reaches header.start ∧ r.matchAt? t.length header.start = some header :=
  (r.scanFrom_mem _ _ _ _ _ rfl header hheader).2

theorem braces (h : r.OfHeaders) {header : Match} (hheader : header ∈ r.findAll t) :
    header.OpensBlock t ∧ header.start.offset < openingBrace header ∧
      header.stop.offset = openingBrace header + 1 := by
  obtain ⟨hplace, hm⟩ := found_at hheader
  have hopens := h.opensBlock hplace hm
  exact ⟨hopens, h.start_lt hm, hopens.stop_eq⟩

theorem scan_loop (h : r.OfHeaders) (t : Text) : r.Loop (·.stop.offset) t 0 (r.findAll t) := by
  refine Regex.scan_loop fun header hheader => ⟨?_, ?_⟩
  · exact matchAt?_passes (found_at hheader).2 h.mayPassNothing_eq
  · exact (r.scan_liesBehind _ t.start header hheader).stop_le_width

theorem covers (h : r.OfHeaders) {place : Cursor} {m : Match} (hplace : t.start.Reaches place)
    (hm : r.matchAt? t.length place = some m) :
    m ∈ r.findAll t ∨
      ∃ header ∈ r.findAll t, header.start.offset < place.offset ∧ place.offset < openingBrace header := by
  rcases (h.scan_loop t).covers hplace (Nat.zero_le _) hm with hmem | ⟨header, hheader, hstart, hstop⟩
  · exact Or.inl hmem
  · obtain ⟨hopens, -, hend⟩ := h.braces hheader
    -- nothing matches at the brace, so the place is in front of it
    have hbrace : place.offset ≠ openingBrace header := by
      intro hbrace
      rw [h.refuses_brace hopens hplace hbrace] at hm
      cases hm
    exact Or.inr ⟨header, hheader, hstart, by omega⟩

theorem apart (h : r.OfHeaders) (t : Text) :
    (r.findAll t).Pairwise fun a b => openingBrace a < b.start.offset := by
  refine (r.scan_sorted (·.stop.offset) t.start).imp_of_mem fun {a b} ha _ hbehind => ?_
  obtain ⟨-, -, hstop⟩ := h.braces ha
  omega

theorem enumerates (h : r.OfHeaders) (t : Text) : r.Enumerates t (r.findAll t) := by
  have hloop := h.scan_loop t
  refine ⟨fun found => ⟨fun hfound => hfound.unique hloop, fun heq => heq ▸ hloop⟩, hloop.positions.1,
    hloop.positions.2, fun header hheader => h.braces hheader, h.apart t, hloop.first, ?_,
    fun place m hplace hm => h.covers hplace hm⟩
  intro before a b later hsplit
  have ha : a ∈ r.findAll t := by simp [hsplit]
  exact h.leftmost_brace (h.braces ha).1 (hsplit ▸ hloop).next

end Regex.OfHeaders

/-! ### Class headers -/

/-- The expression of class headers in a language with braces. -/
def Language.classHeader : Language → Regex
  | .javaScript | .typeScript => JavaScript.classHeader
  | .c | .cpp => Cpp.classHeader
  | .java => Java.classHeader
  | _ => .one fun _ => false

/-- The class that the rules of a language with braces read behind a header of a text. -/
def Language.classOf? (language : Language) (t : Text) (header : Match) : Option ClassDecl :=
  match language with
  | .javaScript | .typeScript => JavaScript.classOf? t (.ofText t) header
  | .c | .cpp => Cpp.classOf? t (.ofText t) header
  | .java => Java.classOf? t (.ofText t) header
  | _ => none

/-- The scan for class headers never goes on outside of the text and takes the headers one after another. Where
the text can be described, there is one class for each of them, in the same order. -/
theorem BraceRules.scans_headers {language : Language} (rules : BraceRules language)
    (hbegins : rules.classHeader.mayBegin '{' = false) (t : Text) :
    rules.classHeader.scan? (·.stop.offset) t = some (rules.classHeader.findAll t) ∧
    rules.classHeader.Enumerates t (rules.classHeader.findAll t) ∧
    ∀ d, Registry.standard.extract language t = .ok d →
      List.Forall₂ (fun header c => (maskedBody? t header).bind (rules.classWith? t header) = some c)
        (rules.classHeader.findAll t) d.classes := by
  refine ⟨scan?_stop _ t, OfHeaders.enumerates ⟨rules.header_ends, hbegins⟩ t, fun d hd => ?_⟩
  rw [rules.extract_eq] at hd
  exact mapM_forall₂ _ _ _ (rules.classes_eq t d (foundOrCut_eq_ok _ _ _ d hd))

/-- The scan for the class headers of a text ends, at positions that grow and stay in the text, and passes over no
header that starts at or behind the opening brace of the one before. The classes of a description are read behind
its headers, one behind each. -/
theorem extract_enumerates_classes (language : Language)
    (hlanguage : language ∈ [.javaScript, .typeScript, .c, .cpp, .java]) (t : Text) :
    language.classHeader.scan? (·.stop.offset) t = some (language.classHeader.findAll t) ∧
    language.classHeader.Enumerates t (language.classHeader.findAll t) ∧
    ∀ d, Registry.standard.extract language t = .ok d →
      List.Forall₂ (fun header c => language.classOf? t header = some c) (language.classHeader.findAll t)
        d.classes := by
  cases language with
  | javaScript => exact JavaScript.scriptRules.scans_headers (by decide) t
  | typeScript => exact JavaScript.typeRules.scans_headers (by decide) t
  | c => exact (Cpp.rules .c (fun _ => rfl) fun _ => rfl).scans_headers (by decide) t
  | cpp => exact (Cpp.rules .cpp (fun _ => rfl) fun _ => rfl).scans_headers (by decide) t
  | java => exact Java.rules.scans_headers (by decide) t
  | python => exact absurd hlanguage (by decide)
  | go => exact absurd hlanguage (by decide)
  | rust => exact absurd hlanguage (by decide)
  | generic => exact absurd hlanguage (by decide)

/-- A class right behind the opening brace of another, whose header has a brace in an annotation. -/
theorem extract_enumerates_classes_nested :
    Language.java ∈ [.javaScript, .typeScript, .c, .cpp, .java] ∧ ∃ (t : Text) (d : Description),
      t = "@A(\x7b) class B \x7bclass C \x7b \x7d".toList ∧
      Registry.standard.extract .java t = .ok d ∧ d.classes.map (·.name) = ["B", "C"] ∧
      Language.java.classHeader.Enumerates t (Language.java.classHeader.findAll t) ∧
      List.Forall₂ (fun header c => Language.java.classOf? t header = some c)
        (Language.java.classHeader.findAll t) d.classes := by
  have hlanguage : Language.java ∈ [.javaScript, .typeScript, .c, .cpp, .java] := by decide
  have hnames : (Registry.standard.extract .java "@A(\x7b) class B \x7bclass C \x7b \x7d".toList).map
      (fun d => d.classes.map (·.name)) = .ok ["B", "C"] := by decide +kernel
  cases hd : Registry.standard.extract .java "@A(\x7b) class B \x7bclass C \x7b \x7d".toList with
  | error e =>
    rw [hd] at hnames
    cases hnames
  | ok d =>
    rw [hd] at hnames
    obtain ⟨-, hheaders, hclasses⟩ := extract_enumerates_classes .java hlanguage _
    exact ⟨hlanguage, _, d, rfl, hd, Except.ok.inj hnames, hheaders, hclasses d hd⟩

end CodeIndex
