import CodeIndex.Proofs.RuleSet.ExportReads
import CodeIndex.Proofs.RuleSet.Failure
import CodeIndex.Proofs.RuleSet.Positions

/-!
# Exported declarations and the list of exports

Whether a declaration is exported is read twice: by the header rules, which set a flag, and by the export rules,
which list names. A flag always comes from a declaration behind the word `export`. The list has its name in the
forms that both kinds of rules know.
-/

namespace CodeIndex

theorem mem_inSourceOrder {α : Type} (found : List (Nat × α)) (a : α) :
    a ∈ inSourceOrder found ↔ ∃ offset, (offset, a) ∈ found := by
  simp only [inSourceOrder, List.mem_map, List.mem_mergeSort, Prod.exists, exists_eq_right]

namespace JavaScript

open Regex

variable {t before rest : Text} {lines : LineIndex} {s : ExportedName}

/-! ### Entries with their places -/

/-- The exports of a text in the order of the rules, each with the offset where it was found. -/
def exportsAt (t : Text) (lines : LineIndex) : List (Nat × Export) :=
  ((exportedDeclaration.findAll t).map fun m => exportAt lines m .named (m.string 1))
    ++ ((exportList.findAll t).flatMap fun m => (localNames (m.group 1)).map (exportAt lines m .named))
    ++ ((defaultExport.findAll t).map fun m => exportAt lines m .default (defaultName m))
    ++ (assignedExport.findAll t).map fun m =>
      if m.has 1 then exportAt lines m .default (m.string 1) else exportAt lines m .named (m.string 2)

theorem exports_eq (t : Text) (lines : LineIndex) : exports t lines = inSourceOrder (exportsAt t lines) := rfl

theorem declaration_entry {m : Match} (h : m ∈ exportedDeclaration.findAll t) :
    exportAt lines m .named (m.string 1) ∈ exportsAt t lines := by
  refine List.mem_append_left _ (List.mem_append_left _ (List.mem_append_left _ ?_))
  exact List.mem_map.mpr ⟨m, h, rfl⟩

theorem default_entry {m : Match} (h : m ∈ defaultExport.findAll t) :
    exportAt lines m .default (defaultName m) ∈ exportsAt t lines := by
  refine List.mem_append_left _ (List.mem_append_right _ ?_)
  exact List.mem_map.mpr ⟨m, h, rfl⟩

theorem entry_cases {offset : Nat} {e : Export} (h : (offset, e) ∈ exportsAt t lines) :
    (∃ m ∈ exportedDeclaration.findAll t, m.start.offset = offset) ∨
      (∃ m ∈ exportList.findAll t, m.start.offset = offset) ∨
      (∃ m ∈ defaultExport.findAll t, m.start.offset = offset ∧ e.name = defaultName m) ∨
      ∃ m ∈ assignedExport.findAll t, m.start.offset = offset := by
  simp only [exportsAt, List.mem_append, List.mem_map, List.mem_flatMap] at h
  rcases h with ((⟨m, hm, h⟩ | ⟨m, hm, _, -, h⟩) | ⟨m, hm, h⟩) | ⟨m, hm, h⟩
  · exact Or.inl ⟨m, hm, congrArg Prod.fst h⟩
  · exact Or.inr (Or.inl ⟨m, hm, congrArg Prod.fst h⟩)
  · cases h
    exact Or.inr (Or.inr (Or.inl ⟨m, hm, rfl, rfl⟩))
  · refine Or.inr (Or.inr (Or.inr ⟨m, hm, ?_⟩))
    split at h
    · exact congrArg Prod.fst h
    · exact congrArg Prod.fst h

namespace ExportedName

theorem StandsAt.endsIn {p place : Cursor} (h : s.StandsAt p rest) (label : Nat)
    (hplace : place.rest = s.name.text ++ rest) :
    EndsIn ⟨p, p.after s.text rest, [(label, ⟨place, place.offset + s.name.text.width⟩)]⟩
      ("export".toList ++ (s.gap.text ++ s.head.text)) label s.name := by
  refine .of rfl h.ahead rfl ?_ h.ends rfl hplace
  simp only [ExportedName.text_eq, List.append_assoc]

/-- What a rule finds of a declaration that it takes: the declaration, unless a match in front of it reaches over
its place. -/
theorem found_or_overrun {r : Regex} {added : List (Nat × Span)}
    (htakes : r.Takes (before ++ (s.text ++ rest)).length ((before ++ (s.text ++ rest)).start.after before
      (s.text ++ rest)) s.text rest added) :
    let place := (before ++ (s.text ++ rest)).start.after before (s.text ++ rest)
    ⟨place, place.after s.text rest, added⟩ ∈ r.findAll (before ++ (s.text ++ rest)) ∨
      ∃ m ∈ r.findAll (before ++ (s.text ++ rest)), m.start.offset < before.width ∧ before.width < m.stop.offset := by
  by_cases htries : r.TriesAt before (s.text ++ rest)
  · exact Or.inl (htries.mem_findAll htakes)
  · right
    simpa only [TriesAt, not_forall, Nat.not_le, exists_prop] using htries

/-- What a rule lists of a declaration that it takes: its name, unless a match that reaches over its place names
the word `export`. -/
theorem entry_of_takes {r : Regex} {kind : ExportKind} {name : Match → String} {label : Nat} {place : Cursor}
    (hentry : ∀ m ∈ r.findAll (before ++ (s.text ++ rest)),
      exportAt lines m kind (name m) ∈ exportsAt (before ++ (s.text ++ rest)) lines)
    (hname : ∀ {fuel p m}, r.matchAt? fuel p = some m → ∃ (front : Text) (label : Nat) (n : Name),
      OpensExport front ∧ EndsIn m front label n ∧ (n.text = "export".toList → name m = "export"))
    (hs : s.StandsAt ((before ++ (s.text ++ rest)).start.after before (s.text ++ rest)) rest)
    (htakes : r.Takes (before ++ (s.text ++ rest)).length ((before ++ (s.text ++ rest)).start.after before
      (s.text ++ rest)) s.text rest [(label, ⟨place, place.offset + s.name.text.width⟩)])
    (hplace : place.rest = s.name.text ++ rest)
    (hread : ∀ {m front}, EndsIn m front label s.name → name m = s.name.string) :
    (∃ e, (before.width, e) ∈ exportsAt (before ++ (s.text ++ rest)) lines ∧ e.name = s.name.string) ∨
      ∃ offset e, (offset, e) ∈ exportsAt (before ++ (s.text ++ rest)) lines ∧ e.name = "export" := by
  rcases found_or_overrun htakes with hfound | ⟨m, hm, hstart, hstop⟩
  · have hoffset : ((before ++ (s.text ++ rest)).start.after before (s.text ++ rest)).offset = before.width :=
      Nat.zero_add _
    have hmem := hentry _ hfound
    rw [exportAt, hoffset] at hmem
    exact Or.inl ⟨_, hmem, hread (hs.endsIn label hplace)⟩
  · obtain ⟨-, -, -, -, fuel, hmatch⟩ := findAll_split hm
    obtain ⟨front, _, n, hfront, hends, hexport⟩ := hname hmatch
    have hedge : before.getLast?.any isWord = false := by
      have hbefore := hs.edge
      rwa [Cursor.after, show (before ++ (s.text ++ rest)).start.before = none from rfl, Option.or_none] at hbefore
    exact Or.inr ⟨_, _, hentry m hm, hexport (hends.overrun hfront (scan_liesBehind _ _ _ m hm).start hedge hstart hstop)⟩

theorem Listed.entry (hlisted : s.Listed)
    (hs : s.StandsAt ((before ++ (s.text ++ rest)).start.after before (s.text ++ rest)) rest) :
    (∃ e, (before.width, e) ∈ exportsAt (before ++ (s.text ++ rest)) lines ∧ e.name = s.name.string) ∨
      ∃ offset e, (offset, e) ∈ exportsAt (before ++ (s.text ++ rest)) lines ∧ e.name = "export" := by
  cases hdefault : s.head.default_ with
  | none =>
    obtain ⟨place, htakes, hplace⟩ := takes_exported hs hlisted hdefault
    refine entry_of_takes (fun m hm => declaration_entry hm) (fun hm => ?_) hs htakes hplace fun hends => ?_
    · obtain ⟨space, gap, async_, keyword, n, hkeyword, hends⟩ := exportedDeclaration_reads hm
      exact ⟨_, 1, n, opensExport_declaration space gap async_ hkeyword, hends, fun hexport => hends.string hexport⟩
    · exact hends.string rfl
  | some d =>
    obtain ⟨label, place, hlabel, htakes, hplace⟩ := takes_defaulted (before ++ (s.text ++ rest)).length hs hdefault
    refine entry_of_takes (fun m hm => default_entry hm) (fun hm => ?_) hs htakes hplace fun hends => ?_
    · obtain ⟨space, d, later, label, n, hlabel, hfront, hends⟩ := defaultExport_reads hm
      refine ⟨_, label, n, hfront, hends, fun hexport => ?_⟩
      rw [hends.defaultName hlabel, Name.string, hexport]
      rfl
    · rw [hends.defaultName ((by decide : [1, 2] ⊆ [1, 2, 3]) hlabel), (listed_of_default hdefault).mp hlisted]
      rfl

/-- An entry at the place of a declaration has its name in a listed form only. -/
theorem listed_of_entry (hs : s.StandsAt ((before ++ (s.text ++ rest)).start.after before (s.text ++ rest)) rest)
    {e : Export} (he : (before.width, e) ∈ exportsAt (before ++ (s.text ++ rest)) lines)
    (hname : e.name = s.name.string) : s.Listed := by
  rcases entry_cases he with ⟨m, hm, hoffset⟩ | ⟨m, hm, hoffset⟩ | ⟨m, hm, hoffset, hread⟩ | ⟨m, hm, hoffset⟩
  · obtain ⟨hplace, fuel, hmatch⟩ := findAll_place hm hoffset
    rw [hplace] at hmatch
    exact (hs.listed hmatch).2
  · obtain ⟨hplace, fuel, hmatch⟩ := findAll_place hm hoffset
    rw [hplace, hs.not_listed] at hmatch
    cases hmatch
  · obtain ⟨hplace, fuel, hmatch⟩ := findAll_place hm hoffset
    rw [hplace] at hmatch
    obtain ⟨d, hdefault⟩ := hs.defaulted hmatch
    obtain ⟨label, place, hlabel, htakes, hplace'⟩ := takes_defaulted fuel hs hdefault
    have hmade := Option.some.inj (hmatch.symm.trans htakes.matchAt?)
    have hends := hs.endsIn label hplace'
    rw [← hmade] at hends
    rw [listed_of_default hdefault]
    refine Bool.eq_false_iff.mpr fun hkeyword => ?_
    rw [hread, hends.defaultName ((by decide : [1, 2] ⊆ [1, 2, 3]) hlabel), if_pos hkeyword] at hname
    have hdefault : s.name.text = "default".toList := (String.ofList_injective hname).symm
    rw [hdefault] at hkeyword
    exact absurd hkeyword (by decide)
  · obtain ⟨hplace, fuel, hmatch⟩ := findAll_place hm hoffset
    rw [hplace, hs.not_assigned] at hmatch
    cases hmatch

/-- What a description reports of an exported declaration that stands in a text behind `before`. -/
structure Reported (s : ExportedName) (t before rest : Text) (d : Description) : Prop where
  source : t = before ++ (s.text ++ rest)
  stands : s.StandsAt (t.start.after before (s.text ++ rest)) rest
  exports : d.exports = inSourceOrder (exportsAt t (.ofText t))
  listed : s.Listed → ∃ e ∈ d.exports, e.name = s.name.string ∨ e.name = "export"
  unlisted : ¬s.Listed → ∀ e, (before.width, e) ∈ exportsAt t (.ofText t) → e.name ≠ s.name.string

theorem StandsAt.reported (hs : s.StandsAt ((before ++ (s.text ++ rest)).start.after before (s.text ++ rest)) rest)
    {d : Description} (hd : d.exports = exports (before ++ (s.text ++ rest)) (.ofText (before ++ (s.text ++ rest)))) :
    s.Reported (before ++ (s.text ++ rest)) before rest d where
  source := rfl
  stands := hs
  exports := hd
  listed hlisted := by
    rw [hd, exports_eq]
    rcases Listed.entry hlisted hs with ⟨e, he, hname⟩ | ⟨offset, e, he, hname⟩
    · exact ⟨e, (mem_inSourceOrder _ e).mpr ⟨_, he⟩, Or.inl hname⟩
    · exact ⟨e, (mem_inSourceOrder _ e).mpr ⟨offset, he⟩, Or.inr hname⟩
  unlisted hnot e he hname := hnot (listed_of_entry hs he hname)

end ExportedName

/-! ### Flags -/

theorem describe?_functions {language : Language} {d : Description} (h : describe? language t = some d) :
    functions? t (.ofText t) = some d.functions ∧ d.exports = exports t (.ofText t) := by
  simp only [describe?, Option.bind_eq_bind, Option.bind_eq_some_iff] at h
  obtain ⟨classes, -, functions, hfunctions, interfaces, -, h⟩ := h
  cases h
  exact ⟨hfunctions, rfl⟩

/-- A declaration that a match of a header rule shows to be exported is reported as one. -/
theorem reported_of_match {r : Regex} {m : Match} {good : ExportedName → Prop} (hm : m ∈ r.findAll t)
    (hstands : ∀ {fuel}, r.matchAt? fuel m.start = some m → ∃ s : ExportedName, ∃ rest, s.StandsAt m.start rest ∧ good s)
    {d : Description} (hd : d.exports = exports t (.ofText t)) :
    ∃ (s : ExportedName) (before rest : Text), s.Reported t before rest d ∧ m.start.offset = before.width ∧ good s := by
  obtain ⟨before, hrest, hplace, hoffset, fuel, hmatch⟩ := findAll_split hm
  obtain ⟨s, rest, hs, hgood⟩ := hstands hmatch
  rw [hs.ahead] at hrest hplace
  subst hrest
  rw [hplace] at hs
  exact ⟨s, before, rest, hs.reported hd, hoffset, hgood⟩

theorem classOf?_attributes {m : Match} {c : ClassDecl} (h : classOf? t lines m = some c) :
    c.name = m.string 1 ∧ c.line = lines.lineNumber m.start.offset ∧ c.attributes = headerAttributes m.text := by
  obtain ⟨body, -, h⟩ := Option.bind_eq_some_iff.mp h
  simp only [withMembers?, Option.bind_eq_bind, Option.bind_eq_some_iff] at h
  obtain ⟨constructors, -, methods, -, h⟩ := h
  cases h
  exact ⟨rfl, rfl, rfl⟩

theorem exported_mem (header : Text) : "exported" ∈ headerAttributes header ↔
    header.trimStart.startsWith "export".toList = true := by
  rw [headerAttributes]
  split <;> split <;> simp_all

theorem functionOf?_flags {m : Match} {parameters : Text} {complexity : Option UInt32} {f : FunctionDecl}
    (h : functionOf? lines m parameters complexity = some f) :
    f.name = m.string 3 ∧ f.line = lines.lineNumber m.start.offset ∧ f.isExported = m.has 1 := by
  simp only [functionOf?, Option.bind_eq_bind, Option.bind_eq_some_iff] at h
  obtain ⟨_, -, _, -, h⟩ := h
  cases h
  exact ⟨rfl, rfl, rfl⟩

theorem function_reported {r : Regex} {m : Match} {parameters : Text} {complexity : Option UInt32}
    {f : Nat × FunctionDecl} (hm : m ∈ r.findAll t)
    (hread : (functionOf? (.ofText t) m parameters complexity).map (m.start.offset, ·) = some f)
    (hstands : ∀ {fuel}, r.matchAt? fuel m.start = some m → m.has 1 = true → ∃ s : ExportedName, ∃ rest,
      s.StandsAt m.start rest ∧ s.head.isClass = false ∧ m.group 3 = s.name.text)
    {d : Description} (hd : d.exports = exports t (.ofText t)) (hexported : f.2.isExported = true) :
    ∃ (s : ExportedName) (before rest : Text), s.Reported t before rest d ∧ s.head.isClass = false ∧
      f.2.name = s.name.string ∧ f.2.line = (LineIndex.ofText t).lineNumber before.width := by
  obtain ⟨g, hg, rfl⟩ := Option.map_eq_some_iff.mp hread
  obtain ⟨hname, hline, hflag⟩ := functionOf?_flags hg
  obtain ⟨s, before, rest, hreported, hoffset, hhead, hgroup⟩ :=
    reported_of_match hm (fun hmatch => hstands hmatch (hflag ▸ hexported)) hd
  exact ⟨s, before, rest, hreported, hhead, by rw [hname, Match.string, hgroup]; rfl, by rw [hline, hoffset]⟩

/-- A class or a function with the flag of an export is one that stands behind the word `export`. The exports have
its name in each of the listed forms, unless the word `export` is the name of one, and they have no entry under its
name from its place in the others: a class with `abstract` and no `default`, a generator with other white space
around the asterisk, and a default export that is called like a keyword. -/
theorem extract_exports {language : Language} (hlanguage : language ∈ [.javaScript, .typeScript]) {d : Description}
    (h : Registry.standard.extract language t = .ok d) :
    (∀ c ∈ d.classes, "exported" ∈ c.attributes → ∃ (s : ExportedName) (before rest : Text),
      s.Reported t before rest d ∧ s.head.isClass = true ∧ c.name = s.name.string ∧
        c.line = (LineIndex.ofText t).lineNumber before.width) ∧
    ∀ f ∈ d.functions, f.isExported = true → ∃ (s : ExportedName) (before rest : Text),
      s.Reported t before rest d ∧ s.head.isClass = false ∧ f.name = s.name.string ∧
        f.line = (LineIndex.ofText t).lineNumber before.width := by
  have hd : describe? language t = some d := by
    simp only [List.mem_cons, List.not_mem_nil, or_false] at hlanguage
    rcases hlanguage with rfl | rfl
    · exact foundOrCut_eq_ok "javascript" .javaScript _ d h
    · exact foundOrCut_eq_ok "javascript" .typeScript _ d h
  obtain ⟨hfunctions, hexports⟩ := describe?_functions hd
  constructor
  · intro c hc hexported
    obtain ⟨m, hm, hread⟩ := mapM_mem _ _ _ (describe?_parts hd).1 c hc
    obtain ⟨hname, hline, hattributes⟩ := classOf?_attributes hread
    rw [hattributes, exported_mem] at hexported
    obtain ⟨s, before, rest, hreported, hoffset, hclass, hgroup⟩ :=
      reported_of_match hm (fun hmatch => classHeader_stands hmatch hexported) hexports
    exact ⟨s, before, rest, hreported, hclass, by rw [hname, Match.string, hgroup]; rfl, by rw [hline, hoffset]⟩
  · intro f hf hexported
    simp only [functions?, Option.bind_eq_bind, Option.bind_eq_some_iff] at hfunctions
    obtain ⟨declared, hdeclared, held, hheld, hsorted⟩ := hfunctions
    rw [← Option.some.inj hsorted] at hf
    obtain ⟨offset, hf⟩ := (mem_inSourceOrder _ f).mp hf
    rcases List.mem_append.mp hf with hf | hf
    · obtain ⟨m, hm, hread⟩ := mapM_mem _ _ _ hdeclared _ hf
      exact function_reported hm hread functionDeclaration_stands hexports hexported
    · obtain ⟨m, hm, hread⟩ := mapM_mem _ _ _ hheld _ hf
      exact function_reported hm hread functionExpression_stands hexports hexported

theorem extract_exports_class :
    ∃ d, Registry.standard.extract .typeScript "export class A \x7b\x7d".toList = .ok d ∧
      ∃ (s : ExportedName) (before rest : Text), s.Reported "export class A \x7b\x7d".toList before rest d ∧
        s.head.isClass = true ∧ s.name.string = "A" := by
  have hfound : (Registry.standard.extract .typeScript "export class A \x7b\x7d".toList).map
      (fun d => d.classes.map fun c => (c.name, c.attributes)) = .ok [("A", ["exported"])] := by decide +kernel
  cases hd : Registry.standard.extract .typeScript "export class A \x7b\x7d".toList with
  | error e =>
    rw [hd] at hfound
    cases hfound
  | ok d =>
    rw [hd] at hfound
    obtain ⟨c, hc, hshown⟩ := List.mem_map.mp ((Except.ok.inj hfound) ▸ List.mem_singleton_self ("A", ["exported"]))
    obtain ⟨hname, hattributes⟩ := Prod.mk.inj hshown
    obtain ⟨s, before, rest, hreported, hclass, hsame, -⟩ := (extract_exports (by decide) hd).1 c hc
      (by rw [hattributes]; exact List.mem_singleton_self _)
    exact ⟨d, rfl, s, before, rest, hreported, hclass, hsame.symm.trans hname⟩

/-- An abstract class that is exported under its name is not among the exports. -/
theorem extract_exports_abstract :
    (Registry.standard.extract .typeScript "export abstract class A \x7b\x7d".toList).map
      (fun d => (d.classes.map fun c => (c.name, c.attributes), d.exports.map (·.name))) =
        .ok ([("A", ["abstract", "exported"])], []) := by
  decide +kernel

end JavaScript

end CodeIndex
