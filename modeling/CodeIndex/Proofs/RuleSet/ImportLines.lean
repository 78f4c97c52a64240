import CodeIndex.Proofs.RuleSet.ClassLines
import CodeIndex.Proofs.RuleSet.ImportRules
import CodeIndex.Proofs.RuleSet.Lines
import Mathlib.Data.List.Nodup

/-!
# Texts made of import statements

Each line is one statement. A rule finds the statements of its own form, line after line, and nothing in the others,
so that the three rules together find each statement once, where it stands.
-/

namespace CodeIndex

open JavaScript

/-- Items that stand at rising offsets, found in any order. -/
theorem inSourceOrder_of_perm {α : Type} {found placed : List (Nat × α)} (h : found.Perm placed)
    (hrising : placed.Pairwise fun a b => a.1 < b.1) : inSourceOrder found = placed.map (·.2) := by
  have hperm := (found.mergeSort_perm fun a b => a.1 ≤ b.1).trans h
  rw [inSourceOrder, hperm.eq_of_pairwise (fun a b ha hb hab hba => ?_) (mergeSort_offsets found)
    (hrising.imp Nat.le_of_lt)]
  have hoffsets : (placed.map (·.1)).Nodup := List.pairwise_map.mpr (hrising.imp Nat.ne_of_lt)
  exact List.inj_on_of_nodup_map hoffsets (hperm.mem_iff.mp ha) hb
    (Nat.le_antisymm hab hba)

namespace JavaScript

open Regex

/-! ### Lines -/

def ImportStatement.described (s : ImportStatement) (line : Nat) : Import :=
  ⟨s.moduleName, s.items, s.kind, .ofNat line⟩

def ImportStatement.line (s : ImportStatement) : Text :=
  s.text ++ [';']

/-- The statements one per line, each with its semicolon, and line feeds at the end of the text. -/
def importLines (statements : List ImportStatement) (final : Nat) : Text :=
  lined (statements.map ImportStatement.line) final

/-- The statements with the offsets and the lines where they stand. -/
def placedImports (offset line : Nat) : List ImportStatement → List (Nat × Nat × ImportStatement)
  | [] => []
  | s :: more => (offset, line, s) :: placedImports (offset + s.text.width + 2) (line + 1) more

def importOfPlaced (placed : Nat × Nat × ImportStatement) : Nat × Import :=
  (placed.1, placed.2.2.described placed.2.1)

theorem importLines_single (s : ImportStatement) (final : Nat) :
    importLines [s] final = s.text ++ ';' :: List.replicate final '\n' :=
  List.append_assoc ..

theorem importLines_cons (s next : ImportStatement) (more : List ImportStatement) (final : Nat) :
    importLines (s :: next :: more) final = s.text ++ (';' :: ['\n'] ++ importLines (next :: more) final) :=
  (lined_cons _ _ (more.map ImportStatement.line) final).trans (List.append_assoc ..)

theorem importLines_last (statements : List ImportStatement) (final : Nat) :
    ∀ c, (importLines statements final).getLast? = some c → c.utf8Size = 1 :=
  lined_last _ final (List.forall_mem_map.mpr fun s _ c hc => by
    rw [ImportStatement.line, List.getLast?_concat] at hc
    cases hc
    rfl)

theorem placedImports_ge (statements : List ImportStatement) (offset line : Nat) :
    ∀ placed ∈ placedImports offset line statements, offset ≤ placed.1 := by
  induction statements generalizing offset line with
  | nil => exact List.forall_mem_nil _
  | cons s more ih =>
    refine List.forall_mem_cons.mpr ⟨Nat.le_refl offset, fun placed hplaced => ?_⟩
    have hge := ih _ _ placed hplaced
    omega

theorem placedImports_rising (statements : List ImportStatement) (offset line : Nat) :
    (placedImports offset line statements).Pairwise fun a b => a.1 < b.1 := by
  induction statements generalizing offset line with
  | nil => exact .nil
  | cons s more ih =>
    refine List.pairwise_cons.mpr ⟨fun placed hplaced => ?_, ih _ _⟩
    have hge := placedImports_ge more _ _ placed hplaced
    omega

theorem placedImports_described (statements : List ImportStatement) (offset line : Nat) :
    (placedImports offset line statements).map (fun placed => (importOfPlaced placed).2) =
      statements.mapIdx fun i s => s.described (line + i) := by
  induction statements generalizing offset line with
  | nil => rfl
  | cons s more ih =>
    rw [placedImports, List.map_cons, ih, List.mapIdx_cons]
    simp only [importOfPlaced, Nat.add_zero, Nat.add_assoc, Nat.add_comm 1]

/-! ### Rules over lines -/

/-- Whether a rule takes the statements of a form as they are and finds nothing in the others. -/
structure FindsImports (r : Regex) (own : ImportStatement → Bool) (importOf : LineIndex → Match → Nat × Import) : Prop where
  passes : r.mayPassNothing = false
  begins : ∀ c ∈ [';', '\n'], r.mayBegin c = false
  takes : ∀ (fuel : Nat) (p : Cursor) (s : ImportStatement) (rest : Text) (lines : LineIndex), own s = true →
    p.rest = s.text ++ ';' :: rest → p.before.any isWord = false →
      ∃ m : Match, r.found fuel p = m :: r.found fuel (p.after s.text (';' :: rest)) ∧
        importOf lines m = (p.offset, s.described (lines.lineAt p.offset))
  skips : ∀ (fuel : Nat) (s : ImportStatement) (rest : Text), own s = false → SkipsOver fuel r s.text (';' :: rest)

theorem ImportStatement.one_line (s : ImportStatement) : '\n' ∉ s.text := by
  let others := [' ', '$', ':', ',', '{', '}', '*', '=', '(', ')', '.', '/', '-', '@', '\'']
  have hfixed : ∀ u : Text, (u.all fun c => isWord c || others.contains c) = true → u.Uses others := fun _ => .of_all
  have hname : ∀ name : Name, name.text.Uses others := fun name => name.uses others
  have hlist : ∀ {form : Renaming} (list : ItemList form), list.braced.Uses others := fun list =>
    (hfixed _ (by decide)).append ((list.uses.mono (by decide)).append (hfixed _ (by decide)))
  have hmodule : ∀ m : ModuleName, m.quoted.Uses others := fun m => (quoted_uses m).mono (by decide)
  have huses : s.text.Uses others := by
    cases s with
    | named clause m =>
      have hclause : clause.text.Uses others := by
        cases clause with
        | default_ name => exact hname name
        | namespace_ name => exact (hfixed _ (by decide)).append (hname name)
        | listed list => exact hlist list
        | both name list => exact (hname name).append ((hfixed _ (by decide)).append (hlist list))
      exact (hfixed _ (by decide)).append (hclause.append ((hfixed _ (by decide)).append (hmodule m)))
    | bare m => exact (hfixed _ (by decide)).append (hmodule m)
    | required target m =>
      have htarget : target.text.Uses others := by
        cases target with
        | single name => exact hname name
        | listed list => exact hlist list
      exact (hfixed _ (by decide)).append (htarget.append ((hfixed _ (by decide)).append
        ((hmodule m).append (hfixed _ (by decide)))))
  exact huses.not_mem (by decide) (by decide)

namespace FindsImports

variable {r : Regex} {own : ImportStatement → Bool} {importOf : LineIndex → Match → Nat × Import}

theorem step (h : FindsImports r own importOf) (fuel : Nat) (before : Text) (s : ImportStatement) (rest : Text)
    (hbefore : before.getLast?.any isWord = false) :
    let t := before ++ (s.text ++ ';' :: rest)
    (r.found fuel (t.start.after before (s.text ++ ';' :: rest))).map (importOf (.ofText t)) =
      ([(before.width, before.count '\n' + 1, s)].filter (own ·.2.2)).map importOfPlaced ++
        (r.found fuel (t.start.after (before ++ s.text) (';' :: rest))).map (importOf (.ofText t)) := by
  intro t
  have hplace : (t.start.after before (s.text ++ ';' :: rest)).before.any isWord = false := by
    rw [show (t.start.after before (s.text ++ ';' :: rest)).before = before.getLast?.or none from rfl, Option.or_none,
      hbefore]
  have hoffset : (t.start.after before (s.text ++ ';' :: rest)).offset = before.width := Nat.zero_add _
  rw [← Cursor.after_after _ before s.text (s.text ++ ';' :: rest)]
  cases hown : own s with
  | true =>
    obtain ⟨m, hfound, himport⟩ := h.takes fuel _ s rest (.ofText t) hown rfl hplace
    rw [hoffset, LineIndex.lineAt_width] at himport
    rw [hfound, List.map_cons, himport, List.filter_singleton, hown]
    rfl
  | false =>
    rw [h.skips fuel s rest hown _ rfl, List.filter_singleton, hown]
    rfl

/-- A rule finds its statements, line after line. -/
theorem found (h : FindsImports r own importOf) (statements : List ImportStatement) (final fuel : Nat) (before : Text)
    (hbefore : before.getLast?.any isWord = false) :
    let t := before ++ importLines statements final
    (r.found fuel (t.start.after before (importLines statements final))).map (importOf (.ofText t)) =
      ((placedImports before.width (before.count '\n' + 1) statements).filter (own ·.2.2)).map importOfPlaced := by
  have hfeeds : ∀ c ∈ List.replicate final '\n', r.mayBegin c = false := fun c hc => by
    rw [List.eq_of_mem_replicate hc]
    exact h.begins '\n' (by decide)
  -- on the statements: what stands in front of them grows by a statement, its semicolon and its line feed
  induction statements generalizing before with
  | nil =>
    intro t
    have hnothing : r.found fuel (t.start.after before (importLines [] final)) = [] := found_eq_nil h.passes _ hfeeds
    rw [hnothing]
    rfl
  | cons s more ih =>
    cases more with
    | nil =>
      rw [importLines_single]
      intro t
      have hnothing : r.found fuel (t.start.after (before ++ s.text) (';' :: List.replicate final '\n')) = [] :=
        found_eq_nil h.passes _ (List.forall_mem_cons.mpr ⟨h.begins ';' (by decide), hfeeds⟩)
      rw [h.step fuel before s _ hbefore, hnothing, List.map_nil, List.append_nil]
      rfl
    | cons next more =>
      have hlast : ((before ++ s.text) ++ [';', '\n']).getLast?.any isWord = false := by
        rw [List.getLast?_append]
        rfl
      have hcount : ((before ++ s.text) ++ [';', '\n']).count '\n' = before.count '\n' + 1 := by
        rw [List.count_append, List.count_append, List.count_eq_zero.mpr s.one_line]
        rfl
      have hwidth : Text.width ((before ++ s.text) ++ [';', '\n']) = before.width + s.text.width + 2 := by
        rw [Text.width_append, Text.width_append]
        rfl
      have hrest := ih _ hlast
      rw [hcount, hwidth, List.append_assoc, List.append_assoc] at hrest
      rw [importLines_cons]
      intro t
      have hskip := @found_skip_begin fuel r h.passes
        (t.start.after (before ++ s.text) ([';', '\n'] ++ importLines (next :: more) final)) _ _ rfl h.begins
      rw [Cursor.after_after] at hskip
      refine (h.step fuel before s ('\n' :: importLines (next :: more) final) hbefore).trans ?_
      have hplaced : placedImports before.width (before.count '\n' + 1) (s :: next :: more) =
          [(before.width, before.count '\n' + 1, s)] ++
            placedImports (before.width + s.text.width + 2) (before.count '\n' + 1 + 1) (next :: more) := rfl
      rw [hplaced, List.filter_append, List.map_append]
      exact congrArg _ ((congrArg (List.map (importOf (.ofText t))) hskip).trans hrest)

end FindsImports

/-! ### The three rules -/

namespace ImportStatement

def isNamed : ImportStatement → Bool
  | named .. => true
  | _ => false

def isBare : ImportStatement → Bool
  | bare _ => true
  | _ => false

def isRequired : ImportStatement → Bool
  | required .. => true
  | _ => false

theorem text_ne_nil (s : ImportStatement) : s.text ≠ [] := by
  cases s with
  | named => exact List.append_ne_nil_of_left_ne_nil (by decide) _
  | bare => exact List.append_ne_nil_of_left_ne_nil (by decide) _
  | required => exact List.append_ne_nil_of_left_ne_nil (by decide) _

end ImportStatement

def namedImportAt (lines : LineIndex) (m : Match) : Nat × Import :=
  importAt lines m (m.string 5)
    (((m.string? 3).orElse fun _ => m.string? 2).toList ++ localNames (m.group 1) ++ localNames (m.group 4)) .es6

def bareImportAt (lines : LineIndex) (m : Match) : Nat × Import :=
  importAt lines m (m.string 1) [] .es6

def requireCallAt (lines : LineIndex) (m : Match) : Nat × Import :=
  importAt lines m (m.string 3) (if m.has 1 then localNames (m.group 1) else (m.string? 2).toList) .commonJs

theorem imports_eq (t : Text) (lines : LineIndex) : imports t lines =
    inSourceOrder ((namedImport.findAll t).map (namedImportAt lines) ++ (bareImport.findAll t).map (bareImportAt lines)
      ++ (requireCall.findAll t).map (requireCallAt lines)) := rfl

theorem importAt_described {lines : LineIndex} {m : Match} {p : Cursor} (s : ImportStatement) (h : m.start = p)
    {module_ : String} {items : List String} {kind : ImportKind} (hmodule : module_ = s.moduleName)
    (hitems : items = s.items) (hkind : kind = s.kind) :
    importAt lines m module_ items kind = (p.offset, s.described (lines.lineAt p.offset)) := by
  rw [importAt, h, hmodule, hitems, hkind]
  rfl

theorem namedImport_finds : FindsImports namedImport ImportStatement.isNamed namedImportAt where
  passes := rfl
  begins := Text.forall_mem _ (by decide)
  takes fuel p s rest lines hown h hedge := by
    cases s with
    | named clause module_ =>
      obtain ⟨m, hfound, hstart, hgroups⟩ := (namedImport_reads clause module_ h hedge).found (ImportStatement.text_ne_nil _)
      refine ⟨m, hfound, importAt_described (.named clause module_) hstart ?_ ?_ rfl⟩
      · rw [Match.string, Match.group, hgroups]
        rfl
      · simp only [Match.string?, Match.group, hgroups]
        cases clause with
        | default_ name => rfl
        | namespace_ name => rfl
        | listed list => exact (congrArg (· ++ []) (list.localNames_text .space)).trans (List.append_nil _)
        | both name list => exact congrArg (name.string :: ·) (list.localNames_text .space)
    | bare => cases hown
    | required => cases hown
  skips fuel s rest hown := by
    cases s with
    | named => cases hown
    | bare module_ => exact namedImport_skips_bare module_
    | required target module_ => exact namedImport_skips_required target module_

theorem bareImport_finds : FindsImports bareImport ImportStatement.isBare bareImportAt where
  passes := rfl
  begins := Text.forall_mem _ (by decide)
  takes fuel p s rest lines hown h hedge := by
    cases s with
    | named => cases hown
    | bare module_ =>
      obtain ⟨m, hfound, hstart, hgroups⟩ := (bareImport_reads module_ h hedge).found (ImportStatement.text_ne_nil _)
      refine ⟨m, hfound, importAt_described (.bare module_) hstart ?_ rfl rfl⟩
      rw [Match.string, Match.group, hgroups]
      rfl
    | required => cases hown
  skips fuel s rest hown := by
    cases s with
    | named clause module_ => exact bareImport_skips_named clause module_
    | bare => cases hown
    | required target module_ => exact bareImport_skips_required target module_

theorem requireCall_finds : FindsImports requireCall ImportStatement.isRequired requireCallAt where
  passes := rfl
  begins := Text.forall_mem _ (by decide)
  takes fuel p s rest lines hown h hedge := by
    cases s with
    | named => cases hown
    | bare => cases hown
    | required target module_ =>
      obtain ⟨m, hfound, hstart, hgroups⟩ :=
        (requireCall_reads target module_ h hedge).found (ImportStatement.text_ne_nil _)
      refine ⟨m, hfound, importAt_described (.required target module_) hstart ?_ ?_ rfl⟩
      · rw [Match.string, Match.group, hgroups]
        rfl
      · have hhas : m.has 1 = (m.group? 1).isSome := by rw [Match.group?, Option.isSome_map]; rfl
        simp only [Match.string?, Match.group, hhas, hgroups]
        cases target with
        | single name => rfl
        | listed list => exact list.localNames_text .space
  skips fuel s rest hown := by
    cases s with
    | named clause module_ => exact requireCall_skips_named clause module_
    | bare module_ => exact requireCall_skips_bare module_
    | required => cases hown

theorem forms_perm (placed : List (Nat × Nat × ImportStatement)) :
    (placed.filter (·.2.2.isNamed) ++ placed.filter (·.2.2.isBare) ++ placed.filter (·.2.2.isRequired)).Perm placed := by
  induction placed with
  | nil => exact .nil
  | cons first more ih =>
    obtain ⟨offset, line, s⟩ := first
    cases s with
    | named => exact ih.cons _
    | bare => exact (List.perm_middle.append_right _).trans (ih.cons _)
    | required => exact List.perm_middle.trans (ih.cons _)

theorem imports_importLines (statements : List ImportStatement) (final : Nat) :
    imports (importLines statements final) (.ofText (importLines statements final)) =
      statements.mapIdx fun i s => s.described (i + 1) := by
  let placed := placedImports 0 1 statements
  have hfound : ∀ {r : Regex} {own : ImportStatement → Bool} {importOf : LineIndex → Match → Nat × Import},
      FindsImports r own importOf →
        (r.findAll (importLines statements final)).map (importOf (.ofText (importLines statements final))) =
          (placed.filter (own ·.2.2)).map importOfPlaced := fun h =>
    h.found statements final (importLines statements final).length [] rfl
  have hperm := (forms_perm placed).map importOfPlaced
  rw [List.map_append, List.map_append] at hperm
  have hrising : (placed.map importOfPlaced).Pairwise fun a b => a.1 < b.1 :=
    List.pairwise_map.mpr (placedImports_rising statements 0 1)
  rw [imports_eq, hfound namedImport_finds, hfound bareImport_finds, hfound requireCall_finds,
    inSourceOrder_of_perm hperm hrising, List.map_map]
  refine (placedImports_described statements 0 1).trans ?_
  simp only [Nat.add_comm 1]

end JavaScript

/-! ### Descriptions -/

/-- Each statement of a text of import statements, one per line, is described as one import on its line. -/
theorem extract_import_lines (language : Language) (hlanguage : language ∈ JavaScript.ruleSet.languages)
    (statements : List ImportStatement) (final : Nat) :
    ∃ d, Registry.standard.extract language (importLines statements final) = .ok d ∧
      d.imports = statements.mapIdx fun i s => s.described (i + 1) := by
  obtain ⟨d, hd⟩ := describe?_exists language (importLines statements final) (importLines_last statements final)
  obtain ⟨-, himports⟩ := describe?_parts hd
  refine ⟨d, ?_, himports.trans (imports_importLines statements final)⟩
  rw [extract_ruleSet hlanguage, hd]
  rfl

/-- Names that are spelled like the words of the statements. -/
theorem extract_import_lines_keywords :
    ∃ d, Registry.standard.extract .typeScript
        "import type, \x7b from as as \x7d from './a';\nimport '@b';\nconst \x7b type: const \x7d = require('c');".toList
          = .ok d ∧
      d.imports.map (fun i => (i.moduleName, i.items, i.kind, i.line)) =
        [("./a", ["type", "as"], .es6, 1), ("@b", [], .es6, 2), ("c", ["const"], .commonJs, 3)] := by
  let listed (s : String) (h : s.toList ≠ [] ∧ s.toList.all isWord = true) : ListedName :=
    ⟨s.toList, h.1, fun c hc => Or.inl (List.all_eq_true.mp h.2 c hc)⟩
  obtain ⟨d, hd, himports⟩ := extract_import_lines .typeScript (by decide)
    [.named (.both (.ofString "type" (by decide)) ⟨⟨listed "from" (by decide), some (listed "as" (by decide)),
        fun _ _ => by decide⟩, []⟩) ⟨"./a".toList, by decide, .of_all (by decide)⟩,
      .bare ⟨"@b".toList, by decide, .of_all (by decide)⟩,
      .required (.listed ⟨⟨listed "type" (by decide), some (listed "const" (by decide)), fun h => nomatch h⟩, []⟩)
        ⟨"c".toList, by decide, .of_all (by decide)⟩] 0
  refine ⟨d, hd, ?_⟩
  rw [himports]
  rfl

/-- A default name with a dollar sign is no name for the rules. -/
theorem extract_import_dollar :
    ∃ d, Registry.standard.extract .javaScript "import $ from 'jquery';\n".toList = .ok d ∧ d.imports = [] := by
  let t := "import $ from 'jquery';\n".toList
  obtain ⟨d, hd⟩ := describe?_exists .javaScript t fun c hc => by
    obtain rfl : '\n' = c := Option.some.inj hc
    rfl
  have hnamed : namedImport.findAll t = [] := by decide +kernel
  have hbare : bareImport.findAll t = [] := by decide +kernel
  have hrequired : requireCall.findAll t = [] := by decide +kernel
  refine ⟨d, ?_, ?_⟩
  · rw [extract_ruleSet (by decide), hd]
    rfl
  · rw [(describe?_parts hd).2, imports_eq, hnamed, hbare, hrequired]
    simp only [List.map_nil, List.append_nil, inSourceOrder, List.mergeSort_nil]

end CodeIndex
