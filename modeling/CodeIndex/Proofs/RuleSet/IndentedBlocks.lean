import CodeIndex.Proofs.RuleSet.HeaderLines
import CodeIndex.Proofs.RuleSet.Python

/-!
# Blocks behind lines of headers

The block behind a header consists of the lines that follow it and are deeper, up to the first one that is not.
Since every line of declarations is a code line, the depths alone decide where blocks end and how deep members
are.
-/

namespace CodeIndex

/-- A line is split off at its line feed. -/
theorem Text.fullLines_line (line rest : Text) (h : '\n' ∉ line) :
    Text.fullLines (line ++ ['\n'] ++ rest) = (line ++ ['\n']) :: Text.fullLines rest := by
  induction line with
  | nil => rfl
  | cons c line ih =>
    have hc : c ≠ '\n' := fun hc => h (hc ▸ List.mem_cons_self)
    have hline := ih fun hmem => h (List.mem_cons_of_mem c hmem)
    rw [List.cons_append, List.cons_append, Text.fullLines, if_neg (by simpa using hc), hline]

/-- Trimmed at its end, a text still begins with a character that is no white space. -/
theorem Text.trimEnd_cons (c : Char) (t : Text) (h : isBlank c = false) :
    ∃ more, Text.trimEnd (c :: t) = c :: more := by
  rw [Text.trimEnd, Text.dropEndWhile, List.reverse_cons, List.dropWhile_append]
  split
  · exact ⟨[], by rw [List.dropWhile_cons_of_neg (by rw [h]; decide)]; rfl⟩
  · exact ⟨_, List.reverse_concat ..⟩

namespace Python

open Regex

/-! ### Code lines -/

theorem fullLines_source (lines : List Line) : (source lines).fullLines = lines.map Line.full := by
  induction lines with
  | nil => rfl
  | cons l lines ih =>
    rw [source_cons, Line.full, Text.fullLines_line l.text _ l.one_line, ih, List.map_cons, Line.full]

theorem isCodeLine_full (l : Line) : isCodeLine l.full = true := by
  obtain ⟨c, more, htext, hc⟩ := l.statement.begins
  have hletter : isBlank c = false ∧ c ≠ '#' := by
    have hletters : ∀ c ∈ ['c', 'd', 'p'], isBlank c = false ∧ c ≠ '#' := Text.forall_mem _ (by decide)
    exact hletters c hc
  have hspaces : ∀ d ∈ l.indent, isBlank d = true := fun d hd => by
    rw [List.eq_of_mem_replicate hd]
    rfl
  have hstart : Text.trimStart l.full = c :: (more ++ ['\n']) := by
    rw [Text.trimStart, Line.full, Line.text, htext, List.append_assoc, List.dropWhile_append_of_pos hspaces,
      List.cons_append, List.dropWhile_cons_of_neg (by rw [hletter.1]; decide)]
  obtain ⟨kept, hkept⟩ := Text.trimEnd_cons c (more ++ ['\n']) hletter.1
  have hhash : Text.startsWith (c :: kept) ['#'] = false := by
    rw [Text.startsWith, Text.dropStart?, if_neg (by simpa using hletter.2.symm)]
    rfl
  rw [isCodeLine, Text.trim, hstart, hkept, hhash]
  rfl

theorem indentOf_full (l : Line) : indentOf l.full = 4 * l.depth := by
  have hspaces : ∀ d ∈ l.indent, isTabOrSpace d = true := fun d hd => by
    rw [List.eq_of_mem_replicate hd]
    rfl
  obtain ⟨c, more, htext, -⟩ := l.statement.begins
  have hc := behind_indent l ['\n'] c (more ++ ['\n']) (by rw [htext, List.cons_append])
  rw [indentOf, Line.full, Line.text, htext, List.append_assoc, List.takeWhile_append_of_pos hspaces,
    List.cons_append, List.takeWhile_cons_of_neg (by rw [hc]; decide), List.append_nil, Line.indent,
    List.length_replicate]

/-! ### Lines behind a header -/

/-- The lines of some declarations with their offsets. -/
def numbered (offset : Nat) (lines : List Line) : List (Nat × Text) :=
  linesFrom offset (lines.map Line.full)

theorem numbered_cons (offset : Nat) (l : Line) (lines : List Line) :
    numbered offset (l :: lines) = (offset, l.full) :: numbered (offset + l.full.width) lines := rfl

theorem linesAfter?_header (before : Text) (l : Line) (later : List Line) :
    linesAfter? (before ++ source (l :: later)) (before.width + l.text.width) =
      some (numbered (before.width + l.full.width) later) := by
  have hstop := Text.dropBytes?_width (before ++ l.text) ('\n' :: source later)
  have hbehind := Text.dropBytes?_width (before ++ l.full) (source later)
  have hwidth : before.width + l.text.width + 0 + 1 = before.width + l.full.width := by
    rw [Line.full, Text.width_append]
    rfl
  rw [Text.width_append, List.append_assoc] at hstop hbehind
  rw [l.full_append, ← hwidth] at hbehind
  rw [source_cons, l.full_append, linesAfter?, hstop, ← hwidth, numbered, ← fullLines_source]
  change (Text.dropBytes? _ (before.width + l.text.width + 0 + 1)).bind _ = _
  rw [hbehind]
  rfl

/-- Where the lines end that are deeper than a header. -/
theorem find_shallow (offset depth : Nat) (lines : List Line) :
    (match (numbered offset lines).find? fun (_, line) => isCodeLine line && indentOf line ≤ 4 * depth with
      | some (found, _) => found
      | none => offset + (source lines).width) =
      offset + (source (lines.takeWhile (depth < ·.depth))).width := by
  induction lines generalizing offset with
  | nil => rfl
  | cons l lines ih =>
    rw [numbered_cons, List.find?_cons]
    dsimp only
    rw [isCodeLine_full, indentOf_full, Bool.true_and]
    by_cases hdeep : depth < l.depth
    · rw [decide_eq_false (by omega), List.takeWhile_cons_of_pos (by simpa using hdeep), source_cons, source_cons,
        Text.width_append, Text.width_append, ← Nat.add_assoc, ← Nat.add_assoc]
      exact ih (offset + l.full.width)
    · rw [decide_eq_true (by omega), List.takeWhile_cons_of_neg (by simpa using hdeep)]
      rfl

theorem memberIndent_numbered (offset depth : Nat) (lines : List Line) :
    memberIndent (numbered offset lines) (4 * depth) =
      (lines.head?.filter (depth < ·.depth)).map (4 * ·.depth) := by
  cases lines with
  | nil => rfl
  | cons l lines =>
    rw [memberIndent, numbered_cons, List.find?_cons]
    dsimp only
    rw [isCodeLine_full, List.head?_cons, Option.filter_some]
    by_cases hdeep : depth < l.depth
    · rw [if_pos (by simpa using hdeep)]
      refine (if_pos ?_).trans (congrArg some (indentOf_full l))
      rw [indentOf_full]
      omega
    · rw [if_neg (by simpa using hdeep)]
      refine if_neg ?_
      rw [indentOf_full]
      omega

/-! ### Blocks -/

/-- The block of a class header: the deeper lines behind it, the first of which is a member. -/
def Placed.block (x : Placed) : ClassBlock where
  start := x.offset
  stop := x.offset + x.line.full.width + (source (x.later.takeWhile (x.line.depth < ·.depth))).width
  memberIndent := (x.later.head?.filter (x.line.depth < ·.depth)).map (4 * ·.depth)

/-- The blocks of the classes among some lines. -/
def blocksOf (lines : List Placed) : List ClassBlock :=
  lines.filterMap fun x => x.line.statement.class?.map fun _ => x.block

def blockAt? {β : Type} (t : Text) (h : Header β) : Option ClassBlock :=
  (blockEnd? t h.stop h.indent).bind fun stop =>
    (linesAfter? t h.stop).bind fun lines => some ⟨h.start, stop, Python.memberIndent lines h.indent⟩

theorem blockOf?_header {β : Type} (t : Text) (content : Match → β) (m : Match) :
    blockOf? t m = blockAt? t (headerOf content m) := rfl

/-- Where a line stands among all lines. -/
theorem placed_split (offset : Nat) (lines : List Line) (x : Placed) (h : x ∈ placed offset lines) :
    ∃ before : Text, source lines = before ++ source (x.line :: x.later) ∧ x.offset = offset + before.width := by
  induction lines generalizing offset with
  | nil => cases h
  | cons l later ih =>
    obtain rfl | h := List.mem_cons.mp h
    · exact ⟨[], rfl, rfl⟩
    · obtain ⟨before, hsource, hoffset⟩ := ih (offset + l.full.width) h
      refine ⟨l.full ++ before, ?_, ?_⟩
      · rw [source_cons, hsource, List.append_assoc]
      · rw [hoffset, Text.width_append, Nat.add_assoc]

theorem blockAt?_placed {β : Type} (lines : List Line) (x : Placed) (h : x ∈ placed 0 lines) (content : β) :
    blockAt? (source lines) (x.header content) = some x.block := by
  obtain ⟨before, hsource, hoffset⟩ := placed_split 0 lines x h
  rw [Nat.zero_add] at hoffset
  have hlines := linesAfter?_header before x.line x.later
  have hwidth : (source lines).width = before.width + x.line.full.width + (source x.later).width := by
    rw [hsource, Text.width_append, source_cons, Text.width_append, Nat.add_assoc]
  rw [← hsource, ← hoffset] at hlines
  rw [← hoffset] at hwidth
  rw [blockAt?, blockEnd?, Placed.header, hlines, Option.map_some, Option.bind_some, Option.bind_some,
    memberIndent_numbered, hwidth]
  exact congrArg (fun stop => some (⟨x.offset, stop, _⟩ : ClassBlock))
    (find_shallow (x.offset + x.line.full.width) x.line.depth x.later)

/-- The blocks behind the class headers. -/
theorem blocks_of_headers (lines : List Line) :
    (classHeader.findAll (source lines)).mapM (blockOf? (source lines)) = some (blocksOf (placed 0 lines)) := by
  have hheaders := classHeader_reads.found (source lines).length (source lines).start lines rfl rfl
  have hblocks : ∀ xs : List Placed, (∀ x ∈ xs, x ∈ placed 0 lines) →
      (headersOf Statement.class? xs).mapM (blockAt? (source lines)) = some (blocksOf xs) := by
    intro xs hxs
    induction xs with
    | nil => rfl
    | cons x xs ih =>
      obtain ⟨hx, hxs⟩ := List.forall_mem_cons.mp hxs
      cases hclass : x.line.statement.class? with
      | none =>
        rw [headersOf, blocksOf, List.filterMap_cons_none (by rw [hclass]; rfl),
          List.filterMap_cons_none (by rw [hclass]; rfl)]
        exact ih hxs
      | some content =>
        rw [headersOf, blocksOf, List.filterMap_cons_some (by rw [hclass]; rfl),
          List.filterMap_cons_some (by rw [hclass]; rfl), List.mapM_cons, blockAt?_placed lines x hx content,
          Option.bind_eq_bind, Option.bind_some]
        rw [headersOf, blocksOf] at ih
        rw [ih hxs]
        rfl
  have hall := hblocks (placed 0 lines) fun _ hx => hx
  rw [← findAll_eq_found] at hheaders
  rw [show placed 0 lines = placed (source lines).start.offset lines from rfl, ← hheaders, List.mapM_map] at hall
  rw [show blockOf? (source lines) = blockAt? (source lines) ∘ headerOf _ from funext (blockOf?_header _ _)]
  exact hall

end Python

end CodeIndex
