import CodeIndex.Proofs.RuleSet.Lines
import CodeIndex.RuleSet.Python

/-!
# Texts that the Python rules read

A text is cut at the starts and the ends of matches and at the starts of lines, and members are added to
classes that were found. So the rules read every text.
-/

namespace CodeIndex

theorem Text.fullLines_flatten (t : Text) : t.fullLines.flatten = t := by
  induction t with
  | nil => rfl
  | cons c rest ih =>
    rw [fullLines]
    split
    · rw [List.flatten_cons, ih, List.singleton_append]
    · cases hlines : fullLines rest with
      | nil =>
        rw [hlines] at ih
        rw [← ih]
        rfl
      | cons line lines =>
        rw [hlines] at ih
        rw [List.flatten_cons, List.cons_append, ← List.flatten_cons, ih]

namespace Python

open Regex

/-! ### Lines -/

/-- Each line starts where the text splits. -/
theorem linesFrom_split (start : Nat) (lines : List Text) (offset : Nat) (line : Text)
    (h : (offset, line) ∈ linesFrom start lines) :
    ∃ before rest : Text, lines.flatten = before ++ rest ∧ offset = start + before.width := by
  induction lines generalizing start with
  | nil => cases h
  | cons first lines ih =>
    rcases List.mem_cons.mp h with he | h
    · cases he
      exact ⟨[], (line :: lines).flatten, rfl, rfl⟩
    · obtain ⟨before, rest, hsplit, hoffset⟩ := ih _ h
      refine ⟨first ++ before, rest, ?_, ?_⟩
      · rw [List.flatten_cons, hsplit, List.append_assoc]
      · rw [hoffset, Text.width_append, Nat.add_assoc]

/-- A place of a text that lies behind another by the given characters. -/
theorem linesAfter?_some (before rest : Text) :
    ∃ lines, linesAfter? (before ++ rest) before.width = some lines ∧
      ∀ offset line, (offset, line) ∈ lines →
        ∃ middle behind : Text, rest = middle ++ behind ∧ offset = before.width + middle.width := by
  have hparts := List.takeWhile_append_dropWhile (p := (· != '\n')) (l := rest)
  rw [linesAfter?, Text.dropBytes?_width, Option.bind_eq_bind, Option.bind_some]
  cases hlater : rest.dropWhile (· != '\n') with
  | nil =>
    have hend := Text.dropBytes?_width (before ++ rest) []
    rw [List.append_nil] at hend
    simp only [hend]
    exact ⟨[], rfl, fun _ _ h => by cases h⟩
  | cons feed later =>
    have hfeed : feed = '\n' := by
      have hhead := List.head?_dropWhile_not (· != '\n') rest
      rw [hlater] at hhead
      simpa using hhead
    subst hfeed
    rw [hlater] at hparts
    have hwidth : before.width + Text.width (rest.takeWhile (· != '\n')) + 1 =
        Text.width (before ++ (rest.takeWhile (· != '\n') ++ ['\n'])) := by
      rw [Text.width_append, Text.width_append, Nat.add_assoc]
      rfl
    have hdrop := Text.dropBytes?_width (before ++ (rest.takeWhile (· != '\n') ++ ['\n'])) later
    rw [← hwidth, List.append_assoc, List.append_assoc, List.singleton_append, hparts] at hdrop
    simp only [hdrop]
    refine ⟨_, rfl, fun offset line h => ?_⟩
    obtain ⟨middle, behind, hsplit, hoffset⟩ := linesFrom_split _ _ offset line h
    rw [Text.fullLines_flatten] at hsplit
    refine ⟨rest.takeWhile (· != '\n') ++ ['\n'] ++ middle, behind, ?_, ?_⟩
    · rw [List.append_assoc, List.append_assoc, List.singleton_append, ← hsplit, hparts]
    · rw [hoffset, Text.width_append, Text.width_append]
      simp only [Text.width]
      have hone : ('\n').utf8Size = 1 := rfl
      omega

/-- A block ends at a place between characters behind its header. -/
theorem blockEnd?_some (before rest : Text) (indent : Nat) :
    ∃ middle behind : Text, rest = middle ++ behind ∧
      blockEnd? (before ++ rest) before.width indent = some (before.width + middle.width) := by
  obtain ⟨lines, hlines, hplaces⟩ := linesAfter?_some before rest
  rw [blockEnd?, hlines, Option.map_some]
  split
  · next offset line hfound =>
    obtain ⟨middle, behind, hsplit, hoffset⟩ := hplaces offset line (List.mem_of_find?_eq_some hfound)
    exact ⟨middle, behind, hsplit, congrArg some hoffset⟩
  · exact ⟨rest, [], (List.append_nil rest).symm, congrArg some (Text.width_append before rest)⟩

/-! ### Matches -/

theorem blockOf?_some (t : Text) (m : Match) (h : m.LiesBehind t.start) :
    ∃ block, blockOf? t m = some block := by
  obtain ⟨before, hsplit, hstop, -⟩ := h.split
  obtain ⟨middle, behind, -, hend⟩ := blockEnd?_some before m.stop.rest (indentOfMatch m)
  obtain ⟨lines, hlines, -⟩ := linesAfter?_some before m.stop.rest
  rw [← hsplit, ← hstop] at hend hlines
  rw [blockOf?, hend, hlines]
  exact ⟨_, rfl⟩

theorem decoratorsBefore?_some (t : Text) (m : Match) (h : m.LiesBehind t.start) :
    ∃ decorators, decoratorsBefore? t m.start.offset = some decorators := by
  obtain ⟨passed, hpassed⟩ := h.start
  have htake := Text.takeBytes?_width passed m.start.rest
  have hsplit : t = passed ++ m.start.rest := hpassed.rest
  have hoffset : m.start.offset = passed.width := by
    rw [hpassed.offset]
    exact Nat.zero_add _
  rw [← hsplit, ← hoffset] at htake
  rw [decoratorsBefore?, htake]
  exact ⟨_, rfl⟩

theorem classOf?_some (t : Text) (lines : LineIndex) (m : Match) (h : m.LiesBehind t.start) :
    ∃ c, classOf? t lines m = some c := by
  obtain ⟨decorators, hdecorators⟩ := decoratorsBefore?_some t m h
  rw [classOf?, hdecorators]
  exact ⟨_, rfl⟩

theorem bodyComplexity?_some (t : Text) (m : Match) (h : m.LiesBehind t.start) :
    ∃ n, bodyComplexity? t m = some n := by
  obtain ⟨before, hsplit, hstop, -⟩ := h.split
  obtain ⟨middle, behind, hrest, hend⟩ := blockEnd?_some before m.stop.rest (indentOfMatch m)
  have hslice := Text.slice?_between before middle behind
  rw [← hrest] at hslice
  rw [← hsplit, ← hstop] at hend hslice
  rw [bodyComplexity?, hend, Option.bind_eq_bind, Option.bind_some, hslice]
  exact ⟨_, rfl⟩

theorem functionOf?_some (t : Text) (lines : LineIndex) (m : Match) (h : m.LiesBehind t.start) :
    ∃ f, functionOf? t lines m = some f := by
  obtain ⟨n, hn⟩ := bodyComplexity?_some t m h
  obtain ⟨decorators, hdecorators⟩ := decoratorsBefore?_some t m h
  rw [functionOf?, annotatedParameters?_eq, hn, hdecorators]
  exact ⟨_, rfl⟩

/-! ### Owners -/

theorem ownerFrom_lt (offset indent first : Nat) (blocks : List ClassBlock) (owner : Nat)
    (h : ownerFrom offset indent first blocks = some owner) : owner < first + blocks.length := by
  induction blocks generalizing first with
  | nil => cases h
  | cons b rest ih =>
    rw [ownerFrom] at h
    rw [List.length_cons]
    split at h
    · next index hrest =>
      cases h
      have hlt := ih (first + 1) hrest
      omega
    · split at h
      · cases h
        omega
      · cases h

theorem ownersExist_of_lt {α : Type} (classes : Nat) (found : List (Option Nat × α))
    (h : ∀ f ∈ found, ∀ owner, f.1 = some owner → owner < classes) :
    ownersExist classes found = true := by
  refine List.all_eq_true.mpr ?_
  rintro ⟨_ | owner, a⟩ hf
  · rfl
  · exact decide_eq_true (h _ hf owner rfl)

/-! ### Descriptions -/

/-- The Python rules read every text. -/
theorem describe?_some (language : Language) (t : Text) : ∃ d, describe? language t = some d := by
  obtain ⟨blocks, hblocks⟩ := mapM_exists (blockOf? t) (classHeader.findAll t) fun m hm =>
    blockOf?_some t m (scan_liesBehind _ _ t.start m hm)
  obtain ⟨classes, hclasses⟩ := mapM_exists (classOf? t (.ofText t)) (classHeader.findAll t) fun m hm =>
    classOf?_some t _ m (scan_liesBehind _ _ t.start m hm)
  have hcount : classes.length = blocks.length :=
    (mapM_forall₂ _ _ _ hclasses).length_eq.symm.trans (mapM_forall₂ _ _ _ hblocks).length_eq
  have howner : ∀ (m : Match) (owner : Nat),
      ownerFrom m.start.offset (indentOfMatch m) 0 blocks = some owner → owner < classes.length := by
    intro m owner h
    have hlt := ownerFrom_lt _ _ 0 blocks owner h
    omega
  obtain ⟨functions, hfunctions⟩ := mapM_exists
    (fun m : Match => (functionOf? t (.ofText t) m).map
      (ownerFrom m.start.offset (indentOfMatch m) 0 blocks, ·)) (functionHeader.findAll t) fun m hm => by
    obtain ⟨f, hf⟩ := functionOf?_some t (.ofText t) m (scan_liesBehind _ _ t.start m hm)
    rw [hf]
    exact ⟨_, rfl⟩
  have hmethods : ownersExist classes.length functions = true := by
    refine ownersExist_of_lt _ _ fun found hfound owner h => ?_
    obtain ⟨m, -, hm⟩ := mapM_mem _ _ _ hfunctions found hfound
    obtain ⟨f, -, rfl⟩ := Option.map_eq_some_iff.mp hm
    exact howner m owner h
  have hproperties : ownersExist classes.length ((assignment.findAll t).map fun m =>
      (ownerFrom m.start.offset (indentOfMatch m) 0 blocks, propertyOf (.ofText t) m)) = true := by
    refine ownersExist_of_lt _ _ fun found hfound owner h => ?_
    obtain ⟨m, -, rfl⟩ := List.mem_map.mp hfound
    exact howner m owner h
  refine ⟨_, Option.bind_eq_some_iff.mpr ⟨blocks, hblocks, Option.bind_eq_some_iff.mpr ⟨classes, hclasses,
    Option.bind_eq_some_iff.mpr ⟨functions, hfunctions, Option.bind_eq_some_iff.mpr ⟨(), ?_, rfl⟩⟩⟩⟩⟩
  rw [hmethods, hproperties]
  rfl

/-! ### Lines -/

theorem keywordOffset_within (place : Cursor) (m : Match) (h : m.LiesBehind place) :
    m.start.offset ≤ keywordOffset m ∧ keywordOffset m ≤ m.stop.offset := by
  have hlead := m.text.takeWhile_width_le isBlank
  have htext := m.start.rest.takeBytes_width_le (m.stop.offset - m.start.offset)
  have hstop := h.stop.offset_le
  rw [keywordOffset]
  rw [← Match.text] at htext
  omega

theorem classOf?_line (t : Text) (lines : LineIndex) (m : Match) (c : ClassDecl)
    (h : classOf? t lines m = some c) :
    c.line = lines.lineNumber (keywordOffset m) ∧ c.constructors = [] := by
  simp only [classOf?, Option.bind_eq_bind, Option.bind_eq_some_iff] at h
  obtain ⟨_, -, h⟩ := h
  cases h
  exact ⟨rfl, rfl⟩

theorem functionOf?_line (t : Text) (lines : LineIndex) (m : Match) (f : FunctionDecl)
    (h : functionOf? t lines m = some f) : f.line = lines.lineNumber (keywordOffset m) := by
  simp only [functionOf?, Option.bind_eq_bind, Option.bind_eq_some_iff] at h
  obtain ⟨_, -, _, -, _, -, h⟩ := h
  cases h
  rfl

theorem importsOf_line (lines : LineIndex) (m : Match) (i : Import) (h : i ∈ importsOf lines m) :
    i.line = lines.lineNumber (keywordOffset m) := by
  simp only [importsOf] at h
  split at h
  · rw [List.mem_singleton.mp h]
  · obtain ⟨item, -, rfl⟩ := List.mem_map.mp h
    rfl

/-- The items with one owner are listed in the order of all items. -/
theorem ownedBy_ordersLines {α : Type} (t : Text) (line : α → UInt64) (found : List (Option Nat × α))
    (h : t.OrdersLines (found.map fun f => line f.2)) (owner : Option Nat) :
    t.OrdersLines ((ownedBy owner found).map line) := by
  rw [ownedBy, List.map_map]
  exact h.sublist (List.filter_sublist.map _)

section

variable {t : Text} (hsize : t.width < bound63)

include hsize

theorem ordersLines_keywords (r : Regex) :
    t.OrdersLines ((r.findAll t).map fun m => (LineIndex.ofText t).lineNumber (keywordOffset m)) :=
  ordersLines_matches hsize r t.start keywordOffset fun m h => keywordOffset_within t.start m h

theorem describe?_ordersLines (language : Language) (d : Description)
    (h : describe? language t = some d) : d.OrdersLines t ∧ t.OrdersLines (d.functions.map (·.line)) := by
  obtain ⟨blocks, -, h⟩ := Option.bind_eq_some_iff.mp h
  obtain ⟨classes, hclasses, h⟩ := Option.bind_eq_some_iff.mp h
  obtain ⟨functions, hfunctions, h⟩ := Option.bind_eq_some_iff.mp h
  obtain ⟨-, -, h⟩ := Option.bind_eq_some_iff.mp h
  cases h
  have hfound : t.OrdersLines (functions.map (·.2.line)) := by
    rw [lines_mapM _ (·.2.line) (fun m => (LineIndex.ofText t).lineNumber (keywordOffset m)) ?_ _ _ hfunctions]
    · exact ordersLines_keywords hsize functionHeader
    · intro m f hf
      obtain ⟨d, hd, rfl⟩ := Option.map_eq_some_iff.mp hf
      exact functionOf?_line t _ m d hd
  have howned := ownedBy_ordersLines t FunctionDecl.line functions hfound
  refine ⟨
    { classes := ?_
      members := fun c hc => ?_
      functions := fun f hf => (howned none).within _ (List.mem_map_of_mem hf)
      imports := ?_
      exports := .nil t
      interfaces := .nil t
      fields := fun i hi => absurd hi List.not_mem_nil
      includes := .nil t
      structures := .nil t }, howned none⟩
  · have hlines := lines_mapM _ ClassDecl.line _ (fun m c hc => (classOf?_line t (.ofText t) m c hc).1) _ _
      hclasses
    have hkeywords := ordersLines_keywords hsize classHeader
    rw [← hlines] at hkeywords
    convert hkeywords using 1
    exact List.ext_getElem (by simp) fun i _ _ => by simp
  · obtain ⟨i, hi, rfl⟩ := List.mem_mapIdx.mp hc
    obtain ⟨m, -, hm⟩ := mapM_mem _ _ _ hclasses _ (List.getElem_mem hi)
    refine ⟨?_, ?_, ?_⟩
    · rw [List.map_map]
      exact howned (some i)
    · refine ownedBy_ordersLines t Property.line _ ?_ (some i)
      rw [List.map_map]
      exact ordersLines_groups hsize assignment t.start 2
    · rw [(classOf?_line t _ m _ hm).2]
      exact .nil t
  · exact Text.OrdersLines.flatMap _ _ _ _ (importsOf_line (.ofText t))
      (ordersLines_keywords hsize importLine)

end

end Python

end CodeIndex
