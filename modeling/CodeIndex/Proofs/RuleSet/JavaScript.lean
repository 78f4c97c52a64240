import CodeIndex.Proofs.RuleSet.Lines
import CodeIndex.RuleSet.JavaScript

/-!
# Texts that the JavaScript and TypeScript rules read

The rules cut a text at the ends of their matches, around the blocks behind them, and at the ends of
lines. All these places are between characters except the last byte of the body of a class or an
interface.
-/

namespace CodeIndex.JavaScript

open Regex

/-! ### Members -/

theorem constructorOf?_some (lines : LineIndex) (m : Match) : ∃ c, constructorOf? lines m = some c := by
  rw [constructorOf?, annotatedParameters?_eq]
  exact ⟨_, rfl⟩

theorem methodOf?_some (t : Text) (lines : LineIndex) (m : Match) (h : m.OpensBlock t) :
    ∃ x, methodOf? t lines m = some x := by
  obtain ⟨n, hn⟩ := h.complexity
  rw [methodOf?, annotatedParameters?_eq, openingBrace, hn]
  exact ⟨_, rfl⟩

theorem withMembers?_some (t : Text) (lines : LineIndex) (body : Cursor) (hbody : body.MasksPart t)
    (c : ClassDecl) : ∃ c', withMembers? t lines body c = some c' := by
  have hconstructors := mapM_exists (constructorOf? lines) (constructorHeader.findAllFrom body)
    fun m _ => constructorOf?_some lines m
  have hmethods := mapM_exists (methodOf? t lines)
    ((methodHeader.findAllFrom body).filter fun m =>
      !m.overlapsAny (constructorHeader.findAllFrom body) && namesMethod m) fun m hm => by
    have hfound := (List.mem_filter.mp hm).1
    exact methodOf?_some t lines m
      (hbody.opensBlock (scan_liesBehind _ _ body m hfound) (Regex.scan_char _ _ _ _ m hfound))
  obtain ⟨constructors, hconstructors⟩ := hconstructors
  obtain ⟨methods, hmethods⟩ := hmethods
  rw [withMembers?, hconstructors, hmethods]
  exact ⟨_, rfl⟩

theorem classes?_eq_none (t : Text) (lines : LineIndex) :
    classes? t lines = none ↔ ∃ header ∈ classHeader.findAll t, header.CutsLast t := by
  rw [classes?, scan?_stop, Option.bind_eq_bind, Option.bind_some]
  exact bodies_eq_none _ t _ fun _ body hbody => withMembers?_some t lines body hbody _

theorem interfaces?_eq_none (t : Text) (lines : LineIndex) :
    interfaces? t lines = none ↔ ∃ header ∈ interfaceHeader.findAll t, header.CutsLast t := by
  have hbind : interfaceOf? t lines = fun header => (maskedBody? t header).bind (some ∘ _) :=
    funext fun _ => Option.map_eq_bind
  rw [interfaces?, hbind]
  exact bodies_eq_none _ t _ fun _ _ _ => ⟨_, rfl⟩

/-! ### Functions -/

/-- The body of a function expression is at places between characters, in each of its three forms. -/
theorem expressionComplexity?_some (t : Text) (m : Match) (h : m.LiesBehind t.start) :
    ∃ n, expressionComplexity? t m.stop.offset = some n := by
  obtain ⟨header, hsplit, hstop, -⟩ := h.split
  have htake := Text.takeBytes?_width header m.stop.rest
  have hdrop := Text.dropBytes?_width header m.stop.rest
  rw [← hsplit, ← hstop] at htake hdrop
  rw [expressionComplexity?, htake, Option.bind_eq_bind, Option.bind_some]
  split
  · next hbrace =>
    obtain ⟨reversed, hreversed⟩ := Option.isSome_iff_exists.mp hbrace
    have hheader := congrArg List.reverse (Text.dropStart?_eq_some _ _ _ hreversed)
    rw [List.reverse_reverse, List.reverse_append] at hheader
    refine Match.OpensBlock.complexity ⟨reversed.reverse, m.stop.rest, ?_, ?_⟩
    · rw [hsplit, hheader, List.append_assoc]
      rfl
    · rw [hstop, hheader, Text.width_append]
      rfl
  · rw [hdrop, Option.bind_some]
    dsimp only
    split
    · next hbrace =>
      obtain ⟨rest, hrest⟩ := Option.isSome_iff_exists.mp hbrace
      have htrimmed := Text.dropStart?_eq_some _ _ _ hrest
      have hblank := List.takeWhile_append_dropWhile (p := isBlank) (l := m.stop.rest)
      have hwidth := congrArg Text.width hblank
      rw [Text.width_append] at hwidth
      have hopens : (⟨m.start, ⟨none, m.stop.offset + (m.stop.rest.width - m.stop.rest.trimStart.width) + 1,
          rest⟩, []⟩ : Match).OpensBlock t := by
        refine ⟨header ++ m.stop.rest.takeWhile isBlank, rest, ?_, ?_⟩
        · rw [List.append_assoc, ← List.singleton_append, ← htrimmed, Text.trimStart, hblank]
          exact hsplit
        · rw [Text.width_append, ← hstop, ← hwidth, Text.trimStart, Nat.add_sub_cancel]
      exact hopens.complexity
    · have hline := Text.takeBytes?_width (m.stop.rest.takeWhile (· != '\n'))
        (m.stop.rest.dropWhile (· != '\n'))
      rw [List.takeWhile_append_dropWhile] at hline
      rw [hline]
      exact ⟨_, rfl⟩

theorem functions?_some (t : Text) (lines : LineIndex) : ∃ fs, functions? t lines = some fs := by
  have hdeclared := mapM_exists (declaredAt? t lines) (functionDeclaration.findAll t) fun m hm => by
    have hopens := (scan_liesBehind _ _ t.start m hm).opensBlock (Regex.scan_char _ _ _ _ m hm)
    obtain ⟨n, hn⟩ := hopens.complexity
    rw [declaredAt?, functionOf?, annotatedParameters?_eq, openingBrace, hn]
    exact ⟨_, rfl⟩
  have hheld := mapM_exists (heldAt? t lines) (functionExpression.findAll t) fun m hm => by
    obtain ⟨n, hn⟩ := expressionComplexity?_some t m (scan_liesBehind _ _ t.start m hm)
    rw [heldAt?, functionOf?, annotatedParameters?_eq, hn]
    exact ⟨_, rfl⟩
  obtain ⟨declared, hdeclared⟩ := hdeclared
  obtain ⟨held, hheld⟩ := hheld
  rw [functions?, hdeclared, hheld]
  exact ⟨_, rfl⟩

/-! ### Descriptions -/

/-- A description is missing where a header cuts the last character of the text. -/
theorem describe?_eq_none (language : Language) (t : Text) :
    describe? language t = none ↔
      (∃ header ∈ classHeader.findAll t, header.CutsLast t) ∨
        language = .typeScript ∧ ∃ header ∈ interfaceHeader.findAll t, header.CutsLast t := by
  obtain ⟨functions, hfunctions⟩ := functions?_some t (.ofText t)
  rw [← classes?_eq_none t (.ofText t), ← interfaces?_eq_none t (.ofText t), describe?]
  cases classes? t (.ofText t) with
  | none => exact ⟨fun _ => Or.inl rfl, fun _ => rfl⟩
  | some classes =>
    rw [hfunctions]
    by_cases htypes : language = .typeScript
    · rw [if_pos htypes]
      cases interfaces? t (.ofText t) with
      | none => exact ⟨fun _ => Or.inr ⟨htypes, rfl⟩, fun _ => rfl⟩
      | some interfaces => simp
    · rw [if_neg htypes]
      simp [htypes]

/-- A text that ends in a character of one byte has a description. -/
theorem describe?_exists (language : Language) (t : Text) (h : ∀ c, t.getLast? = some c → c.utf8Size = 1) :
    ∃ d, describe? language t = some d := by
  have hcut : ∀ header : Match, ¬header.CutsLast t := by
    rintro header ⟨-, c, hc, hwide⟩
    rw [h c hc] at hwide
    exact absurd hwide (Nat.lt_irrefl 1)
  cases hd : describe? language t with
  | some d => exact ⟨d, rfl⟩
  | none =>
    obtain ⟨header, -, hheader⟩ | ⟨-, header, -, hheader⟩ := (describe?_eq_none language t).mp hd
    · exact absurd hheader (hcut header)
    · exact absurd hheader (hcut header)

theorem describe?_parts {language : Language} {t : Text} {d : Description} (h : describe? language t = some d) :
    (classHeader.findAll t).mapM (classOf? t (.ofText t)) = some d.classes ∧
      d.imports = imports t (.ofText t) := by
  simp only [describe?, Option.bind_eq_bind, Option.bind_eq_some_iff] at h
  obtain ⟨classes, hclasses, functions, -, interfaces, -, h⟩ := h
  rw [classes?, scan?_stop, Option.bind_eq_bind, Option.bind_some] at hclasses
  cases h
  exact ⟨hclasses, rfl⟩

/-! ### Lines -/

theorem constructorOf?_line (lines : LineIndex) (m : Match) (c : Constructor)
    (h : constructorOf? lines m = some c) : c.line = lines.lineNumber m.start.offset := by
  simp only [constructorOf?, Option.bind_eq_bind, Option.bind_eq_some_iff] at h
  obtain ⟨_, -, h⟩ := h
  cases h
  rfl

theorem methodOf?_line (t : Text) (lines : LineIndex) (m : Match) (x : Method)
    (h : methodOf? t lines m = some x) : x.line = lines.lineNumber (m.groupStart 4) := by
  simp only [methodOf?, Option.bind_eq_bind, Option.bind_eq_some_iff] at h
  obtain ⟨_, -, _, -, h⟩ := h
  cases h
  rfl

theorem propertyOf?_line (lines : LineIndex) (m : Match) (p : Property)
    (h : propertyOf? lines m = some p) : p.line = lines.lineNumber (m.groupStart 3) := by
  simp only [propertyOf?] at h
  split at h
  · cases h
  · cases h
    rfl

theorem interfacePropertyOf?_line (lines : LineIndex) (m : Match) (p : Property)
    (h : interfacePropertyOf? lines m = some p) : p.line = lines.lineNumber (m.groupStart 1) := by
  simp only [interfacePropertyOf?] at h
  split at h
  · cases h
  · split at h
    · cases h
    · cases h
      rfl

theorem functionOf?_line (lines : LineIndex) (m : Match) (parameters : Text)
    (complexity : Option UInt32) (f : FunctionDecl) (h : functionOf? lines m parameters complexity = some f) :
    f.line = lines.lineNumber m.start.offset := by
  simp only [functionOf?, Option.bind_eq_bind, Option.bind_eq_some_iff] at h
  obtain ⟨_, -, _, -, h⟩ := h
  cases h
  rfl

/-- A function with the offset of its match reports the line of the offset. -/
theorem functionAt_line (lines : LineIndex) (m : Match) (parameters : Text) (complexity : Option UInt32)
    (f : Nat × FunctionDecl)
    (h : (functionOf? lines m parameters complexity).map (m.start.offset, ·) = some f) :
    f.2.line = lines.lineNumber f.1 := by
  obtain ⟨d, hd, rfl⟩ := Option.map_eq_some_iff.mp h
  exact functionOf?_line lines m _ _ d hd

section

variable {t : Text} (hsize : t.width < bound63)

include hsize

theorem withMembers?_ordersLines (body : Cursor) (c c' : ClassDecl)
    (h : withMembers? t (.ofText t) body c = some c') : c'.line = c.line ∧ c'.OrdersLines t := by
  simp only [withMembers?, Option.bind_eq_bind, Option.bind_eq_some_iff] at h
  obtain ⟨constructors, hconstructors, methods, hmethods, h⟩ := h
  cases h
  refine ⟨rfl, ?_, ?_, ?_⟩
  · rw [lines_mapM _ Method.line _ (methodOf?_line t (.ofText t)) _ _ hmethods]
    exact (ordersLines_groups hsize methodHeader body 4).sublist (List.filter_sublist.map _)
  · exact (ordersLines_groups hsize property body 3).sublist
      ((lines_filterMap _ Property.line _ (propertyOf?_line (.ofText t)) _).trans
        (List.filter_sublist.map _))
  · rw [lines_mapM _ Constructor.line _ (constructorOf?_line (.ofText t)) _ _ hconstructors]
    exact ordersLines_starts hsize constructorHeader body

theorem classOf?_ordersLines (header : Match) (c : ClassDecl)
    (h : classOf? t (.ofText t) header = some c) :
    c.line = (LineIndex.ofText t).lineNumber header.start.offset ∧ c.OrdersLines t := by
  obtain ⟨body, -, h⟩ := Option.bind_eq_some_iff.mp h
  exact withMembers?_ordersLines hsize body _ c h

theorem interfaceOf?_ordersLines (header : Match) (i : InterfaceDecl)
    (h : interfaceOf? t (.ofText t) header = some i) :
    i.line = (LineIndex.ofText t).lineNumber header.start.offset ∧
      t.OrdersLines (i.properties.map (·.line)) := by
  obtain ⟨body, -, rfl⟩ := Option.map_eq_some_iff.mp h
  refine ⟨rfl, ?_⟩
  exact (ordersLines_groups hsize interfaceProperty body 1).sublist
    (lines_filterMap _ Property.line _ (interfacePropertyOf?_line (.ofText t)) _)

theorem functions?_ordersLines (functions : List FunctionDecl)
    (h : functions? t (.ofText t) = some functions) : t.OrdersLines (functions.map (·.line)) := by
  simp only [functions?, Option.bind_eq_bind, Option.bind_eq_some_iff] at h
  obtain ⟨declared, hdeclared, held, hheld, h⟩ := h
  cases h
  refine ordersLines_sorted hsize _ _ fun f hf => ?_
  rcases List.mem_append.mp hf with hf | hf
  · obtain ⟨m, -, hm⟩ := mapM_mem _ _ _ hdeclared f hf
    exact functionAt_line _ m _ _ f hm
  · obtain ⟨m, -, hm⟩ := mapM_mem _ _ _ hheld f hf
    exact functionAt_line _ m _ _ f hm

theorem imports_ordersLines : t.OrdersLines ((imports t (.ofText t)).map (·.line)) := by
  refine ordersLines_sorted hsize _ _ fun f hf => ?_
  rcases List.mem_append.mp hf with hf | hf
  · rcases List.mem_append.mp hf with hf | hf
    · obtain ⟨m, -, rfl⟩ := List.mem_map.mp hf
      rfl
    · obtain ⟨m, -, rfl⟩ := List.mem_map.mp hf
      rfl
  · obtain ⟨m, -, rfl⟩ := List.mem_map.mp hf
    rfl

theorem exports_ordersLines : t.OrdersLines ((exports t (.ofText t)).map (·.line)) := by
  refine ordersLines_sorted hsize _ _ fun f hf => ?_
  simp only [List.mem_append, List.mem_map, List.mem_flatMap] at hf
  rcases hf with ((⟨m, -, rfl⟩ | ⟨m, -, name, -, rfl⟩) | ⟨m, -, rfl⟩) | ⟨m, -, rfl⟩
  · rfl
  · rfl
  · rfl
  · split <;> rfl

theorem classes?_ordersLines (classes : List ClassDecl) (h : classes? t (.ofText t) = some classes) :
    t.OrdersLines (classes.map (·.line)) ∧ ∀ c ∈ classes, c.OrdersLines t := by
  rw [classes?, scan?_stop, Option.bind_eq_bind, Option.bind_some] at h
  exact mapM_ordersLines _ _ _ _ (classOf?_ordersLines hsize) _ (ordersLines_starts hsize classHeader t.start)
    classes h

theorem interfaces?_ordersLines (interfaces : List InterfaceDecl)
    (h : interfaces? t (.ofText t) = some interfaces) :
    t.OrdersLines (interfaces.map (·.line)) ∧
      ∀ i ∈ interfaces, t.OrdersLines (i.properties.map (·.line)) :=
  mapM_ordersLines _ _ _ _ (interfaceOf?_ordersLines hsize) _
    (ordersLines_starts hsize interfaceHeader t.start) interfaces h

theorem describe?_ordersLines (language : Language) (d : Description)
    (h : describe? language t = some d) : d.OrdersLines t ∧ t.OrdersLines (d.functions.map (·.line)) := by
  simp only [describe?, Option.bind_eq_bind, Option.bind_eq_some_iff] at h
  obtain ⟨classes, hclasses, functions, hfunctions, interfaces, hinterfaces, h⟩ := h
  cases h
  obtain ⟨hclasses, hmembers⟩ := classes?_ordersLines hsize classes hclasses
  have hfunctions := functions?_ordersLines hsize functions hfunctions
  obtain ⟨hinterfaces, hfields⟩ : t.OrdersLines (interfaces.map (·.line)) ∧
      ∀ i ∈ interfaces, t.OrdersLines (i.properties.map (·.line)) := by
    split at hinterfaces
    · exact interfaces?_ordersLines hsize interfaces hinterfaces
    · cases hinterfaces
      exact ⟨.nil t, fun i hi => nomatch hi⟩
  exact ⟨
    { classes := hclasses
      members := hmembers
      functions := fun f hf => hfunctions.within _ (List.mem_map_of_mem hf)
      imports := imports_ordersLines hsize
      exports := exports_ordersLines hsize
      interfaces := hinterfaces
      fields := hfields
      includes := .nil t
      structures := .nil t }, hfunctions⟩

end

end CodeIndex.JavaScript
