import CodeIndex.Proofs.RuleSet.Lines
import CodeIndex.RuleSet.Java

/-!
# Texts that the Java rules read

The bodies of classes and the blocks of their methods are all that is cut out of a text.
-/

namespace CodeIndex.Java

open Regex

theorem constructorOf?_some (lines : LineIndex) (m : Match) : ∃ c, constructorOf? lines m = some c := by
  rw [constructorOf?, typedParameters?_eq]
  exact ⟨_, rfl⟩

theorem methodOf?_some (t : Text) (lines : LineIndex) (body : Cursor) (hbody : body.MasksPart t)
    (m : Match) (h : m.LiesBehind body) : ∃ x, methodOf? t lines m = some x := by
  obtain ⟨n, hn⟩ := hbody.declaredComplexity h
  rw [methodOf?, typedParameters?_eq, hn]
  exact ⟨_, rfl⟩

theorem withMembers?_some (t : Text) (lines : LineIndex) (body : Cursor) (hbody : body.MasksPart t)
    (c : ClassDecl) : ∃ c', withMembers? t lines body c = some c' := by
  rw [withMembers?]
  obtain ⟨constructors, hconstructors⟩ := mapM_exists (constructorOf? lines)
    ((constructorHeader.findAllFrom body).filter (·.string 2 == c.name))
    fun m _ => constructorOf?_some lines m
  obtain ⟨methods, hmethods⟩ := mapM_exists (methodOf? t lines)
    ((methodDeclaration.findAllFrom body).filter fun m =>
      !m.overlapsAny ((constructorHeader.findAllFrom body).filter (·.string 2 == c.name)) &&
        !isOneOf notTypes (m.group 3) && !isControlKeyword (m.group 4))
    fun m hm => methodOf?_some t lines body hbody m
      (scan_liesBehind _ _ body m (List.mem_filter.mp hm).1)
  rw [hconstructors, hmethods]
  exact ⟨_, rfl⟩

theorem classes_eq_none (t : Text) (lines : LineIndex) :
    (classHeader.findAll t).mapM (classOf? t lines) = none ↔
      ∃ header ∈ classHeader.findAll t, header.CutsLast t :=
  bodies_eq_none _ t _ fun _ body hbody => withMembers?_some t lines body hbody _

/-- A description is missing where a header cuts the last character of the text. -/
theorem describe?_eq_none (language : Language) (t : Text) :
    describe? language t = none ↔ ∃ header ∈ classHeader.findAll t, header.CutsLast t := by
  rw [← classes_eq_none t (.ofText t), describe?, scan?_stop, Option.bind_eq_bind, Option.bind_some]
  cases (classHeader.findAll t).mapM (classOf? t (.ofText t)) with
  | none => exact ⟨fun _ => rfl, fun _ => rfl⟩
  | some classes => exact ⟨fun h => (by cases h), fun h => (by cases h)⟩

/-! ### Lines -/

theorem constructorOf?_line (lines : LineIndex) (m : Match) (c : Constructor)
    (h : constructorOf? lines m = some c) : c.line = lines.lineNumber (m.groupStart 2) := by
  simp only [constructorOf?, Option.bind_eq_bind, Option.bind_eq_some_iff] at h
  obtain ⟨_, -, h⟩ := h
  cases h
  rfl

theorem methodOf?_line (t : Text) (lines : LineIndex) (m : Match) (x : Method)
    (h : methodOf? t lines m = some x) : x.line = lines.lineNumber (m.groupStart 4) := by
  simp only [methodOf?, Option.bind_eq_bind, Option.bind_eq_some_iff] at h
  obtain ⟨_, -, _, -, h⟩ := h
  cases h
  rfl

section

variable {t : Text} (hsize : t.width < bound63)

include hsize

theorem withMembers?_ordersLines (body : Cursor) (c c' : ClassDecl)
    (h : withMembers? t (.ofText t) body c = some c') : c'.line = c.line ∧ c'.OrdersLines t := by
  simp only [withMembers?, Option.bind_eq_bind, Option.bind_eq_some_iff] at h
  obtain ⟨constructors, hconstructors, methods, hmethods, h⟩ := h
  cases h
  refine ⟨rfl, ?_, ?_, ?_⟩
  · rw [lines_mapM _ Method.line _ (methodOf?_line t (.ofText t)) _ _ hmethods]
    exact (ordersLines_groups hsize methodDeclaration body 4).sublist (List.filter_sublist.map _)
  · rw [List.map_map]
    exact (ordersLines_groups hsize fieldDeclaration body 3).sublist (List.filter_sublist.map _)
  · rw [lines_mapM _ Constructor.line _ (constructorOf?_line (.ofText t)) _ _ hconstructors]
    exact (ordersLines_groups hsize constructorHeader body 2).sublist (List.filter_sublist.map _)

theorem classOf?_ordersLines (header : Match) (c : ClassDecl)
    (h : classOf? t (.ofText t) header = some c) :
    c.line = (LineIndex.ofText t).lineNumber (header.groupStart 2) ∧ c.OrdersLines t := by
  obtain ⟨body, -, h⟩ := Option.bind_eq_some_iff.mp h
  exact withMembers?_ordersLines hsize body _ c h

theorem describe?_ordersLines (language : Language) (d : Description)
    (h : describe? language t = some d) : d.OrdersLines t ∧ t.OrdersLines (d.functions.map (·.line)) := by
  simp only [describe?, scan?_stop, Option.bind_eq_bind, Option.bind_some, Option.bind_eq_some_iff] at h
  obtain ⟨classes, hclasses, h⟩ := h
  cases h
  obtain ⟨hclasses, hmembers⟩ := mapM_ordersLines _ _ _ _ (classOf?_ordersLines hsize) _
    (ordersLines_groups hsize classHeader t.start 2) classes hclasses
  refine ⟨
    { classes := hclasses
      members := hmembers
      functions := fun f hf => nomatch hf
      imports := ?_
      exports := .nil t
      interfaces := ?_
      fields := fun i hi => ?_
      includes := .nil t
      structures := .nil t }, .nil t⟩
  · rw [List.map_map]
    exact ordersLines_starts hsize importDeclaration t.start
  · rw [List.map_map]
    exact ordersLines_starts hsize interfaceHeader t.start
  · obtain ⟨m, -, rfl⟩ := List.mem_map.mp hi
    exact .nil t

end

end CodeIndex.Java
