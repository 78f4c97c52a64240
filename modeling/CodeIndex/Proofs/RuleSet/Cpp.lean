import CodeIndex.Proofs.RuleSet.Lines
import CodeIndex.RuleSet.Cpp

/-!
# Texts that the C and C++ rules read

The scan for functions resumes behind a class, behind the block of a function or behind a declaration,
and never past the end of the text. The blocks of members and functions are at places between characters.
-/

namespace CodeIndex.Cpp

open Regex

/-! ### Classes -/

theorem baseTypes?_some (list : Text) : ∃ bases, baseTypes? list = some bases := by
  rw [baseTypes?, splitTopLevel?_eq]
  exact ⟨_, rfl⟩

theorem constructorOf?_some (lines : LineIndex) (m : Match) : ∃ c, constructorOf? lines m = some c := by
  rw [constructorOf?, typedParameters?_eq]
  exact ⟨_, rfl⟩

theorem methodOf?_some (t : Text) (lines : LineIndex) (access : Nat → Visibility) (body : Cursor)
    (hbody : body.MasksPart t) (m : Match) (h : m.LiesBehind body) :
    ∃ x, methodOf? t lines access m = some x := by
  obtain ⟨n, hn⟩ := hbody.declaredComplexity h
  rw [methodOf?, typedParameters?_eq, hn]
  exact ⟨_, rfl⟩

theorem withMembers?_some (t : Text) (lines : LineIndex) (body : Cursor) (hbody : body.MasksPart t)
    (default : Visibility) (c : ClassDecl) :
    ∃ c', withMembers? t lines body default c = some c' := by
  have hconstructors := mapM_exists (constructorOf? lines)
    (((methodDeclaration.findAllFrom body).filter declaresMethod).filter (isConstructor c.name))
    fun m _ => constructorOf?_some lines m
  have hmethods := mapM_exists (methodOf? t lines (accessAt (accessLabels body) default))
    (((methodDeclaration.findAllFrom body).filter declaresMethod).filter (!isConstructor c.name ·))
    fun m hm => methodOf?_some t lines _ body hbody m
      (scan_liesBehind _ _ body m (List.mem_filter.mp (List.mem_filter.mp hm).1).1)
  obtain ⟨constructors, hconstructors⟩ := hconstructors
  obtain ⟨methods, hmethods⟩ := hmethods
  rw [withMembers?, hconstructors, hmethods]
  exact ⟨_, rfl⟩

theorem classes_eq_none (t : Text) (lines : LineIndex) :
    (classHeader.findAll t).mapM (classOf? t lines) = none ↔
      ∃ header ∈ classHeader.findAll t, header.CutsLast t := by
  refine bodies_eq_none _ t _ fun header body hbody => ?_
  obtain ⟨bases, hbases⟩ := baseTypes?_some (header.group 5)
  rw [hbases]
  exact withMembers?_some t lines body hbody _ _

/-! ### Functions -/

theorem hasBody_opens (t : Text) (classes : List (Nat × Nat)) (m : Match)
    (h : m ∈ functionDeclaration.scan (resumeAfter classes t) t.start) (hbody : hasBody m = true) :
    m.OpensBlock t := by
  obtain ⟨c, hlast, hgroup⟩ := Regex.scan_lastGroup _ _ _ _ t.start m h
  rw [hasBody, hgroup, beq_iff_eq, List.singleton_inj] at hbody
  subst hbody
  exact (scan_liesBehind _ _ t.start m h).opensBlock hlast

/-- The scan for functions never resumes past the end of the text. -/
theorem resumeAfter_le (t : Text) (classes : List (Nat × Nat))
    (hclasses : ∀ range ∈ classes, range.2 ≤ t.width) (m : Match)
    (h : m ∈ functionDeclaration.scan (resumeAfter classes t) t.start) :
    resumeAfter classes t m ≤ t.width := by
  rw [resumeAfter]
  split
  · next stop hholding =>
    have hstop := hclasses _ (List.mem_of_find?_eq_some hholding)
    have hheld := List.find?_some hholding
    simp only [Bool.and_eq_true, decide_eq_true_eq] at hheld
    simp only at hstop
    omega
  · rw [functionEnd]
    split
    · next hbody => exact (hasBody_opens t classes m h hbody).end_le
    · exact (scan_liesBehind _ _ t.start m h).stop_le_width

theorem functions?_some (t : Text) (lines : LineIndex) (classes : List (Nat × Nat))
    (hclasses : ∀ range ∈ classes, range.2 ≤ t.width) :
    ∃ fs, functions? classes t lines = some fs := by
  rw [functions?, Regex.scan?_eq _ _ t fun m hm => resumeAfter_le t classes hclasses m hm,
    Option.bind_eq_bind, Option.bind_some]
  refine mapM_exists _ _ fun m hm => ?_
  have hfound := (List.mem_filter.mp hm).1
  obtain ⟨n, hn⟩ : ∃ n, functionComplexity? t m = some n := by
    rw [functionComplexity?]
    split
    · next hbody => exact (hasBody_opens t classes m hfound hbody).complexity
    · exact ⟨1, rfl⟩
  rw [functionOf?, typedParameters?_eq, hn]
  exact ⟨_, rfl⟩

/-! ### Descriptions -/

theorem classRange_le (t : Text) (range : Nat × Nat)
    (h : range ∈ (classHeader.findAll t).map (classRange t)) : range.2 ≤ t.width := by
  obtain ⟨header, hheader, rfl⟩ := List.mem_map.mp h
  have hlies := scan_liesBehind _ _ t.start header hheader
  exact (hlies.opensBlock (Regex.scan_char _ _ _ _ header hheader)).end_le

/-- A description is missing where a header cuts the last character of the text. -/
theorem describe?_eq_none (language : Language) (t : Text) :
    describe? language t = none ↔ ∃ header ∈ classHeader.findAll t, header.CutsLast t := by
  obtain ⟨functions, hfunctions⟩ := functions?_some t (.ofText t) _ (classRange_le t)
  rw [← classes_eq_none t (.ofText t), describe?, scan?_stop, Option.bind_eq_bind, Option.bind_some, hfunctions]
  cases (classHeader.findAll t).mapM (classOf? t (.ofText t)) with
  | none => exact ⟨fun _ => rfl, fun _ => rfl⟩
  | some classes => exact ⟨fun h => (by cases h), fun h => (by cases h)⟩

/-! ### Lines -/

theorem constructorOf?_line (lines : LineIndex) (m : Match) (c : Constructor)
    (h : constructorOf? lines m = some c) : c.line = lines.lineNumber (m.groupStart 3) := by
  simp only [constructorOf?, Option.bind_eq_bind, Option.bind_eq_some_iff] at h
  obtain ⟨_, -, h⟩ := h
  cases h
  rfl

theorem methodOf?_line (t : Text) (lines : LineIndex) (access : Nat → Visibility) (m : Match)
    (x : Method) (h : methodOf? t lines access m = some x) :
    x.line = lines.lineNumber (m.groupStart 3) := by
  simp only [methodOf?, Option.bind_eq_bind, Option.bind_eq_some_iff] at h
  obtain ⟨_, -, _, -, h⟩ := h
  cases h
  rfl

theorem functionOf?_line (t : Text) (lines : LineIndex) (m : Match) (f : FunctionDecl)
    (h : functionOf? t lines m = some f) : f.line = lines.lineNumber m.start.offset := by
  simp only [functionOf?, Option.bind_eq_bind, Option.bind_eq_some_iff] at h
  obtain ⟨_, -, _, -, h⟩ := h
  cases h
  rfl

section

variable {t : Text} (hsize : t.width < bound63)

include hsize

theorem withMembers?_ordersLines (body : Cursor) (default : Visibility) (c c' : ClassDecl)
    (h : withMembers? t (.ofText t) body default c = some c') :
    c'.line = c.line ∧ c'.OrdersLines t := by
  simp only [withMembers?, Option.bind_eq_bind, Option.bind_eq_some_iff] at h
  obtain ⟨constructors, hconstructors, methods, hmethods, h⟩ := h
  cases h
  have hdeclared := ordersLines_groups hsize methodDeclaration body 3
  refine ⟨rfl, ?_, ?_, ?_⟩
  · rw [lines_mapM _ Method.line _ (methodOf?_line t (.ofText t) _) _ _ hmethods]
    exact hdeclared.sublist ((List.filter_sublist.trans List.filter_sublist).map _)
  · rw [List.map_map]
    exact (ordersLines_groups hsize dataMember body 4).sublist (List.filter_sublist.map _)
  · rw [lines_mapM _ Constructor.line _ (constructorOf?_line (.ofText t)) _ _ hconstructors]
    exact hdeclared.sublist ((List.filter_sublist.trans List.filter_sublist).map _)

theorem classOf?_ordersLines (header : Match) (c : ClassDecl)
    (h : classOf? t (.ofText t) header = some c) :
    c.line = (LineIndex.ofText t).lineNumber header.start.offset ∧ c.OrdersLines t := by
  simp only [classOf?, Option.bind_eq_bind, Option.bind_eq_some_iff] at h
  obtain ⟨body, -, bases, -, h⟩ := h
  exact withMembers?_ordersLines hsize body _ _ c h

theorem functions?_ordersLines (classes : List (Nat × Nat)) (functions : List FunctionDecl)
    (h : functions? classes t (.ofText t) = some functions) :
    t.OrdersLines (functions.map (·.line)) := by
  simp only [functions?, Option.bind_eq_bind, Option.bind_eq_some_iff] at h
  obtain ⟨found, hfound, h⟩ := h
  rw [lines_mapM _ FunctionDecl.line _ (functionOf?_line t (.ofText t)) _ _ h]
  rw [scan?] at hfound
  split at hfound
  · cases hfound
    have hsorted := functionDeclaration.scan_sorted (resumeAfter classes t) t.start
    have hplaces := ordersLines_places hsize _
      (hsorted.map (fun m => m.start.offset) fun _ _ h => Nat.le_of_lt h.1)
    rw [List.map_map] at hplaces
    exact hplaces.sublist (List.filter_sublist.map _)
  · cases hfound

theorem describe?_ordersLines (language : Language) (d : Description)
    (h : describe? language t = some d) : d.OrdersLines t ∧ t.OrdersLines (d.functions.map (·.line)) := by
  simp only [describe?, scan?_stop, Option.bind_eq_bind, Option.bind_some, Option.bind_eq_some_iff] at h
  obtain ⟨classes, hclasses, functions, hfunctions, h⟩ := h
  cases h
  have hfunctions := functions?_ordersLines hsize _ functions hfunctions
  have hincludes : t.OrdersLines (((includeDirective.findAll t).map (includeOf (.ofText t))).map (·.line)) := by
    rw [List.map_map]
    exact ordersLines_starts hsize includeDirective t.start
  obtain ⟨hclasses, hmembers⟩ := mapM_ordersLines _ _ _ _ (classOf?_ordersLines hsize) _
    (ordersLines_starts hsize classHeader t.start) classes hclasses
  refine ⟨
    { classes := hclasses
      members := hmembers
      functions := fun f hf => hfunctions.within _ (List.mem_map_of_mem hf)
      imports := ?_
      exports := .nil t
      interfaces := .nil t
      fields := fun i hi => nomatch hi
      includes := hincludes
      structures := .nil t }, hfunctions⟩
  rw [List.map_map]
  exact hincludes

end

end CodeIndex.Cpp
