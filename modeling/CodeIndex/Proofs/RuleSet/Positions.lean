import CodeIndex.Proofs.RuleSet.Failure
import CodeIndex.Proofs.RuleSet.Generic

/-!
# Lines of descriptions

Every rule set reports its items on lines of the text, in an order in which the lines never decrease; the
generic rules list the functions that are called behind those that are declared.
-/

namespace CodeIndex

theorem foundOrCut_eq_ok (ruleSet : String) (language : Language) (found : Option Description)
    (d : Description) (h : foundOrCut ruleSet language found = .ok d) : found = some d := by
  cases found with
  | none => cases h
  | some found =>
    cases h
    rfl

/-- Whatever extraction describes is on lines of the text, and the lines of no list decrease, those of the
functions by the generic rules apart. A text in memory has less than 2^63 bytes, so that the number of a
line is a word. -/
theorem extract_orders_lines (language : Language) (t : Text) (hsize : t.width < bound63)
    (d : Description) (h : Registry.standard.extract language t = .ok d) :
    d.OrdersLines t ∧
      (Registry.standard.hasEntry language = true → t.OrdersLines (d.functions.map (·.line))) := by
  have hall : d.OrdersLines t ∧ t.OrdersLines (d.functions.map (·.line)) →
      d.OrdersLines t ∧
        (Registry.standard.hasEntry language = true → t.OrdersLines (d.functions.map (·.line))) :=
    fun hd => ⟨hd.1, fun _ => hd.2⟩
  cases language with
  | javaScript =>
    exact hall (JavaScript.describe?_ordersLines hsize .javaScript d
      (foundOrCut_eq_ok "javascript" .javaScript _ d h))
  | typeScript =>
    exact hall (JavaScript.describe?_ordersLines hsize .typeScript d
      (foundOrCut_eq_ok "javascript" .typeScript _ d h))
  | python => exact hall (Python.describe?_ordersLines hsize .python d (foundOrCut_eq_ok "python" .python _ d h))
  | cpp => exact hall (Cpp.describe?_ordersLines hsize .cpp d (foundOrCut_eq_ok "cpp" .cpp _ d h))
  | c => exact hall (Cpp.describe?_ordersLines hsize .c d (foundOrCut_eq_ok "cpp" .c _ d h))
  | java => exact hall (Java.describe?_ordersLines hsize .java d (foundOrCut_eq_ok "java" .java _ d h))
  | go =>
    cases h
    exact ⟨Generic.describe_ordersLines .go t hsize, fun h => absurd h (by decide)⟩
  | rust =>
    cases h
    exact ⟨Generic.describe_ordersLines .rust t hsize, fun h => absurd h (by decide)⟩
  | generic =>
    cases h
    exact ⟨Generic.describe_ordersLines .generic t hsize, fun h => absurd h (by decide)⟩

theorem extract_orders_lines_imports :
    Text.width "import a;\nimport b;".toList < bound63 ∧
      ∃ d, Registry.standard.extract .java "import a;\nimport b;".toList = .ok d ∧
        d.imports.map (·.line) = [1, 2] ∧ d.OrdersLines "import a;\nimport b;".toList := by
  have hsize : Text.width "import a;\nimport b;".toList < bound63 := by decide +kernel
  have hlines : (Registry.standard.extract .java "import a;\nimport b;".toList).map
      (fun d => d.imports.map (·.line)) = .ok [1, 2] := by decide +kernel
  cases hd : Registry.standard.extract .java "import a;\nimport b;".toList with
  | error e =>
    rw [hd] at hlines
    cases hlines
  | ok d =>
    rw [hd] at hlines
    exact ⟨hsize, d, rfl, Except.ok.inj hlines, (extract_orders_lines .java _ hsize d hd).1⟩

end CodeIndex
