import CodeIndex.Proofs.RuleSet.Cpp
import CodeIndex.Proofs.RuleSet.Java
import CodeIndex.Proofs.RuleSet.JavaScript
import CodeIndex.Proofs.RuleSet.Python
import CodeIndex.RuleSet.Registry

/-!
# When extraction fails

A rule set fails in one way: it takes the body of a class, or of an interface of TypeScript, up to the byte
before the last, and that byte is inside the last character. Every other place where a rule set cuts a
text, and every place where a scan resumes, is between characters of the text.
-/

namespace CodeIndex

/-- The headers whose bodies the rules of a language take, in the order of the scans that find them. -/
def bodyHeaders (language : Language) (t : Text) : List Match :=
  match language with
  | .javaScript => JavaScript.classHeader.findAll t
  | .typeScript => JavaScript.classHeader.findAll t ++ JavaScript.interfaceHeader.findAll t
  | .c | .cpp => Cpp.classHeader.findAll t
  | .java => Java.classHeader.findAll t
  | _ => []

/-- A text in a language with braces that ends in a character of several bytes, and in which a header
opens a block that is never closed. -/
structure Language.Cuts (language : Language) (t : Text) : Prop where
  braces : language ∈ [.javaScript, .typeScript, .c, .cpp, .java]
  wide : ∃ c, t.getLast? = some c ∧ 1 < c.utf8Size
  unclosed : ∃ header ∈ bodyHeaders language t, header.stop.rest.LeavesOpen

theorem Language.cuts_iff (language : Language) (t : Text)
    (h : language ∈ [.javaScript, .typeScript, .c, .cpp, .java]) :
    language.Cuts t ↔ ∃ header ∈ bodyHeaders language t, header.CutsLast t := by
  constructor
  · rintro ⟨-, hwide, header, hheader, hopen⟩
    exact ⟨header, hheader, hopen, hwide⟩
  · rintro ⟨header, hheader, hopen, hwide⟩
    exact ⟨h, hwide, header, hheader, hopen⟩

theorem Language.not_cuts {language : Language} {t : Text} {c : Char} (hlast : t.getLast? = some c)
    (hone : c.utf8Size = 1) : ¬language.Cuts t := by
  rintro ⟨-, ⟨d, hd, hwide⟩, -⟩
  obtain rfl := Option.some.inj (hlast.symm.trans hd)
  omega

/-- What rules find, and the error of rules that find nothing. -/
theorem foundOrCut_cases (ruleSet : String) (language : Language) (found : Option Description) :
    found = none ∧ (∃ reason, foundOrCut ruleSet language found = .error (.failed language reason)) ∨
      found ≠ none ∧ ∃ d, foundOrCut ruleSet language found = .ok d := by
  cases found with
  | none => exact Or.inl ⟨rfl, _, rfl⟩
  | some d => exact Or.inr ⟨Option.some_ne_none d, d, rfl⟩

theorem foundOrCut_cuts (ruleSet : String) (language : Language) (t : Text)
    (found : Option Description) (h : language ∈ [.javaScript, .typeScript, .c, .cpp, .java])
    (hfound : found = none ↔ ∃ header ∈ bodyHeaders language t, header.CutsLast t) :
    language.Cuts t ∧ (∃ reason, foundOrCut ruleSet language found = .error (.failed language reason)) ∨
      ¬language.Cuts t ∧ ∃ d, foundOrCut ruleSet language found = .ok d := by
  rw [← language.cuts_iff t h] at hfound
  rw [← hfound]
  exact foundOrCut_cases ruleSet language found

/-- Extraction fails where a body would end inside the last character, and describes every other text. -/
theorem extract_fails_iff_cuts (language : Language) (t : Text) :
    language.Cuts t ∧ (∃ reason, Registry.standard.extract language t = .error (.failed language reason)) ∨
      ¬language.Cuts t ∧ ∃ d, Registry.standard.extract language t = .ok d := by
  cases language with
  | javaScript =>
    refine foundOrCut_cuts "javascript" .javaScript t (JavaScript.describe? .javaScript t) (by decide) ?_
    rw [JavaScript.describe?_eq_none]
    simp [bodyHeaders]
  | typeScript =>
    refine foundOrCut_cuts "javascript" .typeScript t (JavaScript.describe? .typeScript t) (by decide) ?_
    rw [JavaScript.describe?_eq_none]
    simp only [bodyHeaders, List.mem_append, or_and_right, exists_or, true_and]
  | cpp =>
    exact foundOrCut_cuts "cpp" .cpp t (Cpp.describe? .cpp t) (by decide) (Cpp.describe?_eq_none .cpp t)
  | c =>
    exact foundOrCut_cuts "cpp" .c t (Cpp.describe? .c t) (by decide) (Cpp.describe?_eq_none .c t)
  | java =>
    exact foundOrCut_cuts "java" .java t (Java.describe? .java t) (by decide)
      (Java.describe?_eq_none .java t)
  | python =>
    obtain ⟨d, hd⟩ := Python.describe?_some .python t
    have hextract : Registry.standard.extract .python t = foundOrCut "python" .python (Python.describe? .python t) :=
      rfl
    rw [hextract, hd]
    exact Or.inr ⟨fun h => absurd h.braces (by decide), d, rfl⟩
  | go => exact Or.inr ⟨fun h => absurd h.braces (by decide), _, rfl⟩
  | rust => exact Or.inr ⟨fun h => absurd h.braces (by decide), _, rfl⟩
  | generic => exact Or.inr ⟨fun h => absurd h.braces (by decide), _, rfl⟩

end CodeIndex
