import CodeIndex.RuleSet.Cpp
import CodeIndex.RuleSet.Generic
import CodeIndex.RuleSet.Java
import CodeIndex.RuleSet.JavaScript
import CodeIndex.RuleSet.Python

/-!
# The registry of rule sets

Which rule set serves which language. A language without an entry goes to the generic rules, so
every language is served.
-/

namespace CodeIndex

/-- The rule set of each language with an entry; the first entry of a language counts. -/
structure Registry where
  entries : List (Language × RuleSet)

namespace Registry

/-- The registry without entries. -/
def empty : Registry := ⟨[]⟩

/-- The registry with a rule set in the place of what served its languages. -/
def register (registry : Registry) (ruleSet : RuleSet) : Registry :=
  ⟨ruleSet.languages.map (·, ruleSet) ++ registry.entries⟩

/-- The registry with every rule set of the library. -/
def standard : Registry :=
  [JavaScript.ruleSet, Python.ruleSet, Cpp.ruleSet, Java.ruleSet].foldl register empty

def hasEntry (registry : Registry) (language : Language) : Bool :=
  (registry.entries.lookup language).isSome

/-- The rule set that serves a language. -/
def ruleSetOf (registry : Registry) (language : Language) : RuleSet :=
  (registry.entries.lookup language).getD Generic.ruleSet

/-- The structure of a text, by the rule set of its language. -/
def extract (registry : Registry) (language : Language) (t : Text) :
    Except ExtractError Description :=
  (registry.ruleSetOf language).extract language t

end Registry

end CodeIndex
