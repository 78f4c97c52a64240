import CodeIndex.Regex.Scan
import CodeIndex.Structure.ParameterList
import CodeIndex.Text.Brace
import CodeIndex.Text.Complexity
import CodeIndex.Text.LineIndex

/-!
# Rule sets

A rule set finds the structure of the texts of some languages by ordered regular expressions. The
rule sets for languages with braces take the body of a class from its block, mask what is nested in
it and look for members there; positions in a masked body are positions of the whole text.
-/

namespace CodeIndex

/-! ### Errors -/

/-- Why no structure was extracted. -/
inductive ExtractError where
  /-- The rules gave up, for the given reason. -/
  | failed (language : Language) (reason : String)
  /-- A rule set was asked for a language that it does not serve. -/
  | wrongLanguage (ruleSet : String) (requested : Language)
  deriving DecidableEq, Repr

/-- The text of an extraction error. -/
def ExtractError.message : ExtractError → String
  | .failed language reason =>
    "Failed to extract structure from " ++ language.tag ++ " source: " ++ reason
      ++ "\nSuggestion: The file may use syntax the textual rules cannot follow; "
      ++ "it is skipped during bulk scans"
  | .wrongLanguage ruleSet requested =>
    "Extractor for " ++ ruleSet ++ " was asked to handle " ++ requested.tag

/-- A named set of rules and the languages it serves. -/
structure RuleSet where
  name : String
  languages : List Language
  servesAll : Bool := false
  rules : Language → Text → Except ExtractError Description

/-- The description that rules found, or the error of rules that cut the text inside a character. -/
def foundOrCut (ruleSet : String) (language : Language) :
    Option Description → Except ExtractError Description
  | some d => .ok d
  | none => .error (.failed language (ruleSet ++ " rules panicked: <panic>"))

/-- The structure of a text in a language that the rule set serves. -/
def RuleSet.extract (ruleSet : RuleSet) (language : Language) (t : Text) :
    Except ExtractError Description :=
  if ruleSet.servesAll || ruleSet.languages.contains language then ruleSet.rules language t
  else .error (.wrongLanguage ruleSet.name language)

/-! ### Bodies -/

/-- The place of the last character of a header that ends in an opening brace. -/
def openingBrace (header : Match) : Nat :=
  header.stop.offset - 1

/-- The masked body behind a header that ends in an opening brace. The byte before the end of the
block is left out, and there is no body when that byte is inside a character. -/
def maskedBody? (t : Text) (header : Match) : Option Cursor :=
  let start := openingBrace header + 1
  let stop := max ((balancedBlock t (openingBrace header)).2 - 1) start
  (t.slice? start stop).map fun body => ⟨none, start, maskNested body⟩

/-- The complexity of the block that opens at a place. -/
def blockComplexity? (t : Text) (start : Nat) : Option UInt32 :=
  (blockText? t start).map fun block => .ofNat (complexity block)

/-- The complexity of what a match declares: that of its block, or 1 without a block. -/
def declaredComplexity? (t : Text) (m : Match) : Option UInt32 :=
  if m.stop.before = some '{' then blockComplexity? t (m.stop.offset - 1) else some 1

/-! ### Matches -/

/-- Whether two matches have a place in common. -/
def Match.overlaps (a b : Match) : Bool :=
  a.start.offset < b.stop.offset && b.start.offset < a.stop.offset

/-- Whether a match has a place in common with one of several. -/
def Match.overlapsAny (m : Match) (claimed : List Match) : Bool :=
  claimed.any m.overlaps

/-- The text of a group as a string, if the group took part in the match. -/
def Match.string? (m : Match) (label : Nat) : Option String :=
  (m.group? label).map String.ofList

/-- The text of a group as a string, empty if the group took no part. -/
def Match.string (m : Match) (label : Nat) : String :=
  String.ofList (m.group label)

/-- The trimmed text of a group, unless nothing is left or the group took no part. -/
def Match.trimmed? (m : Match) (label : Nat) : Option String :=
  (m.group? label).bind nonEmptyString?

/-- Items with the offsets where they were found, in the order of the offsets; items found at one
offset keep their order. -/
def inSourceOrder {α : Type} (found : List (Nat × α)) : List α :=
  (found.mergeSort fun a b => a.1 ≤ b.1).map (·.2)

/-- A text as a list of strings split by commas. -/
def commaStrings (t : Text) : List String :=
  t.commaList.map String.ofList

end CodeIndex
