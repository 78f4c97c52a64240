import CodeIndex.Text.Basic
import CodeIndex.Text.Word

/-!
# Branch counts

The complexity of a piece of code is one more than its branches: the branch keywords that stand as
whole words, and the operators `&&`, `||` and `?`. A question mark before a dot or another question
mark is an access or a default and no branch.
-/

namespace CodeIndex

/-- The words of a code text: its longest runs of word characters. -/
def Text.wordRuns (t : Text) : List Text :=
  (t.splitOn (!isWord ·)).filter (!·.isEmpty)

/-- The number of words of a text that are one of the keywords. -/
def countKeywords (keywords : List String) (t : Text) : Nat :=
  t.wordRuns.countP (isOneOf keywords)

/-- The number of branch operators. -/
def countOperators : Text → Nat
  | '&' :: '&' :: rest => countOperators rest + 1
  | '|' :: '|' :: rest => countOperators rest + 1
  | '?' :: '.' :: rest => countOperators rest
  | '?' :: '?' :: rest => countOperators rest
  | '?' :: rest => countOperators rest + 1
  | _ :: rest => countOperators rest
  | [] => 0

/-- The keywords that open a branch in languages with braces. -/
def branchKeywords : List String :=
  ["if", "else", "for", "while", "switch", "case", "catch"]

/-- One more than the branches of a text. -/
def complexity (t : Text) : Nat :=
  1 + (countKeywords branchKeywords t + countOperators t)

/-- Words that look like calls or declarations and name no function. -/
def controlKeywords : List String :=
  ["if", "else", "for", "while", "do", "switch", "case", "catch", "try", "return", "new",
    "delete", "throw", "sizeof", "typeof", "function", "with", "elif", "except", "match",
    "using", "goto", "await", "yield", "super", "this"]

def isControlKeyword (word : Text) : Bool :=
  isOneOf controlKeywords word

end CodeIndex
