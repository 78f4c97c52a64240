import CodeIndex.Number.Bound
import CodeIndex.Number.Single
import CodeIndex.Regex.Scan
import CodeIndex.Text.Case

/-!
# Feature vectors

A text is counted in three blocks: language constructs with the density of functions and classes,
the share of each word of a vocabulary among its words, and its layout. Counts go through the
logarithm of one more than the count.
-/

namespace CodeIndex

open Regex

/-! ### Constructs -/

/-- A keyword, blanks and a word. -/
def keywordThenWord (keyword : String) : Regex := lit keyword ++ blanks1 ++ word

/-- A keyword, optional blanks and a character. -/
def keywordThen (keyword : String) (c : Char) : Regex := lit keyword ++ blanks ++ char c

def keywordThenBlank (keyword : String) : Regex := lit keyword ++ blanks1

/-- The counted constructs; the first two are functions and classes. -/
def constructs : List Regex :=
  ["function", "class", "const", "let", "var"].map keywordThenWord
    ++ [keywordThen "if" '(', keywordThen "for" '(', keywordThen "while" '(', keywordThen "try" '{',
      keywordThen "catch" '(', keywordThen "require" '(']
    ++ ["import", "export", "async", "await", "throw"].map keywordThenBlank
    ++ [lit "console.log", lit "console.error"]

/-- The number of lines of a text: one more than its line feeds. -/
def lineCount (t : Text) : Nat :=
  t.count '\n' + 1

/-- The construct counts, and the functions and classes per line. -/
def constructFeatures (t : Text) : List Single :=
  let counts := constructs.map fun r => Single.ofNat (r.count t).toNat
  let lines := Single.ofNat (lineCount t)
  counts.map Single.logOnePlus ++ (counts.take 2).map (· / lines)

/-! ### Vocabulary -/

/-- The counted words. -/
def vocabulary : List String :=
  ["function", "return", "const", "let", "var", "if", "else", "for", "while", "try", "catch",
    "throw", "async", "await", "class", "extends", "constructor", "require", "import", "export",
    "module", "error", "data", "result", "response"]

/-- The words of the lower-case text: runs of two or more ASCII letters and digits. -/
def plainWords (t : Text) : List Text :=
  (t.lower.splitOn (!Char.isAlphanum ·)).filter fun w => 1 < w.length

/-- The share of each word of the vocabulary. -/
def vocabularyFeatures (t : Text) : List Single :=
  let words := plainWords t
  vocabulary.map fun term =>
    if words.isEmpty then .zero
    else Single.ofNat (words.count term.toList) / Single.ofNat words.length

/-! ### Layout -/

/-- The lines between the line feeds of a text. -/
def splitLines (t : Text) : List Text :=
  t.splitOn (· == '\n')

/-- The widths of the indentations of the indented lines. -/
def indentWidths (lines : List Text) : List Nat :=
  (lines.map fun line => Text.width (line.takeWhile isBlank)).filter (0 < ·)

/-- The mean indentation of the indented lines. -/
def meanIndent (lines : List Text) : Single :=
  let widths := indentWidths lines
  if widths.isEmpty then .zero else Single.ofNat (total widths) / Single.ofNat widths.length

/-- The number of lines and bytes, the shares of blank and comment lines, the mean indentation, and
the numbers of opening brackets. -/
def layoutFeatures (t : Text) : List Single :=
  let lines := splitLines t
  let count := Single.ofNat (lineCount t)
  let blank := Single.ofNat (lines.countP fun line => line.all isBlank)
  let comments := Single.ofNat (lines.countP fun line => line.trimStart.startsWith ['/', '/'])
  [count.logOnePlus, (Single.ofNat t.width).logOnePlus, blank / count, comments / count,
    (meanIndent lines).logOnePlus]
    ++ ['{', '(', '['].map fun c => (Single.ofNat (t.count c)).logOnePlus

/-! ### The vector -/

/-- The feature vector of a text. -/
def features (t : Text) : List Single :=
  constructFeatures t ++ vocabularyFeatures t ++ layoutFeatures t

end CodeIndex
