import CodeIndex.Text.Basic

/-!
# White space

The white space of the rules is the Unicode property: the ASCII blanks from tab to carriage return,
the space, the next-line and no-break characters, and the spaces of the general punctuation block.
-/

namespace CodeIndex

/-- Whether a character is white space. -/
def isBlank (c : Char) : Bool :=
  let n := c.toNat
  (9 ≤ n && n ≤ 13) || n == 32 || n == 133 || n == 160 || n == 5760 || (8192 ≤ n && n ≤ 8202)
    || n == 8232 || n == 8233 || n == 8239 || n == 8287 || n == 12288

def isTabOrSpace (c : Char) : Bool :=
  c == ' ' || c == '\t'

namespace Text

/-- The text without its leading white space. -/
def trimStart (t : Text) : Text :=
  t.dropWhile isBlank

/-- The text without the trailing characters that satisfy `drops`. -/
def dropEndWhile (drops : Char → Bool) (t : Text) : Text :=
  (t.reverse.dropWhile drops).reverse

/-- The text without its trailing white space. -/
def trimEnd (t : Text) : Text :=
  t.dropEndWhile isBlank

/-- The text without the white space at both ends. -/
def trim (t : Text) : Text :=
  t.trimStart.trimEnd

/-- The trimmed text, unless nothing is left. -/
def nonEmpty? (t : Text) : Option Text :=
  if t.trim.isEmpty then none else some t.trim

/-- The words of a text: its longest runs without white space. -/
def words (t : Text) : List Text :=
  (t.splitOn isBlank).filter (!·.isEmpty)

/-- The trimmed non-empty pieces between the commas of a text. -/
def commaList (t : Text) : List Text :=
  ((t.splitOn (· == ',')).map trim).filter (!·.isEmpty)

end Text

end CodeIndex
