import CodeIndex.Text.Basic

/-!
# Line numbers

The places of the line feeds of a text, in increasing order. The line of a place is one more than
the number of line feeds before it; halving the list finds that number.
-/

namespace CodeIndex

/-- The byte places of the line feeds of a text that starts at place `offset`. -/
def lineFeedsFrom (offset : Nat) : Text → List Nat
  | [] => []
  | c :: rest =>
    if c == '\n' then offset :: lineFeedsFrom (offset + c.utf8Size) rest
    else lineFeedsFrom (offset + c.utf8Size) rest

/-- The places of the line feeds of a text. -/
structure LineIndex where
  lineFeeds : Array Nat

namespace LineIndex

def ofText (t : Text) : LineIndex :=
  ⟨(lineFeedsFrom 0 t).toArray⟩

/-- The first index from `low` on, and at most `high`, whose line feed is not before `offset`. -/
def firstNotBefore (feeds : Array Nat) (offset low high : Nat) : Nat :=
  if low < high then
    let middle := (low + high) / 2
    if feeds.getD middle 0 < offset then firstNotBefore feeds offset (middle + 1) high
    else firstNotBefore feeds offset low middle
  else low
termination_by high - low

/-- The line, counted from 1, of the byte at `offset`. -/
def lineAt (index : LineIndex) (offset : Nat) : Nat :=
  firstNotBefore index.lineFeeds offset 0 index.lineFeeds.size + 1

/-- The line as a word. -/
def lineNumber (index : LineIndex) (offset : Nat) : UInt64 := .ofNat (index.lineAt offset)

end LineIndex

end CodeIndex
