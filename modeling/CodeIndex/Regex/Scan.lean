import CodeIndex.Regex.Basic

/-!
# Scanning a text

A scan walks over the places of a text and tries an expression at each. After a match it goes on at
a place computed from the match, by default its end; characters before a place still count as what
precedes it.
-/

namespace CodeIndex

/-- A match: where it starts, where it stops, and its groups. -/
structure Match where
  start : Cursor
  stop : Cursor
  groups : List (Nat × Span)
  deriving DecidableEq, Repr, Inhabited

namespace Match

/-- The stretch of a group, if the group took part in the match. -/
def span? (m : Match) (label : Nat) : Option Span :=
  m.groups.lookup label

/-- The text of a group, if the group took part in the match. -/
def group? (m : Match) (label : Nat) : Option Text :=
  (m.span? label).map Span.text

/-- The text of a group, empty if the group took no part. -/
def group (m : Match) (label : Nat) : Text :=
  (m.group? label).getD []

/-- Whether a group took part in the match. -/
def has (m : Match) (label : Nat) : Bool :=
  (m.span? label).isSome

/-- The offset where a group starts; that of the match if the group took no part. -/
def groupStart (m : Match) (label : Nat) : Nat :=
  ((m.span? label).map (·.start.offset)).getD m.start.offset

def text (m : Match) : Text :=
  m.start.rest.takeBytes (m.stop.offset - m.start.offset)

end Match

namespace Regex

/-- The preferred match at a place. -/
def matchAt? (r : Regex) (fuel : Nat) (place : Cursor) : Option Match :=
  (r.attempt fuel ⟨place, []⟩ some).map fun p => ⟨place, p.place, p.groups⟩

/-- The matches from a place on that start at offset `resume` or later; after a match `m` the scan
resumes at `after m`. -/
def scanFrom (r : Regex) (after : Match → Nat) (fuel : Nat) (resume : Nat) (place : Cursor) :
    Text → List Match
  | [] => if place.offset < resume then [] else (r.matchAt? fuel place).toList
  | c :: rest =>
    if place.offset < resume then scanFrom r after fuel resume (place.past c rest) rest
    else
      match r.matchAt? fuel place with
      | some m => m :: scanFrom r after fuel (after m) (place.past c rest) rest
      | none => scanFrom r after fuel resume (place.past c rest) rest

/-- The matches from a place on, where the scan resumes at `after m` when it has found `m`. -/
def scan (r : Regex) (after : Match → Nat) (place : Cursor) : List Match :=
  r.scanFrom after place.rest.length 0 place place.rest

/-- The matches of a text, where the scan resumes at `after m` when it has found `m`; `none` if it
would resume past the end of the text. -/
def scan? (r : Regex) (after : Match → Nat) (t : Text) : Option (List Match) :=
  let found := r.scan after t.start
  if found.all fun m => after m ≤ t.width then some found else none

/-- The matches from a place on, each starting at or after the end of the one before. -/
def findAllFrom (r : Regex) (place : Cursor) : List Match :=
  r.scan (·.stop.offset) place

/-- The matches of a text from left to right, each starting at or after the end of the one before. -/
def findAll (r : Regex) (t : Text) : List Match :=
  r.findAllFrom t.start

/-- The number of matches of a text. -/
def count (r : Regex) (t : Text) : UInt64 :=
  .ofNat (r.findAll t).length

end Regex

end CodeIndex
