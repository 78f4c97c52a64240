import CodeIndex.Text.Blank
import CodeIndex.Text.Word

/-!
# Regular expressions

Expressions over characters with labelled groups, alternatives in order of preference, and
repetitions that prefer many or few rounds. A match is found by trying the preferences in order, so
the first success is the preferred match. Every round of a repetition has to consume a character;
`fuel` bounds the rounds, and the length of the text is always enough.
-/

namespace CodeIndex

/-! ### Places -/

/-- A place in a text: the character before it, its byte offset, and the characters from it on. -/
structure Cursor where
  before : Option Char
  offset : Nat
  rest : Text
  deriving DecidableEq, Repr, Inhabited

def Text.start (t : Text) : Cursor :=
  ⟨none, 0, t⟩

/-- The place after `c`, of which `rest` follows. -/
def Cursor.past (place : Cursor) (c : Char) (rest : Text) : Cursor :=
  ⟨some c, place.offset + c.utf8Size, rest⟩

/-- A stretch of a text: where it starts, and the offset where it stops. -/
structure Span where
  start : Cursor
  stop : Nat
  deriving DecidableEq, Repr, Inhabited

/-- The characters of a stretch. -/
def Span.text (s : Span) : Text :=
  s.start.rest.takeBytes (s.stop - s.start.offset)

/-- Where a match attempt stands: its place, and the groups closed so far, the latest first. -/
structure Progress where
  place : Cursor
  groups : List (Nat × Span)
  deriving DecidableEq, Repr, Inhabited

/-! ### Expressions -/

/-- A condition on a place. -/
inductive Anchor where
  | wordBoundary
  | lineStart
  | lineEnd
  deriving DecidableEq, Repr

/-- Whether a place satisfies an anchor. -/
def Anchor.holds (anchor : Anchor) (place : Cursor) : Bool :=
  match anchor with
  | .wordBoundary => place.before.any isWord != place.rest.head?.any isWord
  | .lineStart => place.before.all (· == '\n')
  | .lineEnd => place.rest.head?.all (· == '\n')

/-- Whether a repetition prefers many rounds or few. -/
inductive Greed where
  | many
  | few
  deriving DecidableEq, Repr

/-- A regular expression. -/
inductive Regex where
  | empty
  /-- The given characters. -/
  | literal (text : Text)
  /-- One character of a class. -/
  | one (accepts : Char → Bool)
  /-- Any number of characters of a class. -/
  | run (greed : Greed) (accepts : Char → Bool)
  /-- All characters of a class that follow; none is given back. -/
  | all (accepts : Char → Bool)
  /-- One expression, then another. -/
  | seq (first second : Regex)
  /-- One expression, or else another. -/
  | alt (preferred other : Regex)
  /-- Any number of rounds of an expression, preferably many. -/
  | rounds (body : Regex)
  /-- An expression whose stretch is kept under a label. -/
  | group (label : Nat) (body : Regex)
  /-- A condition on the place. -/
  | anchor (anchor : Anchor)

namespace Regex

/-! ### Trying an expression -/

/-- The places after zero or more characters of a class, the farthest first, put before `nearer`. -/
def farthestFirst (accepts : Char → Bool) (nearer : List Cursor) (place : Cursor) :
    Text → List Cursor
  | [] => place :: nearer
  | c :: rest =>
    if accepts c then farthestFirst accepts (place :: nearer) (place.past c rest) rest
    else place :: nearer

/-- The place after all characters of a class that follow. -/
def pastAll (accepts : Char → Bool) (place : Cursor) : Text → Cursor
  | [] => place
  | c :: rest => if accepts c then pastAll accepts (place.past c rest) rest else place

/-- The first success of `next` at the places after zero or more characters of a class, the nearest
first. -/
def nearestFirst (accepts : Char → Bool) (next : Cursor → Option Progress) (place : Cursor) :
    Text → Option Progress
  | [] => next place
  | c :: rest =>
    match next place with
    | some done => some done
    | none =>
      if accepts c then nearestFirst accepts next (place.past c rest) rest else none

/-- The first success of `next` after zero or more rounds, many rounds first. -/
def tryRounds (round : Progress → (Progress → Option Progress) → Option Progress)
    (next : Progress → Option Progress) : (fuel : Nat) → Progress → Option Progress
  | 0, p => next p
  | fuel + 1, p =>
    let again := round p fun q =>
      if p.place.offset < q.place.offset then tryRounds round next fuel q else none
    match again with
    | some done => some done
    | none => next p

/-- The first success of `next` after the expression, in the order of its preferences. -/
def attempt (fuel : Nat) : Regex → Progress → (Progress → Option Progress) → Option Progress
  | .empty, p, next => next p
  | .literal text, p, next =>
    match Text.dropStart? text p.place.rest with
    | some rest =>
      let before := if text.isEmpty then p.place.before else text.getLast?
      next { p with place := ⟨before, p.place.offset + text.width, rest⟩ }
    | none => none
  | .one accepts, p, next =>
    match p.place.rest with
    | [] => none
    | c :: rest => if accepts c then next { p with place := p.place.past c rest } else none
  | .run .many accepts, p, next =>
    (farthestFirst accepts [] p.place p.place.rest).findSome? fun place =>
      next { p with place := place }
  | .run .few accepts, p, next =>
    nearestFirst accepts (fun place => next { p with place := place }) p.place p.place.rest
  | .all accepts, p, next => next { p with place := pastAll accepts p.place p.place.rest }
  | .seq first second, p, next => attempt fuel first p fun q => attempt fuel second q next
  | .alt preferred other, p, next =>
    match attempt fuel preferred p next with
    | some done => some done
    | none => attempt fuel other p next
  | .rounds body, p, next => tryRounds (attempt fuel body) next fuel p
  | .group label body, p, next =>
    attempt fuel body p fun q =>
      next { q with groups := (label, ⟨p.place, q.place.offset⟩) :: q.groups }
  | .anchor a, p, next => if a.holds p.place then next p else none

/-! ### Building expressions -/

instance : Append Regex := ⟨.seq⟩

def lit (s : String) : Regex := .literal s.toList

/-- An expression or nothing. -/
def opt (r : Regex) : Regex := .alt r .empty

/-- The first of several alternatives that succeeds. -/
def oneOf : List Regex → Regex
  | [] => .one fun _ => false
  | [r] => r
  | r :: rest => .alt r (oneOf rest)

/-- One of several words. -/
def words (list : List String) : Regex := oneOf (list.map lit)

/-- One or more characters of a class, preferably many. -/
def some1 (accepts : Char → Bool) : Regex := .one accepts ++ .run .many accepts

/-- One or more characters of a class, preferably few. -/
def few1 (accepts : Char → Bool) : Regex := .one accepts ++ .run .few accepts

/-- Any white space. -/
def blanks : Regex := .run .many isBlank

/-- Some white space. -/
def blanks1 : Regex := some1 isBlank

def word : Regex := some1 isWord

/-- A word up to its end. It stands for `word` where no word character can follow. -/
def wholeWord : Regex := .one isWord ++ .all isWord

def edge : Regex := .anchor .wordBoundary

/-- One given character. -/
def char (c : Char) : Regex := .one (· == c)

/-- One of several characters. -/
def oneIn (cs : List Char) : Regex := .one cs.contains

/-- Whether a character is none of several. -/
def noneOf (cs : List Char) : Char → Bool := fun c => !cs.contains c

/-- Whether a character is a word character or one of several. -/
def wordOr (cs : List Char) : Char → Bool := fun c => isWord c || cs.contains c

/-- Any number of characters of a class, preferably many. -/
def any (accepts : Char → Bool) : Regex := .run .many accepts

/-- Any number of characters other than `close` between `start` and `close`. -/
def enclosed (start close : Char) : Regex := char start ++ any (· != close) ++ char close

end Regex

end CodeIndex
