import CodeIndex.Digest.Sha256

/-!
# Name patterns

A pattern describes paths in bytes: a question mark stands for one byte and a star for any number of
them, but for no slash; two stars between slashes stand for any number of directories; brackets hold a
class of bytes and braces a choice. A backslash takes the next character as it is. A pattern is turned
into the step lists of its choices, and a path matches when one of them spells it from end to end.
-/

namespace CodeIndex

/-! ### Steps -/

/-- A range of bytes, both ends included. -/
structure ByteRange where
  low : UInt8
  high : UInt8
  deriving DecidableEq, Repr

/-- One step of a pattern. -/
inductive GlobStep where
  | byte (b : UInt8)
  /-- One byte that is no slash. -/
  | one
  /-- Any bytes but slashes. -/
  | many
  /-- The start of a path, up to any slash. -/
  | fromStart
  /-- A slash and all that follows. -/
  | toEnd
  /-- A slash, with directories behind it or none. -/
  | between
  | ofClass (negated : Bool) (ranges : List ByteRange)
  deriving DecidableEq, Repr

/-- The byte of a slash. -/
def slash : UInt8 := 47

/-- Whether a class of bytes holds a byte. -/
def inClass (negated : Bool) (ranges : List ByteRange) (b : UInt8) : Bool :=
  negated != ranges.any fun r => r.low ≤ b && b ≤ r.high

/-- The rests of a path, the path itself first and the empty rest last. -/
def rests : List UInt8 → List (List UInt8)
  | [] => [[]]
  | b :: s => (b :: s) :: rests s

/-- The rests that start behind a slash. -/
def restsBehindSlash : List UInt8 → List (List UInt8)
  | [] => []
  | b :: s => if b = slash then s :: restsBehindSlash s else restsBehindSlash s

/-- The rests with no slash before them. -/
def restsWithinName : List UInt8 → List (List UInt8)
  | [] => [[]]
  | b :: s => if b = slash then [b :: s] else (b :: s) :: restsWithinName s

/-- Whether steps spell a path from end to end. -/
def stepsMatch : List GlobStep → List UInt8 → Bool
  | [], s => s.isEmpty
  | .byte b :: steps, c :: s => b == c && stepsMatch steps s
  | .byte _ :: _, [] => false
  | .one :: steps, c :: s => c != slash && stepsMatch steps s
  | .one :: _, [] => false
  | .ofClass negated ranges :: steps, c :: s => inClass negated ranges c && stepsMatch steps s
  | .ofClass _ _ :: _, [] => false
  | .many :: steps, s => (restsWithinName s).any (stepsMatch steps)
  | .fromStart :: steps, s => stepsMatch steps s || (restsBehindSlash s).any (stepsMatch steps)
  | .between :: steps, c :: s =>
    c == slash && (stepsMatch steps s || (restsBehindSlash s).any (stepsMatch steps))
  | .between :: _, [] => false
  | .toEnd :: steps, c :: s => c == slash && (rests s).any (stepsMatch steps)
  | .toEnd :: _, [] => false

/-! ### Patterns -/

/-- The step lists of the choices of a pattern. -/
structure Glob where
  choices : List (List GlobStep)
  deriving DecidableEq, Repr

/-- Whether a path matches a pattern; two stars alone match every path. -/
def Glob.matches (g : Glob) (path : List UInt8) : Bool :=
  if g.choices = [[.fromStart]] then true else g.choices.any (stepsMatch · path)

/-! ### Reading a pattern -/

/-- What has been read of a pattern inside one pair of braces, or outside of all: the choices before
the last comma, and those after it. -/
structure GlobFrame where
  before : List (List GlobStep) := []
  current : List (List GlobStep) := [[]]

/-- The frame with a step at the end of its current choices. -/
def GlobFrame.push (f : GlobFrame) (step : GlobStep) : GlobFrame :=
  { f with current := f.current.map (· ++ [step]) }

/-- The frame with several steps at the end of its current choices. -/
def GlobFrame.pushAll (f : GlobFrame) (steps : List GlobStep) : GlobFrame :=
  steps.foldl push f

/-- Whether something was read since the last comma. -/
def GlobFrame.hasSteps (f : GlobFrame) : Bool :=
  f.current != [[]]

def GlobFrame.comma (f : GlobFrame) : GlobFrame :=
  ⟨f.before ++ f.current, [[]]⟩

/-- The choices of a closed pair of braces; empty ones do not count, unless there are no others. -/
def GlobFrame.close (f : GlobFrame) : List (List GlobStep) :=
  let choices := (f.before ++ f.current).filter (!·.isEmpty)
  if choices.isEmpty then [[]] else choices

/-- The frame with choices at the end of its current ones. -/
def GlobFrame.pushChoices (f : GlobFrame) (choices : List (List GlobStep)) : GlobFrame :=
  { f with current := f.current.flatMap fun steps => choices.map (steps ++ ·) }

/-- The frame with the last step, a slash, replaced by one for directories; those that take in all
directories at one end stay. -/
def GlobFrame.replaceSlash (f : GlobFrame) (step : GlobStep) : GlobFrame :=
  { f with
    current := f.current.map fun steps =>
      match steps.getLast? with
      | some .fromStart => steps
      | some .toEnd => steps
      | _ => steps.dropLast ++ [step] }

/-- The steps of a character taken as it is. -/
def literalSteps (c : Char) : List GlobStep :=
  (Text.bytes [c]).map .byte

/-- The ranges of bytes that a range of characters stands for: the bytes of both ends, with the last of
the first and the first of the second as the ends of a range. -/
def classRanges (low high : Char) : List ByteRange :=
  let single (b : UInt8) : ByteRange := ⟨b, b⟩
  let lowBytes := Text.bytes [low]
  let highBytes := Text.bytes [high]
  if low = high then lowBytes.map single
  else
    lowBytes.dropLast.map single ++ [⟨lowBytes.getLastD 0, highBytes.headD 0⟩]
      ++ highBytes.tail.map single

/-- The ranges of a class up to its closing bracket, and what follows. `first` tells whether nothing has
been read, `open_` whether the last character was a dash that may join a range; `ranges` holds the ranges
read, the latest first. -/
def readClass (first isJoining : Bool) (ranges : List (Char × Char)) :
    Text → Option (List (Char × Char) × Text)
  | [] => none
  | c :: rest =>
    if c = ']' ∧ !first then
      some ((if isJoining then ('-', '-') :: ranges else ranges).reverse, rest)
    else if c = '-' ∧ !first ∧ !isJoining then readClass false true ranges rest
    else if isJoining then
      match ranges with
      | (low, _) :: ranges =>
        if c < low then none else readClass false false ((low, c) :: ranges) rest
      | [] => none
    else readClass false false ((c, c) :: ranges) rest

/-- Reads a pattern: `frames` holds the open pairs of braces, the innermost first, and `last` the
character before. `fuel` bounds the number of steps. -/
def readGlob : (fuel : Nat) → (last : Option Char) → (frame : GlobFrame) →
    (outer : List GlobFrame) → Text → Option Glob
  | 0, _, _, _, _ => none
  | _ + 1, _, frame, outer, [] => if outer.isEmpty then some ⟨frame.current⟩ else none
  | fuel + 1, last, frame, outer, c :: rest =>
    match c with
    | '?' => readGlob fuel c (frame.push .one) outer rest
    | '*' =>
      match rest with
      | '*' :: rest =>
        let isNameEnd (d : Char) := d == '/'
        let isPartEnd (d : Char) := !outer.isEmpty && (d == ',' || d == '}')
        let plain := (frame.push .many).push .many
        if !frame.hasSteps then
          match rest with
          | [] => readGlob fuel '*' (frame.push .fromStart) outer []
          | d :: rest' =>
            if isNameEnd d then readGlob fuel d (frame.push .fromStart) outer rest'
            else readGlob fuel '*' plain outer rest
        else if last != some '/' then readGlob fuel '*' plain outer rest
        else
          match rest with
          | [] => readGlob fuel '*' (frame.replaceSlash .toEnd) outer []
          | d :: rest' =>
            if isPartEnd d then readGlob fuel '*' (frame.replaceSlash .toEnd) outer rest
            else if isNameEnd d then readGlob fuel d (frame.replaceSlash .between) outer rest'
            else readGlob fuel '*' plain outer rest
      | _ => readGlob fuel c (frame.push .many) outer rest
    | '[' =>
      let (negated, body) :=
        match rest with
        | '!' :: body => (true, body)
        | '^' :: body => (true, body)
        | _ => (false, rest)
      match readClass true false [] body with
      | none => none
      | some (ranges, rest) =>
        let step := .ofClass negated (ranges.flatMap fun (low, high) => classRanges low high)
        readGlob fuel ']' (frame.push step) outer rest
    | '{' => readGlob fuel c {} (frame :: outer) rest
    | '}' =>
      match outer with
      | [] => none
      | above :: outer => readGlob fuel c (above.pushChoices frame.close) outer rest
    | ',' =>
      if outer.isEmpty then readGlob fuel c (frame.pushAll (literalSteps c)) outer rest
      else readGlob fuel c frame.comma outer rest
    | '\\' =>
      match rest with
      | [] => none
      | d :: rest => readGlob fuel d (frame.pushAll (literalSteps d)) outer rest
    | _ => readGlob fuel c (frame.pushAll (literalSteps c)) outer rest

/-- The pattern that a text spells, if it is one. -/
def Glob.ofText? (t : Text) : Option Glob :=
  readGlob (t.length + 1) none {} [] t

end CodeIndex
