/-!
# Texts

A text is a list of characters. Places in it are counted in bytes of its UTF-8 form, so that a
character is one to four places wide and a place may fall inside a character; `Text.slice?` refuses
such places. The searches below compare characters one by one.
-/

namespace CodeIndex

/-- A text, as its characters in order. -/
abbrev Text := List Char

namespace Text

/-! ### Width -/

/-- The number of bytes of the UTF-8 form. -/
def width : Text → Nat
  | [] => 0
  | c :: rest => c.utf8Size + width rest

/-- The characters from byte `n` on; `none` when `n` falls inside a character or past the end. -/
def dropBytes? : Text → Nat → Option Text
  | t, 0 => some t
  | [], _ + 1 => none
  | c :: rest, n + 1 => if c.utf8Size ≤ n + 1 then dropBytes? rest (n + 1 - c.utf8Size) else none

/-- The characters before byte `n`; `none` when `n` falls inside a character or past the end. -/
def takeBytes? : Text → Nat → Option Text
  | _, 0 => some []
  | [], _ + 1 => none
  | c :: rest, n + 1 =>
    if c.utf8Size ≤ n + 1 then (takeBytes? rest (n + 1 - c.utf8Size)).map (c :: ·) else none

/-- The characters between two byte places, if both are places between characters. -/
def slice? (t : Text) (start stop : Nat) : Option Text :=
  if start ≤ stop then (t.dropBytes? start).bind (·.takeBytes? (stop - start)) else none

/-- The leading characters that fit in `n` bytes. -/
def takeBytes : Text → Nat → Text
  | [], _ => []
  | c :: rest, n => if c.utf8Size ≤ n then c :: takeBytes rest (n - c.utf8Size) else []

/-! ### Search -/

/-- What follows `needle` when the text starts with it. -/
def dropStart? : (needle t : Text) → Option Text
  | [], t => some t
  | _ :: _, [] => none
  | a :: needle, c :: t => if a == c then dropStart? needle t else none

def startsWith (t needle : Text) : Bool :=
  (dropStart? needle t).isSome

def endsWith (t needle : Text) : Bool :=
  startsWith t.reverse needle.reverse

/-- Whether `needle` occurs in the text. -/
def hasPart (needle : Text) : Text → Bool
  | [] => needle.isEmpty
  | c :: rest => startsWith (c :: rest) needle || hasPart needle rest

/-- The parts around the first occurrence of `needle`. -/
def splitFirst? (needle : Text) : Text → Option (Text × Text)
  | [] => if needle.isEmpty then some ([], []) else none
  | c :: rest =>
    match dropStart? needle (c :: rest) with
    | some after => some ([], after)
    | none => (splitFirst? needle rest).map fun (before, after) => (c :: before, after)

/-- The parts around the last occurrence of `needle`. -/
def splitLast? (needle : Text) (t : Text) : Option (Text × Text) :=
  (splitFirst? needle.reverse t.reverse).map fun (after, before) => (before.reverse, after.reverse)

/-- The text without every leading occurrence of `needle` (`fuel` bounds their number). -/
def dropStarts (needle : Text) : (fuel : Nat) → Text → Text
  | 0, t => t
  | fuel + 1, t =>
    match dropStart? needle t with
    | some rest => dropStarts needle fuel rest
    | none => t

/-! ### Pieces -/

/-- The pieces between the characters that satisfy `isBreak`; one more piece than breaks. -/
def splitOn (isBreak : Char → Bool) : Text → List Text
  | [] => [[]]
  | c :: rest =>
    if isBreak c then [] :: splitOn isBreak rest
    else
      match splitOn isBreak rest with
      | [] => [[c]]
      | piece :: pieces => (c :: piece) :: pieces

/-- The text with each line feed that ends a line kept on that line; no line is empty. -/
def fullLines : Text → List Text
  | [] => []
  | c :: rest =>
    if c == '\n' then [c] :: fullLines rest
    else
      match fullLines rest with
      | [] => [[c]]
      | line :: lines => (c :: line) :: lines

/-- A line without its line feed, and without a carriage return before it. -/
def dropLineEnd (line : Text) : Text :=
  match line.reverse with
  | '\n' :: '\r' :: rest => rest.reverse
  | '\n' :: rest => rest.reverse
  | _ => line

/-- The lines of a text, without their ends; a text that ends in a line feed has no empty last
line. -/
def lines (t : Text) : List Text :=
  t.fullLines.map dropLineEnd

/-- The texts one after another, with `separator` between them. -/
def join (separator : Text) : List Text → Text
  | [] => []
  | [t] => t
  | t :: rest => t ++ separator ++ join separator rest

end Text

/-- Whether a text is spelled like one of the given words. -/
def isOneOf (words : List String) (t : Text) : Bool :=
  words.contains (String.ofList t)

end CodeIndex
