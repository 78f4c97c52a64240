import CodeIndex.Structure.Basic
import CodeIndex.Text.Blank

/-!
# Parameter lists

A list is split at the commas outside brackets. Each item is read in one of two syntaxes:
`name: Type = default`, or `Type name = default` where the name follows the last blank, star or
ampersand.

The depth of brackets is counted without a bound here. A counter of 32 bits with a sign has the same
value as long as the text has fewer than 2^31 brackets, that is for every text below 2 GiB; what it does
behind that many is not described.
-/

namespace CodeIndex

/-! ### Splitting -/

/-- The bracket depth behind a character. -/
def depthAfter (depth : Int) (c : Char) : Int :=
  if c == '(' || c == '[' || c == '{' || c == '<' then depth + 1
  else if c == ')' || c == ']' || c == '}' || c == '>' then depth - 1
  else depth

/-- The pieces between the commas at bracket depth 0 or below; closers without an opener lower the
depth. -/
def splitAtDepth : (depth : Int) → Text → List Text
  | _, [] => [[]]
  | depth, c :: rest =>
    if c == ',' && depth ≤ 0 then [] :: splitAtDepth depth rest
    else
      match splitAtDepth (depthAfter depth c) rest with
      | [] => [[c]]
      | piece :: pieces => (c :: piece) :: pieces

/-- The trimmed non-empty items of a list, split at its top-level commas. -/
def splitTopLevel (t : Text) : List Text :=
  ((splitAtDepth 0 t).map Text.trim).filter (!·.isEmpty)

/-- The places of the commas at bracket depth 0 or below, for a text that starts at `offset`. -/
def topLevelCommas : (depth : Int) → (offset : Nat) → Text → List Nat
  | _, _, [] => []
  | depth, offset, c :: rest =>
    if c == ',' && depth ≤ 0 then offset :: topLevelCommas depth (offset + 1) rest
    else topLevelCommas (depthAfter depth c) (offset + c.utf8Size) rest

/-- The pieces of a text from `start` on, cut at the one-byte characters at the given places. -/
def piecesFrom? (t : Text) : (start : Nat) → List Nat → Option (List Text)
  | start, [] => (t.slice? start t.width).map ([·])
  | start, comma :: commas => do
    let piece ← t.slice? start comma
    let pieces ← piecesFrom? t (comma + 1) commas
    return piece :: pieces

/-- `splitTopLevel` by the places of the commas; it always finds its pieces. -/
def splitTopLevel? (t : Text) : Option (List Text) :=
  (piecesFrom? t 0 (topLevelCommas 0 0 t)).map fun pieces =>
    (pieces.map Text.trim).filter (!·.isEmpty)

/-! ### Items -/

/-- The trimmed text as a string, unless nothing is left. -/
def nonEmptyString? (t : Text) : Option String :=
  t.nonEmpty?.map String.ofList

/-- The declaration and the default of an item, parted at its first equals sign. -/
def splitDefault (item : Text) : Text × Option String :=
  match Text.splitFirst? ['='] item with
  | some (declaration, value) => (declaration, nonEmptyString? value)
  | none => (item, none)

/-- An item of the form `name: Type = default`; question marks after the name are dropped. -/
def annotatedParameter (item : Text) : Parameter :=
  let (declaration, defaultValue) := splitDefault item
  let (name, typeName) :=
    match Text.splitFirst? [':'] declaration with
    | some (name, type) => (name, nonEmptyString? type)
    | none => (declaration, none)
  ⟨String.ofList (name.trim.dropEndWhile (· == '?')), typeName, defaultValue⟩

/-- Whether a character parts the type from the name in `Type name`. -/
def endsType (c : Char) : Bool :=
  isBlank c || c == '*' || c == '&'

/-- An item of the form `Type name = default`. -/
def typedParameter (item : Text) : Parameter :=
  let (declaration, defaultValue) := splitDefault item
  let reversed := declaration.trim.reverse
  let name := (reversed.takeWhile (!endsType ·)).reverse
  let type := (reversed.dropWhile (!endsType ·)).reverse
  ⟨if name.isEmpty then "unnamed" else String.ofList name, nonEmptyString? type, defaultValue⟩

/-- The place behind the last character of a declaration that parts the type from the name. -/
def typeEnd? (declaration : Text) : Option Nat :=
  match declaration.reverse.dropWhile (!endsType ·) with
  | [] => none
  | type => some (Text.width type)

/-- `typedParameter` by the place where the type ends; it always finds its parts. -/
def typedParameter? (item : Text) : Option Parameter := do
  let (declaration, defaultValue) := splitDefault item
  let declaration := declaration.trim
  let (type, name) ←
    match typeEnd? declaration with
    | some stop => do
      let type ← declaration.takeBytes? stop
      let name ← declaration.dropBytes? stop
      pure (type, name)
    | none => pure ([], declaration)
  return ⟨if name.isEmpty then "unnamed" else String.ofList name, nonEmptyString? type, defaultValue⟩

/-! ### Lists -/

/-- The parameters of a list in the syntax `name: Type = default`. -/
def annotatedParameters (t : Text) : List Parameter :=
  (splitTopLevel t).map annotatedParameter

/-- `annotatedParameters` by places. -/
def annotatedParameters? (t : Text) : Option (List Parameter) :=
  (splitTopLevel? t).map fun items => items.map annotatedParameter

/-- The parameters of a list in the syntax `Type name = default`; a lone `void` is no parameter. -/
def typedParameters (t : Text) : List Parameter :=
  ((splitTopLevel t).filter (· != "void".toList)).map typedParameter

/-- `typedParameters` by places. -/
def typedParameters? (t : Text) : Option (List Parameter) := do
  let items ← splitTopLevel? t
  (items.filter (· != "void".toList)).mapM typedParameter?

end CodeIndex
