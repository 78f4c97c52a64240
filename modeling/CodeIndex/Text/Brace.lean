import CodeIndex.Text.Basic

/-!
# Brace blocks

A block runs from an opening brace to the brace that closes it, or to the end of the text. Masking a
text blanks what is nested in its outermost blocks and keeps every other character at its place.
-/

namespace CodeIndex

/-! ### Blocks -/

/-- The place after the brace that closes `depth` open blocks, for a text that starts at `offset`;
the end of the text if they stay open. A closing brace at depth 0 ends the search. -/
def blockEndFrom : (depth offset : Nat) → Text → Nat
  | _, offset, [] => offset
  | depth, offset, c :: rest =>
    if c == '{' then blockEndFrom (depth + 1) (offset + c.utf8Size) rest
    else if c == '}' then
      if depth ≤ 1 then offset + c.utf8Size else blockEndFrom (depth - 1) (offset + c.utf8Size) rest
    else blockEndFrom depth (offset + c.utf8Size) rest

/-- The end of the block that opens at place `start`, for a text that starts at `offset`. -/
def blockEndAt (start : Nat) : (offset : Nat) → Text → Nat
  | offset, [] => offset
  | offset, c :: rest =>
    if offset < start then blockEndAt start (offset + c.utf8Size) rest
    else blockEndFrom 0 offset (c :: rest)

/-- The first place of the block that opens at `start`, and the place after it. -/
def balancedBlock (t : Text) (start : Nat) : Nat × Nat :=
  (start, blockEndAt start 0 t)

/-- The text of the block that opens at `start`, if the block is at places between characters. -/
def blockText? (t : Text) (start : Nat) : Option Text :=
  t.slice? (balancedBlock t start).1 (balancedBlock t start).2

/-! ### Masking -/

/-- The mask of a text that starts inside `depth` blocks. -/
def maskFrom : (depth : Nat) → Text → Text
  | _, [] => []
  | depth, c :: rest =>
    if c == '{' then (if depth = 0 then '{' else ' ') :: maskFrom (depth + 1) rest
    else if c == '}' then (if depth = 1 then '}' else ' ') :: maskFrom (depth - 1) rest
    else if c == '\n' then '\n' :: maskFrom depth rest
    else if 0 < depth then List.replicate c.utf8Size ' ' ++ maskFrom depth rest
    else c :: maskFrom depth rest

/-- A text with everything inside its outermost blocks turned into spaces, line feeds apart. Places
and line numbers stay as they were. -/
def maskNested (t : Text) : Text :=
  maskFrom 0 t

end CodeIndex
