import CodeIndex.Store.Affinity
import CodeIndex.Store.File

/-!
# Database images

A store may also lie in the image of a database. The image is cut into pages of one size. A table is a
tree of pages: inner pages name the pages below them, leaves hold the rows by increasing number. A row is a
record, a header with the kinds of its cells and the cells behind it; the end of a long record lies on a
chain of further pages. The tree of the first page holds the names of the tables and their first pages.
Texts are in UTF-8.
-/

namespace CodeIndex

/-! ### Bytes -/

abbrev Bytes := Array UInt8

namespace Bytes

def byteAt (b : Bytes) (place : Nat) : Nat := (b.getD place 0).toNat

def sliceAt (b : Bytes) (place size : Nat) : List UInt8 :=
  (List.range size).map fun k => b.getD (place + k) 0

/-- The number in some bytes, the highest byte first. -/
def wordAt (b : Bytes) (place size : Nat) : Nat :=
  (b.sliceAt place size).foldl (fun n byte => n * 256 + byte.toNat) 0

/-- The number in some bytes, the highest byte first, with a sign. -/
def signedAt (b : Bytes) (place size : Nat) : Int :=
  let n := b.wordAt place size
  if n < Nat.pow 2 (8 * size - 1) then n else n - Nat.pow 2 (8 * size)

/-- A number in groups of seven bits that goes on after a byte from 128 on, for at most `groups` of them
and a last byte of eight bits; and the place behind it. -/
def groupsAt (b : Bytes) : (groups : Nat) → (place n : Nat) → Nat × Nat
  | 0, place, n => (n * 256 + b.byteAt place, place + 1)
  | groups + 1, place, n =>
    let byte := b.byteAt place
    if byte < 128 then (n * 128 + byte, place + 1)
    else groupsAt b groups (place + 1) (n * 128 + (byte - 128))

def numberAt (b : Bytes) (place : Nat) : Nat × Nat := b.groupsAt 8 place 0

end Bytes

/-! ### Records -/

/-- The number of bytes of a cell, by its kind. -/
def kindWidth : (kind : Nat) → Nat
  | 0 => 0
  | 1 => 1
  | 2 => 2
  | 3 => 3
  | 4 => 4
  | 5 => 6
  | 6 => 8
  | 7 => 8
  | kind => (kind - 12) / 2

/-- The cell of a kind; there is none for a missing value and for a text that is not in UTF-8. -/
def cellAt? (b : Bytes) (kind place : Nat) : Option Cell :=
  if kind = 0 then none
  else if kind < 7 then some (.integer (b.signedAt place (kindWidth kind)))
  else if kind = 7 then some (.real (.ofBits (.ofNat (b.wordAt place 8))))
  else if kind < 10 then some (.integer (kind - 8))
  else
    let bytes := b.sliceAt place (kindWidth kind)
    if kind % 2 = 0 then some (.blob bytes)
    else (Text.ofBytes? bytes).map fun t => .plain (String.ofList t)

/-- The kinds in the header of a record, up to its end. -/
def kindsAt (b : Bytes) (stop : Nat) : (fuel : Nat) → (place : Nat) → List Nat
  | 0, _ => []
  | fuel + 1, place =>
    if stop ≤ place then []
    else
      let (kind, next) := b.numberAt place
      kind :: kindsAt b stop fuel next

def cellsAt (b : Bytes) : (kinds : List Nat) → (place : Nat) → List (Option Cell)
  | [], _ => []
  | kind :: rest, place => cellAt? b kind place :: cellsAt b rest (place + kindWidth kind)

def recordCells (record : List UInt8) : List (Option Cell) :=
  let b : Bytes := record.toArray
  let (stop, place) := b.numberAt 0
  cellsAt b (kindsAt b stop stop place) stop

/-! ### Pages -/

/-- The bytes of an image, the size of its pages, and how much of a page is in use. -/
structure Image where
  bytes : Bytes
  pageSize : Nat
  usable : Nat

namespace Image

/-- The bytes that an image starts with. -/
def mark : List UInt8 := textBytes "SQLite format 3" ++ [0]

/-- The image in some bytes, if they are one. -/
def ofBytes? (list : List UInt8) : Option Image :=
  let b : Bytes := list.toArray
  let size := b.wordAt 16 2
  let pageSize := if size = 1 then 65536 else size
  let usable := pageSize - b.byteAt 20
  let inUtf8 := b.wordAt 56 4 ≤ 1
  if b.sliceAt 0 16 = mark ∧ (List.range 8).any (fun k => pageSize = 512 * Nat.pow 2 k) ∧ 480 ≤ usable ∧ inUtf8 then
    some ⟨b, pageSize, usable⟩
  else none

def pageCount (i : Image) : Nat := i.bytes.size / i.pageSize

/-- Where a page starts, if there is one with the number; pages are counted from 1. -/
def start? (i : Image) (page : Nat) : Option Nat :=
  if page = 0 ∨ i.pageCount < page then none else some ((page - 1) * i.pageSize)

/-- How many bytes of a record lie on its leaf. -/
def onLeaf (i : Image) (size : Nat) : Nat :=
  let most := i.usable - 35
  let least := (i.usable - 12) * 32 / 255 - 23
  let rest := least + (size - least) % (i.usable - 4)
  if size ≤ most then size else if rest ≤ most then rest else least

/-- The bytes on a chain of pages, each of which starts with the number of the next (`fuel` bounds their
number). -/
def chain? (i : Image) : (fuel : Nat) → (page size : Nat) → Option (List UInt8)
  | _, _, 0 => some []
  | 0, _, _ => none
  | fuel + 1, page, size => do
    let start ← i.start? page
    let here := min size (i.usable - 4)
    let rest ← chain? i fuel (i.bytes.wordAt start 4) (size - here)
    return i.bytes.sliceAt (start + 4) here ++ rest

/-- The record of a row on a leaf, behind its size and the number of the row. -/
def recordAt? (i : Image) (place : Nat) : Option (List UInt8) := do
  let (size, place) := i.bytes.numberAt place
  let (_, place) := i.bytes.numberAt place
  let here := i.onLeaf size
  let rest ← i.chain? i.pageCount (i.bytes.wordAt (place + here) 4) (size - here)
  return i.bytes.sliceAt place here ++ rest

/-- How deep the tree of a table may be. -/
def treeDepth : Nat := 20

/-- The records of the rows in the tree of a page (`depth` bounds how deep it is). -/
def records? (i : Image) : (depth : Nat) → (page : Nat) → Option (List (List UInt8))
  | 0, _ => none
  | depth + 1, page => do
    let start ← i.start? page
    let head := if page = 1 then 100 else start
    let cellPlaces (first : Nat) : List Nat :=
      (List.range (i.bytes.wordAt (head + 3) 2)).map fun k =>
        start + i.bytes.wordAt (head + first + 2 * k) 2
    match i.bytes.byteAt head with
    | 13 => (cellPlaces 8).mapM i.recordAt?
    | 5 =>
      let below := (cellPlaces 12).map (i.bytes.wordAt · 4) ++ [i.bytes.wordAt (head + 8) 4]
      return (← below.mapM fun page => records? i depth page).flatten
    | _ => none

/-- The rows in the tree of a page. -/
def rows? (i : Image) (page : Nat) : Option (List (List (Option Cell))) :=
  (i.records? treeDepth page).map (·.map recordCells)

/-! ### Tables -/

/-- The first page of a table, by the rows of the first tree. -/
def tablePage? (name : String) (tables : List (List (Option Cell))) : Option Nat :=
  tables.findSome? fun
    | [some kind, some held, _, some (.integer page), _] =>
      if kind.isText "table" && held.isText name then some page.toNat else none
    | _ => none

/-- The rows of a table, without their numbers; a table that is missing is empty. -/
def table? {α : Type} (i : Image) (name : String) (row? : List Cell → Option α) : Option (List α) := do
  match tablePage? name (← i.rows? 1) with
  | none => return []
  | some page => (← i.rows? page).mapM fun cells => do row? (← (cells.drop 1).mapM id)

def fileRow? : List Cell → Option FileRow
  | [path, contentHash, embedding, metadata, modelType, fileSize, language, createdAt] =>
    some { path, contentHash, embedding, metadata, modelType, fileSize, language, createdAt }
  | _ => none

def structureRow? : List Cell → Option StructureRow
  | [path, contentHash, description, patterns, metrics, relations, createdAt] =>
    some { path, contentHash, description, patterns, metrics, relations, createdAt }
  | _ => none

def patternRow? : List Cell → Option PatternRow
  | [patternType, content, files, frequency, createdAt] =>
    some { patternType, content, files, frequency, createdAt }
  | _ => none

/-- A row of edges; a strength that is whole lies in the image as a whole number. -/
def edgeRow? : List Cell → Option EdgeRow
  | [source, target, kind, strength, metadata, createdAt] =>
    some { source, target, kind, strength := Affinity.real.keep strength, metadata, createdAt }
  | _ => none

/-- The store in an image, unless the image is broken. -/
def store? (i : Image) : Option Store := do
  return {
    files := ← i.table? "embeddings" fileRow?
    structures := ← i.table? "ast_data" structureRow?
    patterns := ← i.table? "code_patterns" patternRow?
    edges := ← i.table? "code_relationships" edgeRow? }

end Image

end CodeIndex
