import CodeIndex.Json.Basic
import CodeIndex.Number.Bound

/-!
# Records in JSON documents

A record is written as an object with one member per field. It is read from an object, where unknown
members are skipped and a known member may not come twice, or from an array with the fields in
order. A field that is left out stands for its default, if it has one.
-/

namespace CodeIndex

/-- What is left to read of a record: the members of an object, or the rest of an array. -/
inductive RecordSource where
  | members (list : List (String × Json))
  | items (rest : List Json)

/-- A reader of some fields of a record. -/
abbrev RecordReader := StateT RecordSource Option

namespace RecordReader

/-- What a field holds: nothing, if it is left out. -/
def field? (name : String) : RecordReader (Option Json) := fun source =>
  match source with
  | .members list =>
    match list.filter (·.1 == name) with
    | [] => some (none, source)
    | [(_, v)] => some (some v, source)
    | _ => none
  | .items [] => some (none, source)
  | .items (v :: rest) => some (some v, .items rest)

/-- A field that has to be there. -/
def required {α : Type} (name : String) (read : Json → Option α) : RecordReader α := do
  let found ← field? name
  found.bind read

/-- A field that stands for `default` when it is left out. -/
def withDefault {α : Type} (name : String) (default : α) (read : Json → Option α) :
    RecordReader α := do
  match ← field? name with
  | some v => read v
  | none => pure default

def orNull {α : Type} (read : Json → Option α) : Json → Option (Option α)
  | .null => some none
  | v => (read v).map some

/-- A field that may be null, and may be left out of an object. -/
def nullable {α : Type} (name : String) (read : Json → Option α) : RecordReader (Option α) :=
  fun source =>
    match source with
    | .items [] => none
    | _ => withDefault name none (orNull read) source

/-- A field that may be null or left out. -/
def orMissing {α : Type} (name : String) (read : Json → Option α) : RecordReader (Option α) :=
  withDefault name none (orNull read)

/-- The record that a value is; an array may hold no more than the fields. -/
def read? {α : Type} (reader : RecordReader α) : Json → Option α
  | .object members => (reader (.members members)).map (·.1)
  | .array items =>
    match reader (.items items) with
    | some (a, .items []) => some a
    | _ => none
  | _ => none

end RecordReader

namespace Json

def list? {α : Type} (read : Json → Option α) (v : Json) : Option (List α) :=
  v.items?.bind (·.mapM read)

/-- The case that a value names: a string, or an object with the name as its one member and null as
the value of that. -/
def case? {α : Type} (cases : List (String × α)) : Json → Option α
  | .string s => cases.lookup s
  | .object [(s, .null)] => cases.lookup s
  | _ => none

/-- The count that a value is, in 64 bits. -/
def size? : Json → Option Nat := countBelow? bound64

/-- A word of 64 bits as a value. -/
def word (n : UInt64) : Json := .count n.toNat

/-- The word of 64 bits that a value is. -/
def word? (v : Json) : Option UInt64 := v.size?.map UInt64.ofNat

/-- A word of 32 bits as a value. -/
def small (n : UInt32) : Json := .count n.toNat

/-- The word of 32 bits that a value is. -/
def small? (v : Json) : Option UInt32 := (v.countBelow? bound32).map UInt32.ofNat

/-- An object with the members that are there. -/
def record (members : List (Option (String × Json))) : Json :=
  .object (members.filterMap id)

/-- A member that is always written. -/
def always (name : String) (v : Json) : Option (String × Json) := some (name, v)

/-- A member that is written unless the value is missing. -/
def ifSome {α : Type} (name : String) (write : α → Json) (a : Option α) : Option (String × Json) :=
  a.map fun a => (name, write a)

/-- A member that is written unless the list is empty. -/
def ifAny {α : Type} (name : String) (write : α → Json) (list : List α) : Option (String × Json) :=
  if list.isEmpty then none else some (name, .array (list.map write))

/-- A member that holds a list, empty or not. -/
def listOf {α : Type} (name : String) (write : α → Json) (list : List α) : Option (String × Json) :=
  some (name, .array (list.map write))

end Json

end CodeIndex
