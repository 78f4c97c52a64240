import CodeIndex.Json.Record

/-!
# Fields of written records

What a reader finds in an object that was written as a record: a member that is always written, nothing
for a member that was left out. From this the parts of a record read back one by one.
-/

namespace CodeIndex

open Json RecordReader

/-! ### Members by name -/

/-- The values of the members with a name. -/
def valuesOf (name : String) (members : List (String × Json)) : List Json :=
  (members.filter (·.1 == name)).map (·.2)

/-- What is found under a name: at most one value. -/
def onlyOne? : List Json → Option (Option Json)
  | [] => some none
  | [v] => some (some v)
  | _ => none

def readOr {α : Type} (default : α) (read : Json → Option α) : Option Json → Option α
  | some v => read v
  | none => some default

@[simp] theorem valuesOf_nil (name : String) : valuesOf name [] = [] := rfl

@[simp] theorem valuesOf_cons (name other : String) (v : Json) (rest : List (String × Json)) :
    valuesOf name ((other, v) :: rest) =
      if other == name then v :: valuesOf name rest else valuesOf name rest := by
  unfold valuesOf
  by_cases h : (other == name) = true <;> simp [h]

@[simp] theorem valuesOf_append (name : String) (a b : List (String × Json)) :
    valuesOf name (a ++ b) = valuesOf name a ++ valuesOf name b := by
  simp only [valuesOf, List.filter_append, List.map_append]

@[simp] theorem valuesOf_optional {α : Type} (name other : String) (write : α → Json)
    (a : Option α) : valuesOf name (a.map fun a => (other, write a)).toList =
      if other == name then (a.map write).toList else [] := by
  cases a with
  | none => simp
  | some a => simp

@[simp] theorem onlyOne_nil : onlyOne? [] = some none := rfl

@[simp] theorem onlyOne_singleton (v : Json) : onlyOne? [v] = some (some v) := rfl

@[simp] theorem onlyOne_toList (found : Option Json) : onlyOne? found.toList = some found := by
  cases found <;> rfl

/-! ### Written members -/

/-- The members of a record that are there. -/
def writtenMembers (members : List (Option (String × Json))) : List (String × Json) :=
  members.filterMap id

@[simp] theorem record_eq (members : List (Option (String × Json))) :
    record members = .object (writtenMembers members) := rfl

@[simp] theorem writtenMembers_nil : writtenMembers [] = [] := rfl

@[simp] theorem writtenMembers_always (name : String) (v : Json)
    (rest : List (Option (String × Json))) :
    writtenMembers (always name v :: rest) = (name, v) :: writtenMembers rest := rfl

@[simp] theorem writtenMembers_listOf {α : Type} (name : String) (write : α → Json) (list : List α)
    (rest : List (Option (String × Json))) :
    writtenMembers (listOf name write list :: rest) =
      (name, .array (list.map write)) :: writtenMembers rest := rfl

@[simp] theorem writtenMembers_ifSome {α : Type} (name : String) (write : α → Json) (a : Option α)
    (rest : List (Option (String × Json))) :
    writtenMembers (ifSome name write a :: rest) =
      (a.map fun a => (name, write a)).toList ++ writtenMembers rest := by
  cases a <;> rfl

def unlessEmpty {α : Type} (list : List α) : Option (List α) :=
  if list.isEmpty then none else some list

@[simp] theorem writtenMembers_ifAny {α : Type} (name : String) (write : α → Json) (list : List α)
    (rest : List (Option (String × Json))) :
    writtenMembers (ifAny name write list :: rest) =
      ((unlessEmpty list).map fun list => (name, Json.array (list.map write))).toList ++
        writtenMembers rest := by
  cases list <;> rfl

/-! ### Readers on members -/

namespace RecordReader

@[simp] theorem bind_members {α β : Type} (reader : RecordReader α) (next : α → RecordReader β)
    (source : RecordSource) :
    (reader >>= next) source =
      match reader source with
      | none => none
      | some (a, source) => next a source := by
  change (reader source).bind (fun (a, source) => next a source) = _
  cases reader source <;> rfl

@[simp] theorem map_members {α β : Type} (f : α → β) (reader : RecordReader α)
    (source : RecordSource) :
    (f <$> reader) source =
      match reader source with
      | none => none
      | some (a, source) => some (f a, source) := by
  cases h : reader source <;> simp [Functor.map, StateT.map, h]

@[simp] theorem pure_members {α : Type} (a : α) (source : RecordSource) :
    (pure a : RecordReader α) source = some (a, source) := rfl

theorem field_members (name : String) (list : List (String × Json)) :
    field? name (.members list) = (onlyOne? (valuesOf name list)).map (·, .members list) := by
  simp only [field?, valuesOf]
  generalize list.filter (·.1 == name) = found
  match found with
  | [] => rfl
  | [(_, v)] => rfl
  | _ :: _ :: _ => rfl

@[simp] theorem required_members {α : Type} (name : String) (read : Json → Option α)
    (list : List (String × Json)) :
    required name read (.members list) =
      ((onlyOne? (valuesOf name list)).bind (·.bind read)).map (·, .members list) := by
  simp only [required, bind_members, field_members]
  cases onlyOne? (valuesOf name list) with
  | none => rfl
  | some found =>
    cases found with
    | none => rfl
    | some v => simp only [Option.map_some, Option.bind_some]; cases read v <;> rfl

@[simp] theorem withDefault_members {α : Type} (name : String) (default : α)
    (read : Json → Option α) (list : List (String × Json)) :
    withDefault name default read (.members list) =
      ((onlyOne? (valuesOf name list)).bind (readOr default read)).map (·, .members list) := by
  simp only [withDefault, bind_members, field_members]
  cases onlyOne? (valuesOf name list) with
  | none => rfl
  | some found =>
    cases found with
    | none => rfl
    | some v => simp only [Option.map_some, Option.bind_some, readOr]; cases read v <;> rfl

@[simp] theorem orMissing_members {α : Type} (name : String) (read : Json → Option α)
    (list : List (String × Json)) :
    orMissing name read (.members list) =
      ((onlyOne? (valuesOf name list)).bind (readOr none (orNull read))).map (·, .members list) :=
  withDefault_members name none (orNull read) list

@[simp] theorem nullable_members {α : Type} (name : String) (read : Json → Option α)
    (list : List (String × Json)) :
    nullable name read (.members list) =
      ((onlyOne? (valuesOf name list)).bind (readOr none (orNull read))).map (·, .members list) :=
  withDefault_members name none (orNull read) list

@[simp] theorem read_object {α : Type} (reader : RecordReader α) (list : List (String × Json)) :
    read? reader (.object list) = (reader (.members list)).map (·.1) := rfl

end RecordReader

/-! ### Values -/

@[simp] theorem string_string (s : String) : string? (.string s) = some s := by
  simp only [string?]

@[simp] theorem bool_bool (b : Bool) : bool? (.bool b) = some b := by
  simp only [bool?]

@[simp] theorem float_real (x : Float) : float? (.real x) = some x := by
  simp only [float?, real]

@[simp] theorem single_single (x : Single) : single? (.single x) = some x := by
  simp only [single?, single]

@[simp] theorem word_word (n : UInt64) : word? (word n) = some n := by
  have hn : n.toNat < bound64 := n.toNat_lt
  simp [word?, size?, countBelow?, word, count, hn]

@[simp] theorem small_small (n : UInt32) : small? (small n) = some n := by
  have hn : n.toNat < bound32 := n.toNat_lt
  simp [small?, countBelow?, small, count, hn]

@[simp] theorem list_array {α : Type} (read : Json → Option α) (write : α → Json)
    (h : ∀ a, read (write a) = some a) (list : List α) :
    list? read (.array (list.map write)) = some list := by
  simp only [list?, items?, Option.bind_some]
  induction list with
  | nil => rfl
  | cons a rest ih => simp [h, ih]

@[simp] theorem strings_array (list : List String) : strings? (.array (list.map .string)) = some list :=
  list_array string? .string string_string list

@[simp] theorem strings_strings (list : List String) : strings? (.strings list) = some list :=
  strings_array list

@[simp] theorem readOr_none {α : Type} (default : α) (read : Json → Option α) :
    readOr default read none = some default := rfl

@[simp] theorem readOr_some {α : Type} (default : α) (read : Json → Option α) (v : Json) :
    readOr default read (some v) = read v := rfl

@[simp] theorem string_null : string? .null = none := by
  simp only [string?]

@[simp] theorem small_null : small? .null = none := by
  simp only [small?, countBelow?, Option.map_none]

@[simp] theorem read_null {α : Type} (reader : RecordReader α) : read? reader .null = none := by
  simp only [read?]

@[simp] theorem orNull_optional (s : Option String) :
    orNull string? (Json.optional .string s) = some s := by
  cases s <;> rfl

/-- An optional member reads back when what is written for a value reads back and is not null. -/
@[simp] theorem readOr_optional {α : Type} (read : Json → Option α) (write : α → Json)
    (h : ∀ a, read (write a) = some a) (hn : read .null = none) (a : Option α) :
    readOr none (orNull read) (a.map write) = some a := by
  cases a with
  | none => rfl
  | some a =>
    have ha := h a
    cases hw : write a with
    | null =>
      rw [hw, hn] at ha
      cases ha
    | _ =>
      rw [hw] at ha
      simp only [Option.map_some, readOr, hw, orNull, ha]

@[simp] theorem readOr_unlessEmpty {α : Type} (read : Json → Option (List α)) (write : α → Json)
    (h : ∀ list : List α, read (.array (list.map write)) = some list) (list : List α) :
    readOr [] read ((unlessEmpty list).map fun list => .array (list.map write)) = some list := by
  cases list with
  | nil => rfl
  | cons a rest => exact h (a :: rest)

end CodeIndex
