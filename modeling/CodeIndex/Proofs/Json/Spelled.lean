import CodeIndex.Json.Printer
import CodeIndex.Proofs.Json.Fields

/-!
# Documents as their texts spell them

The text of a document keeps everything but reals that are not finite. What is spelled of a record is the
record of what is spelled of its members, and the reader of a real finds it when it is finite, and nothing
otherwise.
-/

namespace CodeIndex

namespace Json

/-! ### Values -/

@[simp] theorem spelled_null : spelled .null = .null := by
  simp only [spelled]

@[simp] theorem spelled_bool (b : Bool) : spelled (.bool b) = .bool b := by
  simp only [spelled]

@[simp] theorem spelled_string (s : String) : spelled (.string s) = .string s := by
  simp only [spelled]

@[simp] theorem spelled_count (n : Nat) : spelled (count n) = count n := by
  simp only [count, spelled, JsonNumber.isFinite, ite_true]

@[simp] theorem spelled_word (n : UInt64) : spelled (word n) = word n :=
  spelled_count n.toNat

@[simp] theorem spelled_small (n : UInt32) : spelled (small n) = small n :=
  spelled_count n.toNat

@[simp] theorem spelled_array {α : Type} (write : α → Json) (list : List α) :
    spelled (.array (list.map write)) = .array (list.map fun a => spelled (write a)) := by
  have hitems : spelledItems (list.map write) = list.map fun a => spelled (write a) := by
    induction list with
    | nil => rfl
    | cons a rest ih => rw [List.map_cons, spelledItems, ih, List.map_cons]
  rw [spelled, hitems]

@[simp] theorem spelled_strings (list : List String) : spelled (strings list) = strings list := by
  simp only [strings, spelled_array, spelled_string]

@[simp] theorem spelled_optional (s : Option String) :
    spelled (Json.optional .string s) = Json.optional .string s := by
  cases s with
  | none => exact spelled_null
  | some s => exact spelled_string s

/-! ### Members -/

@[simp] theorem spelled_object (members : List (String × Json)) :
    spelled (.object members) = .object (spelledMembers members) := by
  rw [spelled]

@[simp] theorem spelledMembers_nil : spelledMembers [] = [] := by
  rw [spelledMembers]

@[simp] theorem spelledMembers_cons (name : String) (v : Json) (rest : List (String × Json)) :
    spelledMembers ((name, v) :: rest) = (name, spelled v) :: spelledMembers rest := by
  rw [spelledMembers]

@[simp] theorem spelledMembers_append (members more : List (String × Json)) :
    spelledMembers (members ++ more) = spelledMembers members ++ spelledMembers more := by
  induction members with
  | nil => rw [List.nil_append, spelledMembers_nil, List.nil_append]
  | cons m rest ih => rw [List.cons_append, spelledMembers_cons, ih, spelledMembers_cons, List.cons_append]

@[simp] theorem spelledMembers_optional {α : Type} (name : String) (write : α → Json) (a : Option α) :
    spelledMembers (a.map fun a => (name, write a)).toList =
      (a.map fun a => (name, spelled (write a))).toList := by
  cases a with
  | none => exact spelledMembers_nil
  | some a => simp

/-! ### Reals -/

@[simp] theorem float_spelled (x : Float) :
    float? (spelled (real x)) = if (BinaryValue.ofFloat x).isFinite then some x else none := by
  rw [real, spelled, JsonNumber.isFinite]
  split <;> simp only [float?]

@[simp] theorem single_spelled (x : Single) :
    single? (spelled (single x)) = if x.isFinite then some x else none := by
  rw [single, spelled, JsonNumber.isFinite]
  split <;> simp only [single?]

/-! ### Lists -/

/-- A list reads back when each of its items does, and not when one of them does not. -/
theorem list_spelled {α : Type} (read : Json → Option α) (write : α → Json) (isRead : α → Bool)
    (h : ∀ a, read (spelled (write a)) = if isRead a then some a else none) (list : List α) :
    list? read (.array (list.map fun a => spelled (write a))) =
      if list.all isRead then some list else none := by
  simp only [list?, items?, Option.bind_some]
  induction list with
  | nil => rfl
  | cons a rest ih =>
    rw [List.map_cons, List.mapM_cons, h a, ih, List.all_cons]
    cases isRead a <;> cases rest.all isRead <;> rfl

end Json

end CodeIndex
