import CodeIndex.Proofs.Json.Fields
import Mathlib.Data.List.Forall2

/-!
# The order of members

The members of an object have an order in the text of a document and none in its meaning: a map sorts them
by name. What the readers of records find does not depend on that order, at whatever depth it differs.
-/

namespace CodeIndex

open Json RecordReader

/-! ### Values up to the order of members -/

/-- Whether two values differ at most in the order of the members of their objects. -/
inductive Json.Alike : Json → Json → Prop where
  | refl (v : Json) : Alike v v
  | trans {u v w : Json} (h : Alike u v) (h' : Alike v w) : Alike u w
  | swapped (before after : List (String × Json)) (a b : String × Json) :
      Alike (.object (before ++ a :: b :: after)) (.object (before ++ b :: a :: after))
  | member (before after : List (String × Json)) (name : String) {v w : Json} (h : Alike v w) :
      Alike (.object (before ++ (name, v) :: after)) (.object (before ++ (name, w) :: after))
  | item (before after : List Json) {v w : Json} (h : Alike v w) :
      Alike (.array (before ++ v :: after)) (.array (before ++ w :: after))

namespace Json

theorem Alike.null_iff {v w : Json} (h : v.Alike w) : v = .null ↔ w = .null := by
  induction h with
  | refl v => exact Iff.rfl
  | trans _ _ ih ih' => exact ih.trans ih'
  | swapped => exact ⟨nofun, nofun⟩
  | member => exact ⟨nofun, nofun⟩
  | item => exact ⟨nofun, nofun⟩

/-- Any order of the members of an object. -/
theorem alike_of_perm {list list' : List (String × Json)} (h : list.Perm list')
    (before : List (String × Json)) : Alike (.object (before ++ list)) (.object (before ++ list')) := by
  induction h generalizing before with
  | nil => exact .refl _
  | cons a _ ih =>
    have hrest := ih (before ++ [a])
    rwa [List.append_assoc, List.append_assoc] at hrest
  | swap a b list => exact .swapped before list b a
  | trans _ _ ih ih' => exact (ih before).trans (ih' before)

/-- A reader of values that finds the same whatever the order of members. -/
def IgnoresOrder {α : Type} (read : Json → Option α) : Prop :=
  ∀ v w, Alike v w → read v = read w

/-! ### Readers of values -/

theorem ignoresOrder_scalar {α : Type} {read : Json → Option α}
    (hobject : ∀ members, read (.object members) = none) (harray : ∀ items, read (.array items) = none) :
    IgnoresOrder read := by
  intro v w h
  induction h with
  | refl v => rfl
  | trans _ _ ih ih' => exact ih.trans ih'
  | swapped => rw [hobject, hobject]
  | member => rw [hobject, hobject]
  | item => rw [harray, harray]

@[simp] theorem ignoresOrder_string : IgnoresOrder string? :=
  ignoresOrder_scalar (fun _ => rfl) fun _ => rfl

@[simp] theorem ignoresOrder_bool : IgnoresOrder bool? :=
  ignoresOrder_scalar (fun _ => rfl) fun _ => rfl

@[simp] theorem ignoresOrder_word : IgnoresOrder word? :=
  ignoresOrder_scalar (fun _ => rfl) fun _ => rfl

@[simp] theorem ignoresOrder_small : IgnoresOrder small? :=
  ignoresOrder_scalar (fun _ => rfl) fun _ => rfl

/-- A case may be an object with one member, which has one order alone. -/
@[simp] theorem ignoresOrder_case {α : Type} (cases : List (String × α)) : IgnoresOrder (case? cases) := by
  have hmany : ∀ (before after : List (String × Json)) (a b : String × Json),
      case? cases (.object (before ++ a :: b :: after)) = none := by
    intro before after a b
    match before with
    | [] => simp only [case?, List.nil_append]
    | [c] => simp only [case?, List.singleton_append]
    | c :: d :: before => simp only [case?, List.cons_append]
  intro v w h
  induction h with
  | refl v => rfl
  | trans _ _ ih ih' => exact ih.trans ih'
  | swapped before after a b => rw [hmany, hmany]
  | item => rfl
  | @member before after name v w h =>
    match before, after with
    | [], [] =>
      have hnone : ∀ u : Json, u ≠ .null → case? cases (.object [(name, u)]) = none := by
        intro u hu
        cases u with
        | null => exact absurd rfl hu
        | _ => simp only [case?]
      by_cases hv : v = .null
      · rw [hv, h.null_iff.mp hv]
      · exact (hnone v hv).trans (hnone w (mt h.null_iff.mpr hv)).symm
    | [], b :: after => exact (hmany [] after _ b).trans (hmany [] after _ b).symm
    | a :: before, after =>
      obtain ⟨u, c, hsnoc⟩ := List.eq_nil_or_concat (a :: before) |>.resolve_left (List.cons_ne_nil a before)
      rw [hsnoc, List.concat_eq_append, List.append_assoc, List.append_assoc]
      exact (hmany u after c _).trans (hmany u after c _).symm

@[simp] theorem ignoresOrder_list {α : Type} {read : Json → Option α} (hread : IgnoresOrder read) :
    IgnoresOrder (list? read) := by
  intro v w h
  induction h with
  | refl v => rfl
  | trans _ _ ih ih' => exact ih.trans ih'
  | swapped => rfl
  | member => rfl
  | item before after h =>
    simp only [list?, items?, Option.bind_some, List.mapM_append, List.mapM_cons, hread _ _ h]

@[simp] theorem ignoresOrder_strings : IgnoresOrder strings? :=
  ignoresOrder_list ignoresOrder_string

theorem IgnoresOrder.orNull {α : Type} {read : Json → Option α} (hread : IgnoresOrder read) :
    IgnoresOrder (orNull read) := by
  intro v w h
  have hsame := hread v w h
  by_cases hv : v = .null
  · rw [hv, h.null_iff.mp hv]
  · have hsome : ∀ u : Json, u ≠ .null → RecordReader.orNull read u = (read u).map some := by
      intro u hu
      cases u with
      | null => exact absurd rfl hu
      | _ => rfl
    rw [hsome v hv, hsome w (mt h.null_iff.mpr hv), hsame]

end Json

/-! ### Readers of records -/

/-- Sources that hold alike values for each field. -/
inductive RecordSource.Alike : RecordSource → RecordSource → Prop where
  | members {list list' : List (String × Json)}
      (h : ∀ name, Option.Rel (Option.Rel Json.Alike) (onlyOne? (valuesOf name list))
        (onlyOne? (valuesOf name list'))) : Alike (.members list) (.members list')
  | items {rest rest' : List Json} (h : List.Forall₂ Json.Alike rest rest') :
      Alike (.items rest) (.items rest')

namespace RecordReader

/-- Whether a reader found the same in two sources, up to `same`, and left sources that are alike. -/
def SameFind {α : Type} (same : α → α → Prop) : Option (α × RecordSource) → Option (α × RecordSource) → Prop :=
  Option.Rel fun found found' => same found.1 found'.1 ∧ found.2.Alike found'.2

theorem bind_source {α β : Type} (reader : RecordReader α) (next : α → RecordReader β)
    (source : RecordSource) :
    (reader >>= next) source = (reader source).bind fun found => next found.1 found.2 := rfl

theorem SameFind.bind {α β : Type} {same : α → α → Prop} {same' : β → β → Prop}
    {found found' : Option (α × RecordSource)} {next next' : α × RecordSource → Option (β × RecordSource)}
    (h : SameFind same found found')
    (hnext : ∀ a b left left', same a b → RecordSource.Alike left left' →
      SameFind same' (next (a, left)) (next' (b, left'))) :
    SameFind same' (found.bind next) (found'.bind next') := by
  cases h with
  | none => exact .none
  | some hfound => exact hnext _ _ _ _ hfound.1 hfound.2

/-- A reader of fields that finds the same whatever the order of members. -/
def Unordered {α : Type} (reader : RecordReader α) : Prop :=
  ∀ s s' : RecordSource, s.Alike s' → SameFind Eq (reader s) (reader s')

theorem unordered_pure {α : Type} (a : α) : Unordered (pure a : RecordReader α) :=
  fun _ _ h => .some ⟨rfl, h⟩

theorem unordered_bind {α β : Type} {reader : RecordReader α} {next : α → RecordReader β}
    (h : Unordered reader) (hnext : ∀ a, Unordered (next a)) : Unordered (reader >>= next) := by
  intro s s' hs
  rw [bind_source, bind_source]
  refine (h s s' hs).bind fun a b left left' hab hleft => ?_
  subst hab
  exact hnext a left left' hleft

theorem field_alike (name : String) {s s' : RecordSource} (h : s.Alike s') :
    SameFind (Option.Rel Json.Alike) (field? name s) (field? name s') := by
  cases h with
  | @members list list' h =>
    have hname := h name
    rw [field_members, field_members]
    generalize onlyOne? (valuesOf name list) = found at hname
    generalize onlyOne? (valuesOf name list') = found' at hname
    cases hname with
    | none => exact .none
    | some hv => exact .some ⟨hv, .members h⟩
  | items h =>
    cases h with
    | nil => exact .some ⟨.none, .items .nil⟩
    | cons hv hrest => exact .some ⟨.some hv, .items hrest⟩

section

variable {α : Type} {read : Json → Option α} (hread : IgnoresOrder read)

include hread

/-- A value that is read where it was found. -/
theorem sameFind_read {v w : Json} {left left' : RecordSource} (h : v.Alike w) (hleft : left.Alike left') :
    SameFind Eq ((read v).map (·, left)) ((read w).map (·, left')) := by
  rw [hread v w h]
  cases read w with
  | none => exact .none
  | some a => exact .some ⟨rfl, hleft⟩

@[simp] theorem unordered_required (name : String) : Unordered (required name read) := by
  intro s s' hs
  rw [required, bind_source, bind_source]
  refine (field_alike name hs).bind fun found found' left left' hfound hleft => ?_
  cases hfound with
  | none => exact .none
  | @some v w hv =>
    have hsame := sameFind_read hread hv hleft
    dsimp only [Option.bind_some]
    generalize read v = a at hsame ⊢
    generalize read w = b at hsame ⊢
    cases a <;> cases b <;> exact hsame

@[simp] theorem unordered_withDefault (name : String) (default : α) :
    Unordered (withDefault name default read) := by
  intro s s' hs
  rw [withDefault, bind_source, bind_source]
  refine (field_alike name hs).bind fun found found' left left' hfound hleft => ?_
  cases hfound with
  | none => exact .some ⟨rfl, hleft⟩
  | @some v w hv =>
    have hsame := sameFind_read hread hv hleft
    dsimp only
    generalize read v = a at hsame ⊢
    generalize read w = b at hsame ⊢
    cases a <;> cases b <;> exact hsame

@[simp] theorem unordered_orMissing (name : String) : Unordered (orMissing name read) :=
  unordered_withDefault hread.orNull name none

@[simp] theorem unordered_nullable (name : String) : Unordered (nullable name read) := by
  intro s s' hs
  have hsame := unordered_withDefault hread.orNull name none s s' hs
  cases hs with
  | members h => exact hsame
  | items h =>
    cases h with
    | nil => exact .none
    | cons hv hrest => exact hsame

end

/-! ### Records -/

theorem alike_members_swapped (before after : List (String × Json)) (a b : String × Json) :
    RecordSource.Alike (.members (before ++ a :: b :: after)) (.members (before ++ b :: a :: after)) := by
  refine .members fun name => ?_
  have hrefl : ∀ found : Option (Option Json), Option.Rel (Option.Rel Json.Alike) found found
    | none => .none
    | some none => .some .none
    | some (some v) => .some (.some (.refl v))
  have htwo : ∀ (u w : List Json) (x y : Json), onlyOne? (u ++ x :: y :: w) = none
    | [], _, _, _ => rfl
    | [_], _, _, _ => rfl
    | _ :: _ :: _, _, _, _ => rfl
  obtain ⟨a, v⟩ := a
  obtain ⟨b, w⟩ := b
  simp only [valuesOf_append, valuesOf_cons]
  by_cases ha : (a == name) = true
  · by_cases hb : (b == name) = true
    · rw [if_pos ha, if_pos hb, if_pos hb, if_pos ha, htwo, htwo]
      exact .none
    · rw [if_pos ha, if_neg hb, if_neg hb, if_pos ha]
      exact hrefl _
  · rw [if_neg ha, if_neg ha]
    exact hrefl _

theorem alike_members_member (before after : List (String × Json)) (name : String) {v w : Json}
    (h : v.Alike w) :
    RecordSource.Alike (.members (before ++ (name, v) :: after))
      (.members (before ++ (name, w) :: after)) := by
  refine .members fun other => ?_
  simp only [valuesOf_append, valuesOf_cons]
  generalize valuesOf other before = earlier
  generalize valuesOf other after = later
  by_cases hname : (name == other) = true
  · rw [if_pos hname, if_pos hname]
    match earlier, later with
    | [], [] => exact .some (.some h)
    | [], _ :: _ => exact .none
    | [_], _ => exact .none
    | _ :: _ :: _, _ => exact .none
  · rw [if_neg hname, if_neg hname]
    match earlier ++ later with
    | [] => exact .some .none
    | [v] => exact .some (.some (.refl v))
    | _ :: _ :: _ => exact .none

/-- The record of an array: nothing may be left of it. -/
def wholeArray? {α : Type} : Option (α × RecordSource) → Option α
  | some (a, .items []) => some a
  | _ => none

theorem read_array {α : Type} (reader : RecordReader α) (items : List Json) :
    read? reader (.array items) = wholeArray? (reader (.items items)) := rfl

theorem SameFind.object {α : Type} {found found' : Option (α × RecordSource)}
    (h : SameFind Eq found found') : found.map (·.1) = found'.map (·.1) := by
  cases h with
  | none => rfl
  | some hfound => exact congrArg some hfound.1

theorem SameFind.array {α : Type} {found found' : Option (α × RecordSource)}
    (h : SameFind Eq found found') : wholeArray? found = wholeArray? found' := by
  cases h with
  | none => rfl
  | @some found found' hfound =>
    obtain ⟨a, left⟩ := found
    obtain ⟨b, left'⟩ := found'
    obtain ⟨rfl, hleft⟩ : a = b ∧ left.Alike left' := hfound
    cases hleft with
    | members => rfl
    | items hrest => cases hrest <;> rfl

theorem ignoresOrder_read {α : Type} {reader : RecordReader α} (h : Unordered reader) :
    IgnoresOrder (read? reader) := by
  intro v w hvw
  induction hvw with
  | refl v => rfl
  | trans _ _ ih ih' => exact ih.trans ih'
  | swapped before after a b => exact (h _ _ (alike_members_swapped before after a b)).object
  | member before after name hvw => exact (h _ _ (alike_members_member before after name hvw)).object
  | item before after hvw =>
    have hsame : ∀ items : List Json, List.Forall₂ Json.Alike items items :=
      fun items => List.forall₂_same.mpr fun v _ => .refl v
    rw [read_array, read_array]
    exact (h _ _ (.items (List.rel_append (hsame before) (.cons hvw (hsame after))))).array

end RecordReader

end CodeIndex
