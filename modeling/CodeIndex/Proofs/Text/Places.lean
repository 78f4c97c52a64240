import CodeIndex.Text.Basic
import Mathlib.Data.List.Infix

/-!
# Places and parts of texts

A place of a text is between characters where the text splits into what is before it and what is
behind it. Texts are cut at such places and at no others. A text starts with another if what the other
leaves is found, contains it if it does so from some place on, and splits around its first occurrence;
around a character it splits at the first or at the last one.
-/

namespace CodeIndex.Text

theorem width_append (t u : Text) : width (t ++ u) = width t + width u := by
  induction t with
  | nil => exact (Nat.zero_add _).symm
  | cons c rest ih =>
    rw [List.cons_append, width, width, ih, Nat.add_assoc]

theorem width_reverse (t : Text) : width t.reverse = width t := by
  induction t with
  | nil => rfl
  | cons c rest ih =>
    rw [List.reverse_cons, width_append, ih, width, width, width, Nat.add_zero, Nat.add_comm]

theorem dropBytes?_zero (t : Text) : t.dropBytes? 0 = some t := by
  cases t <;> rfl

theorem takeBytes?_zero (t : Text) : t.takeBytes? 0 = some [] := by
  cases t <;> rfl

theorem dropBytes?_cons (c : Char) (rest : Text) (n : Nat) :
    dropBytes? (c :: rest) (c.utf8Size + n) = dropBytes? rest n := by
  have hpos := c.utf8Size_pos
  obtain ⟨m, hm⟩ : ∃ m, c.utf8Size + n = m + 1 := ⟨c.utf8Size + n - 1, by omega⟩
  have hle : c.utf8Size ≤ m + 1 := by omega
  have hleft : m + 1 - c.utf8Size = n := by omega
  rw [hm, dropBytes?, if_pos hle, hleft]

theorem takeBytes?_cons (c : Char) (rest : Text) (n : Nat) :
    takeBytes? (c :: rest) (c.utf8Size + n) = (takeBytes? rest n).map (c :: ·) := by
  have hpos := c.utf8Size_pos
  obtain ⟨m, hm⟩ : ∃ m, c.utf8Size + n = m + 1 := ⟨c.utf8Size + n - 1, by omega⟩
  have hle : c.utf8Size ≤ m + 1 := by omega
  have hleft : m + 1 - c.utf8Size = n := by omega
  rw [hm, takeBytes?, if_pos hle, hleft]

theorem dropBytes?_append (before rest : Text) (n : Nat) :
    (before ++ rest).dropBytes? (before.width + n) = rest.dropBytes? n := by
  induction before with
  | nil => rw [List.nil_append, width, Nat.zero_add]
  | cons c before ih => rw [List.cons_append, width, Nat.add_assoc, dropBytes?_cons, ih]

theorem takeBytes?_append (before rest : Text) (n : Nat) :
    (before ++ rest).takeBytes? (before.width + n) = (rest.takeBytes? n).map (before ++ ·) := by
  induction before with
  | nil =>
    rw [List.nil_append, width, Nat.zero_add]
    cases takeBytes? rest n <;> rfl
  | cons c before ih =>
    rw [List.cons_append, width, Nat.add_assoc, takeBytes?_cons, ih, Option.map_map]
    rfl

theorem dropBytes?_width (before rest : Text) :
    (before ++ rest).dropBytes? before.width = some rest := by
  have h := dropBytes?_append before rest 0
  rwa [Nat.add_zero, dropBytes?_zero] at h

theorem takeBytes?_width (before rest : Text) :
    (before ++ rest).takeBytes? before.width = some before := by
  have h := takeBytes?_append before rest 0
  rwa [Nat.add_zero, takeBytes?_zero, Option.map_some, List.append_nil] at h

/-- The text between two places. -/
theorem slice?_between (before middle rest : Text) :
    (before ++ (middle ++ rest)).slice? before.width (before.width + middle.width) = some middle := by
  rw [slice?, if_pos (Nat.le_add_right ..), dropBytes?_width, Nat.add_sub_cancel_left]
  exact takeBytes?_width middle rest

/-- No text ends inside a character. -/
theorem takeBytes?_inside (before : Text) (c : Char) (rest : Text) (n : Nat) (hpos : 0 < n)
    (hin : n < c.utf8Size) : (before ++ c :: rest).takeBytes? (before.width + n) = none := by
  obtain ⟨m, rfl⟩ : ∃ m, n = m + 1 := ⟨n - 1, by omega⟩
  have hnot : ¬c.utf8Size ≤ m + 1 := by omega
  rw [takeBytes?_append, takeBytes?, if_neg hnot, Option.map_none]

theorem takeBytes_width (before rest : Text) : (before ++ rest).takeBytes before.width = before := by
  induction before with
  | nil =>
    cases rest with
    | nil => rfl
    | cons c rest =>
      have hpos := c.utf8Size_pos
      rw [List.nil_append, width, takeBytes, if_neg (by omega)]
  | cons c before ih =>
    rw [List.cons_append, width, takeBytes, if_pos (Nat.le_add_right ..), Nat.add_sub_cancel_left, ih]

end CodeIndex.Text

namespace CodeIndex

/-! ### Starts -/

theorem Text.dropStart?_append (needle rest : Text) : dropStart? needle (needle ++ rest) = some rest := by
  induction needle with
  | nil => rfl
  | cons c needle ih => rw [List.cons_append, dropStart?, if_pos (beq_self_eq_true c), ih]

theorem Text.dropStart?_eq_some (needle t rest : Text) (h : dropStart? needle t = some rest) :
    t = needle ++ rest := by
  induction needle generalizing t with
  | nil =>
    rw [dropStart?] at h
    exact Option.some.inj h
  | cons a needle ih =>
    cases t with
    | nil => cases h
    | cons c t =>
      rw [dropStart?] at h
      split at h
      · next he => rw [beq_iff_eq.mp he, ih t h, List.cons_append]
      · cases h

theorem startsWith_iff (t needle : Text) : t.startsWith needle = true ↔ needle <+: t := by
  rw [Text.startsWith, Option.isSome_iff_exists]
  constructor
  · rintro ⟨rest, h⟩
    exact ⟨rest, (Text.dropStart?_eq_some needle t rest h).symm⟩
  · rintro ⟨rest, rfl⟩
    exact ⟨rest, Text.dropStart?_append needle rest⟩

theorem hasPart_iff (needle t : Text) : Text.hasPart needle t = true ↔ needle <:+: t := by
  induction t with
  | nil => rw [Text.hasPart, List.isEmpty_iff, List.infix_nil]
  | cons c rest ih => rw [Text.hasPart, Bool.or_eq_true, startsWith_iff, ih, List.infix_cons_iff]

/-! ### Parts around a text -/

theorem Text.splitFirst?_append (c : Char) (needle before after : Text) (h : c ∉ before) :
    Text.splitFirst? (c :: needle) (before ++ (c :: needle ++ after)) = some (before, after) := by
  induction before with
  | nil =>
    rw [List.nil_append, List.cons_append, splitFirst?, ← List.cons_append, Text.dropStart?_append]
  | cons d before ih =>
    rw [List.mem_cons, not_or] at h
    rw [List.cons_append, splitFirst?, dropStart?, if_neg (by simpa using h.1), ih h.2]
    rfl

theorem Text.splitFirst?_eq_some (needle t before after : Text) (h : Text.splitFirst? needle t = some (before, after)) :
    t = before ++ (needle ++ after) := by
  induction t generalizing before with
  | nil =>
    rw [splitFirst?] at h
    split at h
    · next hempty =>
      cases h
      rw [List.isEmpty_iff.mp hempty]
      rfl
    · cases h
  | cons c t ih =>
    rw [splitFirst?] at h
    split at h
    · next hdrop =>
      cases h
      exact Text.dropStart?_eq_some needle _ _ hdrop
    · obtain ⟨⟨before', after'⟩, hrest, hparts⟩ := Option.map_eq_some_iff.mp h
      cases hparts
      rw [ih before' hrest, List.cons_append]

/-! ### Parts around a character -/

theorem Text.splitFirst?_none (c : Char) (t : Text) (h : c ∉ t) : Text.splitFirst? [c] t = none := by
  induction t with
  | nil => rfl
  | cons d t ih =>
    rw [List.mem_cons, not_or] at h
    rw [splitFirst?, dropStart?, if_neg (by simpa using h.1), ih h.2]
    rfl

theorem Text.splitFirst?_char (c : Char) (before after : Text) (h : c ∉ before) :
    Text.splitFirst? [c] (before ++ c :: after) = some (before, after) :=
  Text.splitFirst?_append c [] before after h

theorem Text.splitFirst?_char_iff (c : Char) (t before after : Text) :
    Text.splitFirst? [c] t = some (before, after) ↔ t = before ++ c :: after ∧ c ∉ before := by
  constructor
  · intro h
    by_cases hc : c ∈ t
    · obtain ⟨u, v, rfl, hu⟩ := List.eq_append_cons_of_mem hc
      rw [Text.splitFirst?_char c u v hu] at h
      cases h
      exact ⟨rfl, hu⟩
    · rw [Text.splitFirst?_none c t hc] at h
      cases h
  · rintro ⟨rfl, h⟩
    exact Text.splitFirst?_char c before after h

theorem Text.splitLast?_char_iff (c : Char) (t before after : Text) :
    Text.splitLast? [c] t = some (before, after) ↔ t = before ++ c :: after ∧ c ∉ after := by
  have hsplit : Text.splitLast? [c] t = some (before, after) ↔
      Text.splitFirst? [c] t.reverse = some (after.reverse, before.reverse) := by
    rw [Text.splitLast?, Option.map_eq_some_iff]
    constructor
    · rintro ⟨⟨u, v⟩, h, he⟩
      cases he
      rw [List.reverse_reverse, List.reverse_reverse]
      exact h
    · intro h
      exact ⟨_, h, Prod.ext (List.reverse_reverse before) (List.reverse_reverse after)⟩
  rw [hsplit, Text.splitFirst?_char_iff, List.mem_reverse, List.reverse_eq_iff]
  simp only [List.reverse_append, List.reverse_cons, List.reverse_reverse, List.append_assoc,
    List.singleton_append]

end CodeIndex
