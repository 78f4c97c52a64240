import CodeIndex.Proofs.Text.Places
import CodeIndex.Regex.Basic

/-!
# Places of a match

Whatever an expression tries, its place only moves on over characters that are there and that the
expression accepts, and the groups it closes lie between where it started and where it stands. So a
successful attempt has come to a place behind its start, and what follows it went on from there.
-/

namespace CodeIndex

/-! ### Places behind a place -/

/-- Whether one place lies behind another, with the given characters between them. -/
structure Cursor.Passes (p : Cursor) (passed : Text) (q : Cursor) : Prop where
  rest : p.rest = passed ++ q.rest
  offset : q.offset = p.offset + passed.width
  before : q.before = passed.getLast?.or p.before

def Cursor.Reaches (p q : Cursor) : Prop :=
  ∃ passed, p.Passes passed q

namespace Cursor

theorem Passes.refl (p : Cursor) : p.Passes [] p :=
  ⟨rfl, rfl, rfl⟩

theorem Passes.trans {p q r : Cursor} {passed more : Text} (h : p.Passes passed q)
    (h' : q.Passes more r) : p.Passes (passed ++ more) r where
  rest := by rw [h.rest, h'.rest, List.append_assoc]
  offset := by rw [h'.offset, h.offset, Text.width_append, Nat.add_assoc]
  before := by rw [h'.before, h.before, List.getLast?_append, Option.or_assoc]

theorem passes_past (p : Cursor) (c : Char) (rest : Text) (h : p.rest = c :: rest) :
    p.Passes [c] (p.past c rest) :=
  ⟨h, rfl, rfl⟩

/-- The place behind the given characters. -/
theorem passes_text (p : Cursor) (text rest : Text) (h : p.rest = text ++ rest) :
    p.Passes text ⟨if text.isEmpty then p.before else text.getLast?, p.offset + text.width, rest⟩ := by
  refine ⟨h, rfl, ?_⟩
  cases text with
  | nil => rfl
  | cons c text => rw [List.isEmpty_cons, if_neg Bool.false_ne_true, List.getLast?_cons, Option.some_or]

theorem Reaches.refl (p : Cursor) : p.Reaches p :=
  ⟨[], .refl p⟩

theorem Reaches.trans {p q r : Cursor} (h : p.Reaches q) (h' : q.Reaches r) : p.Reaches r := by
  obtain ⟨passed, hp⟩ := h
  obtain ⟨more, hm⟩ := h'
  exact ⟨_, hp.trans hm⟩

theorem Reaches.offset_le {p q : Cursor} (h : p.Reaches q) : p.offset ≤ q.offset := by
  obtain ⟨passed, hp⟩ := h
  rw [hp.offset]
  exact Nat.le_add_right ..

theorem reaches_past (p : Cursor) (c : Char) (rest : Text) (h : p.rest = c :: rest) :
    p.Reaches (p.past c rest) :=
  ⟨[c], passes_past p c rest h⟩

end Cursor

/-! ### Places behind a text -/

/-- The place behind the given characters, of which `rest` follows. -/
def Cursor.after (p : Cursor) (passed rest : Text) : Cursor :=
  ⟨passed.getLast?.or p.before, p.offset + passed.width, rest⟩

namespace Cursor

@[simp] theorem after_rest (p : Cursor) (passed rest : Text) : (p.after passed rest).rest = rest := rfl

@[simp] theorem after_offset (p : Cursor) (passed rest : Text) :
    (p.after passed rest).offset = p.offset + passed.width := rfl

theorem passes_after {p : Cursor} {passed rest : Text} (h : p.rest = passed ++ rest) :
    p.Passes passed (p.after passed rest) :=
  ⟨h, rfl, rfl⟩

theorem Passes.eq_after {p q : Cursor} {passed : Text} (h : p.Passes passed q) :
    p.rest = passed ++ q.rest ∧ q = p.after passed q.rest := by
  obtain ⟨before, offset, rest⟩ := q
  obtain ⟨hrest, hoffset, hbefore⟩ := h
  subst hoffset hbefore
  exact ⟨hrest, rfl⟩

theorem after_nil {p : Cursor} {rest : Text} (h : p.rest = rest) : p.after [] rest = p := by
  subst h
  rfl

theorem after_after (p : Cursor) (u v later rest : Text) :
    (p.after u later).after v rest = p.after (u ++ v) rest := by
  rw [after, after, after, List.getLast?_append, Option.or_assoc, Text.width_append, Nat.add_assoc]

theorem past_eq_after (p : Cursor) (c : Char) (rest : Text) : p.past c rest = p.after [c] rest := rfl

theorem past_after (p : Cursor) (c : Char) (passed later rest : Text) :
    (p.past c later).after passed rest = p.after (c :: passed) rest := by
  rw [past_eq_after, after_after, List.singleton_append]

/-- The text between a place and a place behind it. -/
theorem span_text {p : Cursor} {passed rest : Text} (h : p.rest = passed ++ rest) :
    (⟨p, p.offset + passed.width⟩ : Span).text = passed := by
  rw [Span.text, h, Nat.add_sub_cancel_left, Text.takeBytes_width]

end Cursor

/-! ### Attempts -/

/-- Whether a stretch stops at a place behind its start. -/
def Span.Stops (s : Span) : Prop :=
  ∃ stop, s.start.Reaches stop ∧ s.stop = stop.offset

/-- How far an attempt has come: its place lies behind, and the groups added since lie between. -/
structure Progress.Advances (p q : Progress) : Prop where
  place : p.place.Reaches q.place
  groups : ∃ added, q.groups = added ++ p.groups ∧
    ∀ g ∈ added, p.place.offset ≤ g.2.start.offset ∧ g.2.start.offset ≤ q.place.offset ∧ g.2.Stops

namespace Progress

theorem Advances.move (p : Progress) (place : Cursor) (h : p.place.Reaches place) :
    p.Advances { p with place := place } :=
  ⟨h, [], rfl, fun _ hg => nomatch hg⟩

theorem Advances.trans {p q r : Progress} (h : p.Advances q) (h' : q.Advances r) : p.Advances r := by
  obtain ⟨added, hadded, hin⟩ := h.groups
  obtain ⟨more, hmore, hin'⟩ := h'.groups
  refine ⟨h.place.trans h'.place, more ++ added, by rw [hmore, hadded, List.append_assoc], ?_⟩
  have hpq := h.place.offset_le
  have hqr := h'.place.offset_le
  intro g hg
  rcases List.mem_append.mp hg with hg | hg
  · obtain ⟨hstart, hstop, hspan⟩ := hin' g hg
    exact ⟨by omega, by omega, hspan⟩
  · obtain ⟨hstart, hstop, hspan⟩ := hin g hg
    exact ⟨by omega, by omega, hspan⟩

/-- A group closed over the whole way. -/
theorem Advances.close {p q : Progress} (h : p.Advances q) (label : Nat) :
    p.Advances { q with groups := (label, ⟨p.place, q.place.offset⟩) :: q.groups } := by
  obtain ⟨added, hadded, hin⟩ := h.groups
  refine ⟨h.place, (label, ⟨p.place, q.place.offset⟩) :: added, by rw [hadded, List.cons_append], ?_⟩
  intro g hg
  rcases List.mem_cons.mp hg with rfl | hg
  · exact ⟨Nat.le_refl _, h.place.offset_le, q.place, h.place, rfl⟩
  · exact hin g hg

end Progress

namespace Regex

/-! ### Accepted texts -/

/-- The texts that an expression may pass, whatever stands around them. -/
def Accepts : Regex → Text → Prop
  | .empty, passed => passed = []
  | .literal text, passed => passed = text
  | .one accepts, passed => ∃ c, accepts c = true ∧ passed = [c]
  | .run _ accepts, passed => ∀ c ∈ passed, accepts c = true
  | .all accepts, passed => ∀ c ∈ passed, accepts c = true
  | .seq first second, passed => ∃ u v, first.Accepts u ∧ second.Accepts v ∧ passed = u ++ v
  | .alt preferred other, passed => preferred.Accepts passed ∨ other.Accepts passed
  | .rounds body, passed => ∃ parts : List Text, (∀ u ∈ parts, body.Accepts u) ∧ passed = parts.flatten
  | .group _ body, passed => body.Accepts passed
  | .anchor _, passed => passed = []

theorem farthestFirst_passes (accepts : Char → Bool) (nearer : List Cursor) (p place : Cursor)
    (passed : Text) (hp : p.Passes passed place) (haccepts : ∀ c ∈ passed, accepts c = true)
    (hnearer : ∀ q ∈ nearer, ∃ w : Text, (∀ c ∈ w, accepts c = true) ∧ p.Passes w q) (rest : Text)
    (hrest : place.rest = rest) : ∀ q ∈ farthestFirst accepts nearer place rest,
      ∃ w : Text, (∀ c ∈ w, accepts c = true) ∧ p.Passes w q := by
  induction rest generalizing nearer place passed with
  | nil => exact List.forall_mem_cons.mpr ⟨⟨passed, haccepts, hp⟩, hnearer⟩
  | cons c rest ih =>
    have hhere := List.forall_mem_cons.mpr ⟨⟨passed, haccepts, hp⟩, hnearer⟩
    rw [farthestFirst]
    split
    · next hc =>
      refine ih _ _ (passed ++ [c]) (hp.trans (place.passes_past c rest hrest)) ?_ hhere rfl
      exact List.forall_mem_append.mpr ⟨haccepts, List.forall_mem_singleton.mpr hc⟩
    · exact hhere

theorem pastAll_passes (accepts : Char → Bool) (place : Cursor) (rest : Text)
    (hrest : place.rest = rest) :
    ∃ w : Text, (∀ c ∈ w, accepts c = true) ∧ place.Passes w (pastAll accepts place rest) := by
  induction rest generalizing place with
  | nil => exact ⟨[], List.forall_mem_nil _, .refl place⟩
  | cons c rest ih =>
    rw [pastAll]
    split
    · next hc =>
      obtain ⟨w, hw, hpassed⟩ := ih (place.past c rest) rfl
      exact ⟨c :: w, List.forall_mem_cons.mpr ⟨hc, hw⟩, (place.passes_past c rest hrest).trans hpassed⟩
    · exact ⟨[], List.forall_mem_nil _, .refl place⟩

theorem nearestFirst_passes (accepts : Char → Bool) (next : Cursor → Option Progress)
    (place : Cursor) (rest : Text) (hrest : place.rest = rest) (done : Progress)
    (h : nearestFirst accepts next place rest = some done) :
    ∃ (w : Text) (q : Cursor), (∀ c ∈ w, accepts c = true) ∧ place.Passes w q ∧ next q = some done := by
  induction rest generalizing place with
  | nil => exact ⟨[], place, List.forall_mem_nil _, .refl place, h⟩
  | cons c rest ih =>
    rw [nearestFirst] at h
    split at h
    · next hnow =>
      cases h
      exact ⟨[], place, List.forall_mem_nil _, .refl place, hnow⟩
    · split at h
      · next hc =>
        obtain ⟨w, q, hw, hq, hdone⟩ := ih _ rfl h
        exact ⟨c :: w, q, List.forall_mem_cons.mpr ⟨hc, hw⟩, (place.passes_past c rest hrest).trans hq, hdone⟩
      · cases h

end Regex

end CodeIndex
