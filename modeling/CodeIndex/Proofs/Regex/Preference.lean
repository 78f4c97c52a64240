import CodeIndex.Proofs.Regex.Language

/-!
# Preferred ways of an expression

An expression takes a text in front of what follows it when its preferred way leads over that text:
whatever succeeds behind the text makes the attempt succeed. The preferred way over a sequence is made of
the preferred ways of its parts; only a repetition that prefers few rounds looks at what comes behind it.
-/

namespace CodeIndex

namespace Regex

/-! ### Taking a text -/

/-- Whether the preferred way of an expression leads over `passed` in front of `rest`, with the given
groups closed on the way. -/
structure Takes (fuel : Nat) (r : Regex) (p : Cursor) (passed rest : Text) (added : List (Nat × Span)) :
    Prop where
  ahead : p.rest = passed ++ rest
  prefers : ∀ groups next done, next ⟨p.after passed rest, added ++ groups⟩ = some done →
    r.attempt fuel ⟨p, groups⟩ next = some done

variable {fuel : Nat} {r s : Regex} {p : Cursor}

theorem Takes.matchAt? {passed rest : Text} {added : List (Nat × Span)}
    (h : r.Takes fuel p passed rest added) :
    r.matchAt? fuel p = some ⟨p, p.after passed rest, added⟩ := by
  have hattempt := h.prefers [] some _ rfl
  rw [List.append_nil] at hattempt
  rw [Regex.matchAt?, hattempt]
  rfl

/-! ### Sequences, options and groups -/

theorem Takes.seq {u v rest : Text} {added later : List (Nat × Span)}
    (h : r.Takes fuel p u (v ++ rest) added)
    (h' : s.Takes fuel (p.after u (v ++ rest)) v rest later) :
    (r ++ s).Takes fuel p (u ++ v) rest (later ++ added) where
  ahead := by rw [h.ahead, List.append_assoc]
  prefers groups next done hnext := by
    refine h.prefers groups _ done (h'.prefers (added ++ groups) next done ?_)
    rw [Cursor.after_after, ← List.append_assoc]
    exact hnext

/-- Nothing, and then a text. -/
theorem Takes.nothing_seq {passed rest : Text} {later : List (Nat × Span)}
    (h : r.Takes fuel p [] (passed ++ rest) []) (h' : s.Takes fuel p passed rest later) :
    (r ++ s).Takes fuel p passed rest later where
  ahead := h'.ahead
  prefers groups next done hnext := by
    refine h.prefers groups _ done ?_
    rw [Cursor.after_nil h'.ahead]
    exact h'.prefers groups next done hnext

theorem Takes.nothing_nothing {rest : Text} (h : r.Takes fuel p [] rest []) (h' : s.Takes fuel p [] rest []) :
    (r ++ s).Takes fuel p [] rest [] :=
  .nothing_seq h h'

/-- A text, and then nothing. -/
theorem Takes.seq_nothing {passed rest : Text} {added : List (Nat × Span)}
    (h : r.Takes fuel p passed rest added) (h' : s.Takes fuel (p.after passed rest) [] rest []) :
    (r ++ s).Takes fuel p passed rest added where
  ahead := h.ahead
  prefers groups next done hnext := by
    refine h.prefers groups _ done (h'.prefers (added ++ groups) next done ?_)
    rw [Cursor.after_nil (p.after_rest passed rest)]
    exact hnext

/-- Sequences may be taken in any grouping. -/
theorem Takes.assoc {t : Regex} {passed rest : Text} {added : List (Nat × Span)}
    (h : (r ++ (s ++ t)).Takes fuel p passed rest added) :
    (r ++ s ++ t).Takes fuel p passed rest added :=
  ⟨h.ahead, h.prefers⟩

theorem Takes.opt {passed rest : Text} {added : List (Nat × Span)}
    (h : r.Takes fuel p passed rest added) : (opt r).Takes fuel p passed rest added where
  ahead := h.ahead
  prefers groups next done hnext := by
    rw [Regex.opt, attempt, h.prefers groups next done hnext]

/-- An option in front of what is to follow it. -/
theorem Takes.opt_seq {passed rest : Text} {added : List (Nat × Span)}
    (h : (r ++ s).Takes fuel p passed rest added) : (Regex.opt r ++ s).Takes fuel p passed rest added where
  ahead := h.ahead
  prefers groups next done hnext := by
    have hattempt := h.prefers groups next done hnext
    rw [attempt_append] at hattempt
    rw [attempt_append, Regex.opt, attempt, hattempt]

/-- An option that is refused takes nothing. -/
theorem Refuses.takes_opt {rest : Text} (h : r.Refuses fuel p) (hrest : p.rest = rest) :
    (Regex.opt r).Takes fuel p [] rest [] where
  ahead := hrest
  prefers groups next done hnext := by
    rw [Cursor.after_nil hrest] at hnext
    rw [Regex.opt, attempt, h]
    exact hnext

theorem Takes.group {passed rest : Text} {added : List (Nat × Span)} (label : Nat)
    (h : r.Takes fuel p passed rest added) :
    (Regex.group label r).Takes fuel p passed rest ((label, ⟨p, p.offset + passed.width⟩) :: added) where
  ahead := h.ahead
  prefers groups _ done hnext := h.prefers groups _ done hnext

theorem takes_anchor {a : Anchor} {rest : Text} (h : a.holds p = true) (hrest : p.rest = rest) :
    (Regex.anchor a).Takes fuel p [] rest [] where
  ahead := hrest
  prefers groups next done hnext := by
    rw [Cursor.after_nil hrest] at hnext
    rw [attempt, h]
    exact hnext

/-! ### Characters -/

theorem takes_literal {text rest : Text} (h : p.rest = text ++ rest) :
    (Regex.literal text).Takes fuel p text rest [] where
  ahead := h
  prefers groups next done hnext := by
    rw [attempt, h, Text.dropStart?_append, ← hnext]
    cases text with
    | nil => rfl
    | cons c text =>
      rw [Cursor.after, List.getLast?_cons, Option.some_or]
      rfl

theorem takes_lit {s : String} {rest : Text} (h : p.rest = s.toList ++ rest) :
    (lit s).Takes fuel p s.toList rest [] :=
  takes_literal h

theorem takes_one {accepts : Char → Bool} {c : Char} {rest : Text} (hc : accepts c = true)
    (h : p.rest = [c] ++ rest) : (Regex.one accepts).Takes fuel p [c] rest [] where
  ahead := h
  prefers groups next done hnext := by
    rw [attempt, h]
    exact (if_pos hc).trans hnext

theorem takes_char {c : Char} {rest : Text} (h : p.rest = [c] ++ rest) :
    (char c).Takes fuel p [c] rest [] :=
  takes_one (beq_self_eq_true c) h

/-! ### Repetitions -/

/-- The farthest place is behind all characters of the class. -/
theorem farthestFirst_eq_cons (accepts : Char → Bool) (nearer : List Cursor) (p : Cursor)
    (passed rest : Text) (hp : p.rest = passed ++ rest) (hall : ∀ c ∈ passed, accepts c = true)
    (hstop : ∀ c tail, rest = c :: tail → accepts c = false) :
    ∃ others, farthestFirst accepts nearer p (passed ++ rest) = p.after passed rest :: others := by
  induction passed generalizing p nearer with
  | nil =>
    rw [Cursor.after_nil (show p.rest = rest from hp), List.nil_append]
    cases rest with
    | nil => exact ⟨nearer, rfl⟩
    | cons c tail =>
      rw [farthestFirst, if_neg (by rw [hstop c tail rfl]; decide)]
      exact ⟨nearer, rfl⟩
  | cons c passed ih =>
    obtain ⟨hc, hall⟩ := List.forall_mem_cons.mp hall
    rw [List.cons_append, farthestFirst, if_pos hc, ← p.past_after c passed (passed ++ rest) rest]
    exact ih _ (p.past c (passed ++ rest)) rfl hall

/-- A repetition that prefers many rounds takes all characters of its class. -/
theorem takes_many {accepts : Char → Bool} {passed rest : Text} (h : p.rest = passed ++ rest)
    (hall : ∀ c ∈ passed, accepts c = true) (hstop : ∀ c tail, rest = c :: tail → accepts c = false) :
    (Regex.run .many accepts).Takes fuel p passed rest [] where
  ahead := h
  prefers groups next done hnext := by
    obtain ⟨others, hplaces⟩ := farthestFirst_eq_cons accepts [] p passed rest h hall hstop
    rw [attempt, h, hplaces, List.findSome?_cons]
    rw [List.nil_append] at hnext
    rw [hnext]

theorem takes_some1 {accepts : Char → Bool} {passed rest : Text} (hne : passed ≠ [])
    (h : p.rest = passed ++ rest) (hall : ∀ c ∈ passed, accepts c = true)
    (hstop : ∀ c tail, rest = c :: tail → accepts c = false) :
    (some1 accepts).Takes fuel p passed rest [] := by
  obtain ⟨c, passed, rfl⟩ := List.exists_cons_of_ne_nil hne
  obtain ⟨hc, hall⟩ := List.forall_mem_cons.mp hall
  exact (takes_one hc h).seq (takes_many rfl hall hstop)

/-- Nothing is taken where nothing of a class follows. -/
theorem takes_many_nil {accepts : Char → Bool} {rest : Text} (h : p.rest = rest)
    (hstop : ∀ c tail, rest = c :: tail → accepts c = false) :
    (Regex.run .many accepts).Takes fuel p [] rest [] :=
  takes_many h (List.forall_mem_nil _) hstop

/-- The first success among nearest places, where all nearer ones fail. -/
theorem nearestFirst_eq_some (accepts : Char → Bool) (next : Cursor → Option Progress) (p : Cursor)
    (passed rest : Text) (hp : p.rest = passed ++ rest) (hall : ∀ c ∈ passed, accepts c = true)
    (hnearer : ∀ a b, b ≠ [] → passed = a ++ b → next (p.after a (b ++ rest)) = none)
    (done : Progress) (hnext : next (p.after passed rest) = some done) :
    nearestFirst accepts next p (passed ++ rest) = some done := by
  induction passed generalizing p with
  | nil =>
    rw [Cursor.after_nil (show p.rest = rest from hp)] at hnext
    cases rest with
    | nil => exact hnext
    | cons c tail => rw [List.nil_append, nearestFirst, hnext]
  | cons c passed ih =>
    obtain ⟨hc, hall⟩ := List.forall_mem_cons.mp hall
    have hhere := hnearer [] (c :: passed) (List.cons_ne_nil c passed) rfl
    rw [Cursor.after_nil hp] at hhere
    rw [List.cons_append, nearestFirst, hhere]
    refine (if_pos hc).trans (ih (p.past c (passed ++ rest)) rfl hall (fun a b hb hab => ?_) ?_)
    · rw [Cursor.past_after]
      exact hnearer (c :: a) b hb (by rw [hab, List.cons_append])
    · rw [Cursor.past_after]
      exact hnext

/-- A group that prefers few characters stops where what is behind it is taken for the first time. -/
theorem takes_few1_group {accepts : Char → Bool} (label : Nat) {c : Char} {passed v rest : Text}
    {added : List (Nat × Span)} (h : p.rest = c :: passed ++ (v ++ rest)) (hc : accepts c = true)
    (hall : ∀ d ∈ passed, accepts d = true)
    (hbehind : s.Takes fuel (p.after (c :: passed) (v ++ rest)) v rest added)
    (hnearer : ∀ a b, b ≠ [] → passed = a ++ b →
      s.Refuses fuel (p.after (c :: a) (b ++ (v ++ rest)))) :
    (Regex.group label (few1 accepts) ++ s).Takes fuel p (c :: passed ++ v) rest
      (added ++ [(label, ⟨p, p.offset + Text.width (c :: passed)⟩)]) where
  ahead := by rw [h, List.append_assoc]
  prefers groups next done hnext := by
    rw [attempt_append, attempt, few1, attempt_append, attempt, h]
    refine (if_pos hc).trans ?_
    rw [attempt]
    refine nearestFirst_eq_some accepts _ _ passed _ rfl hall (fun a b hb hab => ?_) done ?_
    · rw [Cursor.past_after]
      exact hnearer a b hb hab _ next
    · rw [Cursor.past_after]
      refine hbehind.prefers _ next done ?_
      rw [Cursor.after_after, ← hnext, List.append_assoc]
      rfl

end Regex

end CodeIndex
