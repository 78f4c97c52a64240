import CodeIndex.Proofs.Regex.Scan

/-!
# A scan as a loop

A scan that resumes behind the start of each match, and not behind the end of the text, is a loop over positions:
it takes the leftmost match at or behind its position and goes on at the position computed from that match, until
nothing matches any more. Its positions rise, and all of them are in the text. The loop has one run, which passes
over no match but those that start inside of a match it took, before the position at which it went on.
-/

namespace CodeIndex

namespace Cursor

variable {p q place : Cursor}

/-- A text has one place at an offset. -/
theorem Reaches.eq_of_offset (h : p.Reaches q) (h' : p.Reaches place) (hoffset : q.offset = place.offset) :
    q = place := by
  obtain ⟨passed, hq⟩ := h
  obtain ⟨passed', hplace⟩ := h'
  have hwidth : passed.width = passed'.width := by
    have hpassed := hq.offset
    have hpassed' := hplace.offset
    omega
  have hsame : passed = passed' := by
    rw [← Text.takeBytes_width passed q.rest, ← hq.rest, hwidth, hplace.rest, Text.takeBytes_width]
  subst hsame
  have hrest : q.rest = place.rest := List.append_cancel_left (hq.rest.symm.trans hplace.rest)
  rw [hq.eq_after.2, hplace.eq_after.2, hrest]

/-- No place is inside of a character. -/
theorem Reaches.offset_le_of_lt {c : Char} {rest : Text} (h : p.Reaches q) (h' : p.Reaches place)
    (hrest : place.rest = c :: rest) (hlt : q.offset < place.offset + c.utf8Size) : q.offset ≤ place.offset := by
  obtain ⟨passed, hq⟩ := h
  obtain ⟨passed', hplace⟩ := h'
  have hboth := hq.rest.symm.trans hplace.rest
  rw [hrest] at hboth
  have hpassed := hq.offset
  have hpassed' := hplace.offset
  rcases List.append_eq_append_iff.mp hboth with ⟨more, rfl, -⟩ | ⟨more, rfl, hmore⟩
  · rw [Text.width_append] at hpassed'
    omega
  · cases more with
    | nil =>
      rw [List.append_nil] at hpassed
      omega
    | cons d more =>
      obtain ⟨rfl, -⟩ := List.cons.inj hmore
      rw [Text.width_append, Text.width] at hpassed
      omega

end Cursor

namespace Regex

/-! ### Steps -/

/-- Whether a match of a text is the first one at or behind a position. -/
structure Leftmost (r : Regex) (t : Text) (position : Nat) (m : Match) : Prop where
  place : t.start.Reaches m.start
  behind : position ≤ m.start.offset
  found : r.matchAt? t.length m.start = some m
  first : ∀ place, t.start.Reaches place → position ≤ place.offset → place.offset < m.start.offset →
    r.matchAt? t.length place = none

/-- A run of the loop from a position on, with the matches that it takes. Each step moves the position on, and the
loop ends at a position of the text behind which nothing matches. -/
inductive Loop (r : Regex) (after : Match → Nat) (t : Text) : Nat → List Match → Prop where
  | done {position : Nat} (within : position ≤ t.width)
      (none : ∀ place, t.start.Reaches place → position ≤ place.offset → r.matchAt? t.length place = none) :
      Loop r after t position []
  | step {position : Nat} {m : Match} {later : List Match} (first : r.Leftmost t position m)
      (grows : position < after m) (more : Loop r after t (after m) later) :
      Loop r after t position (m :: later)

variable {r : Regex} {after : Match → Nat} {t : Text}

theorem Loop.position_le {position : Nat} {found : List Match} (h : r.Loop after t position found) :
    position ≤ t.width := by
  induction h with
  | done within _ => exact within
  | step _ grows _ ih => exact Nat.le_of_lt (Nat.lt_of_lt_of_le grows ih)

/-- The positions of a run rise and stay in the text. -/
theorem Loop.positions {position : Nat} {found : List Match} (h : r.Loop after t position found) :
    (position :: found.map after).Pairwise (· < ·) ∧ ∀ place ∈ position :: found.map after, place ≤ t.width := by
  induction h with
  | done within _ => exact ⟨List.pairwise_singleton _ _, List.forall_mem_singleton.mpr within⟩
  | step first grows more ih =>
    obtain ⟨hrise, hwithin⟩ := ih
    have hbehind := (List.pairwise_cons.mp hrise).1
    refine ⟨List.pairwise_cons.mpr ⟨List.forall_mem_cons.mpr ⟨grows, fun later hlater => ?_⟩, hrise⟩,
      List.forall_mem_cons.mpr ⟨?_, hwithin⟩⟩
    · exact Nat.lt_trans grows (hbehind later hlater)
    · exact Nat.le_of_lt (Nat.lt_of_lt_of_le grows more.position_le)

/-! ### What a run takes -/

theorem Leftmost.unique {position : Nat} {m m' : Match} (h : r.Leftmost t position m)
    (h' : r.Leftmost t position m') : m = m' := by
  have hnot : ∀ {a b : Match}, r.Leftmost t position a → r.Leftmost t position b →
      ¬a.start.offset < b.start.offset := by
    intro a b ha hb hlt
    have hnone := hb.first a.start ha.place ha.behind hlt
    rw [ha.found] at hnone
    cases hnone
  have hplace : m.start = m'.start :=
    h.place.eq_of_offset h'.place (Nat.le_antisymm (Nat.le_of_not_lt (hnot h' h)) (Nat.le_of_not_lt (hnot h h')))
  have hfound := h.found
  rw [hplace, h'.found] at hfound
  exact (Option.some.inj hfound).symm

/-- From a position the loop has one run. -/
theorem Loop.unique {position : Nat} {found other : List Match} (h : r.Loop after t position found)
    (h' : r.Loop after t position other) : found = other := by
  have hends : ∀ {position : Nat} {m : Match}, r.Leftmost t position m →
      ¬∀ place, t.start.Reaches place → position ≤ place.offset → r.matchAt? t.length place = none := by
    intro position m first none
    have hnone := none m.start first.place first.behind
    rw [first.found] at hnone
    cases hnone
  induction h generalizing other with
  | done within none =>
    cases h' with
    | done => rfl
    | step first => exact absurd none (hends first)
  | step first grows more ih =>
    cases h' with
    | done within none => exact absurd none (hends first)
    | step first' grows' more' =>
      obtain rfl := first.unique first'
      rw [ih more']

theorem Loop.first {position : Nat} {found : List Match} (h : r.Loop after t position found) :
    ∀ m ∈ found.head?, r.Leftmost t position m := by
  cases h with
  | done => exact fun m hm => nomatch hm
  | step first =>
    intro m hm
    obtain rfl := Option.some.inj hm
    exact first

/-- Each match that a run takes is the first one behind the match taken before it. -/
theorem Loop.next {position : Nat} {before later : List Match} {a b : Match}
    (h : r.Loop after t position (before ++ a :: b :: later)) : r.Leftmost t (after a) b := by
  induction before generalizing position with
  | nil =>
    cases h with
    | step first grows more =>
      cases more with
      | step second => exact second
  | cons m before ih =>
    cases h with
    | step first grows more => exact ih more

/-- A match that a run does not take starts inside of one that it takes, before it goes on. -/
theorem Loop.covers {position : Nat} {found : List Match} (h : r.Loop after t position found) {place : Cursor}
    (hplace : t.start.Reaches place) (hbehind : position ≤ place.offset) {m : Match}
    (hm : r.matchAt? t.length place = some m) :
    m ∈ found ∨ ∃ taken ∈ found, taken.start.offset < place.offset ∧ place.offset < after taken := by
  induction h with
  | done within none =>
    have hnone := none place hplace hbehind
    rw [hm] at hnone
    cases hnone
  | @step position taken later first grows more ih =>
    rcases Nat.lt_trichotomy place.offset taken.start.offset with hlt | heq | hgt
    · have hnone := first.first place hplace hbehind hlt
      rw [hm] at hnone
      cases hnone
    · have hfound := first.found
      rw [← hplace.eq_of_offset first.place heq, hm] at hfound
      exact Or.inl (List.mem_cons.mpr (Or.inl (Option.some.inj hfound)))
    · rcases Nat.lt_or_ge place.offset (after taken) with hbefore | hafter
      · exact Or.inr ⟨taken, List.mem_cons_self, hgt, hbefore⟩
      · rcases ih hafter with hlater | ⟨inner, hinner, hinside⟩
        · exact Or.inl (List.mem_cons_of_mem taken hlater)
        · exact Or.inr ⟨inner, List.mem_cons_of_mem taken hinner, hinside⟩

/-! ### Runs -/

/-- A scan is a run of the loop from the place to resume at, if nothing matches between that place and the place
where the scan stands. -/
theorem scanFrom_loop (resume : Nat) (place : Cursor) (rest : Text) (hrest : place.rest = rest)
    (hplace : t.start.Reaches place) (hresume : resume ≤ t.width)
    (hpassed : ∀ q, t.start.Reaches q → resume ≤ q.offset → q.offset < place.offset → r.matchAt? t.length q = none)
    (hafter : ∀ m ∈ r.scanFrom after t.length resume place rest, m.start.offset < after m ∧ after m ≤ t.width) :
    r.Loop after t resume (r.scanFrom after t.length resume place rest) := by
  induction rest generalizing resume place with
  | nil =>
    have hend : ∀ q, t.start.Reaches q → q.offset ≤ place.offset := by
      rintro q ⟨passed, hq⟩
      obtain ⟨all, hall⟩ := hplace
      have hwidth := congrArg Text.width (hq.rest.symm.trans hall.rest)
      rw [hrest, List.append_nil, Text.width_append] at hwidth
      have hoffset := hq.offset
      have hoffset' := hall.offset
      omega
    have hwidth : place.offset = t.width := by
      obtain ⟨all, hall⟩ := hplace
      have hsplit : t = all ++ place.rest := hall.rest
      rw [hall.offset, hsplit, hrest, List.append_nil]
      exact Nat.zero_add _
    have hhere : ¬place.offset < resume := by omega
    rw [scanFrom, if_neg hhere] at hafter ⊢
    cases hm : r.matchAt? t.length place with
    | none =>
      refine .done hresume fun q hq hbehind => ?_
      rcases Nat.lt_or_eq_of_le (hend q hq) with hlt | heq
      · exact hpassed q hq hbehind hlt
      · rw [hq.eq_of_offset hplace heq, hm]
    | some m =>
      -- behind a match at the end of the text there would be no position left
      rw [hm] at hafter
      have hbeyond := hafter m (List.mem_singleton.mpr rfl)
      rw [(matchAt?_liesBehind r _ place m hm).1] at hbeyond
      omega
  | cons c rest ih =>
    have hnext : t.start.Reaches (place.past c rest) := hplace.trans (place.reaches_past c rest hrest)
    have hpast : (place.past c rest).offset = place.offset + c.utf8Size := rfl
    have hinside : ∀ q, t.start.Reaches q → q.offset < (place.past c rest).offset → q.offset ≤ place.offset :=
      fun q hq hlt => hq.offset_le_of_lt hplace hrest (hpast ▸ hlt)
    rw [scanFrom] at hafter ⊢
    split
    · next hskip =>
      rw [if_pos hskip] at hafter
      refine ih resume _ rfl hnext hresume (fun q hq hbehind hlt => ?_) hafter
      have hle := hinside q hq hlt
      omega
    · next hhere =>
      rw [if_neg hhere] at hafter
      cases hm : r.matchAt? t.length place with
      | none =>
        rw [hm] at hafter
        refine ih resume _ rfl hnext hresume (fun q hq hbehind hlt => ?_) hafter
        rcases Nat.lt_or_eq_of_le (hinside q hq hlt) with hless | heq
        · exact hpassed q hq hbehind hless
        · rw [hq.eq_of_offset hplace heq, hm]
      | some m =>
        rw [hm] at hafter
        obtain ⟨⟨hgrows, hwithin⟩, hlater⟩ := List.forall_mem_cons.mp hafter
        have hstart := (matchAt?_liesBehind r _ place m hm).1
        rw [hstart] at hgrows
        refine .step ⟨by rw [hstart]; exact hplace, by rw [hstart]; omega, by rw [hstart]; exact hm, ?_⟩ (by omega)
          (ih (after m) _ rfl hnext hwithin (fun q hq hbehind hlt => ?_) hlater)
        · rw [hstart]
          exact hpassed
        · have hle := hinside q hq hlt
          omega

/-- A scan of a text is a run of the loop from its start. -/
theorem scan_loop (hafter : ∀ m ∈ r.scan after t.start, m.start.offset < after m ∧ after m ≤ t.width) :
    r.Loop after t 0 (r.scan after t.start) :=
  scanFrom_loop 0 t.start t rfl (.refl _) (Nat.zero_le _)
    (fun _ _ _ hlt => absurd hlt (Nat.not_lt_zero _)) hafter

end Regex

end CodeIndex
