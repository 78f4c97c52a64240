import CodeIndex.Proofs.Regex.Scan

/-!
# Longer texts

Text is put behind a text. An expression whose matches end in a character that the added text does not
have finds the same matches as before: an attempt that comes to the end of the shorter text fails there,
and in the longer text it goes on into the added text and fails in it.
-/

namespace CodeIndex

/-! ### Places of a longer text -/

/-- The same place in a text with more characters at its end. -/
def Cursor.extend (p : Cursor) (more : Text) : Cursor :=
  { p with rest := p.rest ++ more }

def Span.extend (s : Span) (more : Text) : Span :=
  { s with start := s.start.extend more }

def Progress.extend (p : Progress) (more : Text) : Progress :=
  ⟨p.place.extend more, p.groups.map fun g => (g.1, g.2.extend more)⟩

def Match.extend (m : Match) (more : Text) : Match :=
  ⟨m.start.extend more, m.stop.extend more, m.groups.map fun g => (g.1, g.2.extend more)⟩

theorem Cursor.Reaches.length_le {p q : Cursor} (h : p.Reaches q) : q.rest.length ≤ p.rest.length := by
  obtain ⟨passed, hpassed⟩ := h
  rw [hpassed.rest, List.length_append]
  exact Nat.le_add_left ..

theorem Cursor.Reaches.suffix {p q : Cursor} (h : p.Reaches q) : q.rest <:+ p.rest := by
  obtain ⟨passed, hpassed⟩ := h
  exact ⟨passed, hpassed.rest.symm⟩

/-- A place further on has fewer characters before it. -/
theorem Cursor.Reaches.length_lt {p q : Cursor} (h : p.Reaches q) (hlt : p.offset < q.offset) :
    q.rest.length < p.rest.length := by
  obtain ⟨passed, hpassed⟩ := h
  cases passed with
  | nil =>
    rw [hpassed.offset, Text.width] at hlt
    exact absurd hlt (Nat.lt_irrefl _)
  | cons c passed =>
    rw [hpassed.rest, List.length_append, List.length_cons]
    omega

/-! ### The rest of an attempt -/

namespace Regex

theorem attempt_eq_none {fuel : Nat} {r : Regex} {p : Progress} {next : Progress → Option Progress}
    (h : ∀ q : Progress, p.place.Reaches q.place → next q = none) : r.attempt fuel p next = none := by
  cases hdone : r.attempt fuel p next with
  | none => rfl
  | some done =>
    obtain ⟨q, hadvance, hq⟩ := attempt_advances fuel r p done next hdone
    rw [h q hadvance.place] at hq
    cases hq

theorem tryRounds_eq_none {rounds fuel : Nat} {body : Regex} {p : Progress}
    {next : Progress → Option Progress} (h : ∀ q : Progress, p.place.Reaches q.place → next q = none) :
    tryRounds (body.attempt fuel) next rounds p = none := by
  cases hdone : tryRounds (body.attempt fuel) next rounds p with
  | none => rfl
  | some done =>
    obtain ⟨passed, q, hwent, hq⟩ := tryRounds_went body rounds fuel p done next hdone
    rw [h q hwent.advances.place] at hq
    cases hq

/-- What follows an expression behind a place of a text, and what follows it in the text with `more`
behind: the same, but nothing succeeds at the end of the text, nor inside of what is added. -/
structure Extends (more : Text) (place : Cursor) (next next' : Progress → Option Progress) : Prop where
  same : ∀ q : Progress, place.Reaches q.place → next' (q.extend more) = (next q).map (·.extend more)
  ends : ∀ q : Progress, q.place.rest = [] → next q = none
  stops : ∀ q : Progress, q.place.rest <:+ more → next' q = none

namespace Extends

variable {more : Text} {place : Cursor} {next next' : Progress → Option Progress}

theorem behind (h : Extends more place next next') {q : Cursor} (hq : place.Reaches q) :
    Extends more q next next' :=
  ⟨fun r hr => h.same r (hq.trans hr), h.ends, h.stops⟩

theorem attempt_ends (h : Extends more place next next') (fuel : Nat) (r : Regex) (p : Progress)
    (hp : p.place.rest = []) : r.attempt fuel p next = none :=
  attempt_eq_none fun q hq => h.ends q (List.suffix_nil.mp (hp ▸ hq.suffix))

theorem attempt_stops (h : Extends more place next next') (fuel : Nat) (r : Regex) (p : Progress)
    (hp : p.place.rest <:+ more) : r.attempt fuel p next' = none :=
  attempt_eq_none fun q hq => h.stops q (hq.suffix.trans hp)

theorem tryRounds_ends (h : Extends more place next next') (rounds fuel : Nat) (body : Regex) (p : Progress)
    (hp : p.place.rest = []) : tryRounds (body.attempt fuel) next rounds p = none :=
  tryRounds_eq_none fun q hq => h.ends q (List.suffix_nil.mp (hp ▸ hq.suffix))

theorem tryRounds_stops (h : Extends more place next next') (rounds fuel : Nat) (body : Regex) (p : Progress)
    (hp : p.place.rest <:+ more) : tryRounds (body.attempt fuel) next' rounds p = none :=
  tryRounds_eq_none fun q hq => h.stops q (hq.suffix.trans hp)

end Extends

/-! ### Runs of characters -/

/-- The places after some characters, before the place where they begin. -/
theorem farthestFirst_farther (accepts : Char → Bool) (nearer : List Cursor) (place : Cursor) (rest : Text)
    (hrest : place.rest = rest) :
    ∃ farther, farthestFirst accepts nearer place rest = farther ++ place :: nearer ∧
      ∀ q ∈ farther, q.rest <:+ rest := by
  induction rest generalizing nearer place with
  | nil => exact ⟨[], rfl, List.forall_mem_nil _⟩
  | cons c rest ih =>
    rw [farthestFirst]
    split
    · obtain ⟨farther, hfarther, hsuffix⟩ := ih (place :: nearer) (place.past c rest) rfl
      refine ⟨farther ++ [place.past c rest], by rw [hfarther, List.append_assoc]; rfl, ?_⟩
      refine List.forall_mem_append.mpr ⟨fun q hq => (hsuffix q hq).trans (List.suffix_cons c rest), ?_⟩
      exact List.forall_mem_singleton.mpr (List.suffix_cons c rest)
    · exact ⟨[], rfl, List.forall_mem_nil _⟩

theorem farthestFirst_extend (accepts : Char → Bool) (more : Text) (nearer : List Cursor) (place : Cursor)
    (rest : Text) (hrest : place.rest = rest) :
    ∃ added, farthestFirst accepts (nearer.map (·.extend more)) (place.extend more) (rest ++ more) =
        added ++ (farthestFirst accepts nearer place rest).map (·.extend more) ∧
      ∀ q ∈ added, q.rest <:+ more := by
  induction rest generalizing nearer place with
  | nil =>
    obtain ⟨farther, hfarther, hsuffix⟩ := farthestFirst_farther accepts (nearer.map (·.extend more))
      (place.extend more) more (by rw [Cursor.extend, hrest, List.nil_append])
    exact ⟨farther, hfarther, hsuffix⟩
  | cons c rest ih =>
    rw [List.cons_append, farthestFirst, farthestFirst]
    split
    · exact ih (place :: nearer) (place.past c rest) rfl
    · exact ⟨[], rfl, List.forall_mem_nil _⟩

theorem pastAll_suffix (accepts : Char → Bool) (place : Cursor) (rest : Text) (hrest : place.rest = rest) :
    (pastAll accepts place rest).rest <:+ rest := by
  obtain ⟨passed, -, hpassed⟩ := pastAll_passes accepts place rest hrest
  exact ⟨passed, hpassed.rest.symm.trans hrest⟩

/-- The same place is past all characters of a class, unless that is the end of the text. -/
theorem pastAll_extend (accepts : Char → Bool) (more : Text) (place : Cursor) (rest : Text)
    (hrest : place.rest = rest) :
    pastAll accepts (place.extend more) (rest ++ more) = (pastAll accepts place rest).extend more ∨
      (pastAll accepts place rest).rest = [] ∧
        (pastAll accepts (place.extend more) (rest ++ more)).rest <:+ more := by
  induction rest generalizing place with
  | nil =>
    refine Or.inr ⟨hrest, pastAll_suffix accepts (place.extend more) more ?_⟩
    rw [Cursor.extend, hrest, List.nil_append]
  | cons c rest ih =>
    rw [List.cons_append, pastAll, pastAll]
    split
    · exact ih (place.past c rest) rfl
    · exact Or.inl rfl

theorem nearestFirst_eq_none (accepts : Char → Bool) (next : Cursor → Option Progress) (place : Cursor)
    (rest : Text) (hrest : place.rest = rest) (h : ∀ q : Cursor, q.rest <:+ rest → next q = none) :
    nearestFirst accepts next place rest = none := by
  cases hdone : nearestFirst accepts next place rest with
  | none => rfl
  | some done =>
    obtain ⟨passed, q, -, hpassed, hq⟩ := nearestFirst_passes accepts next place rest hrest done hdone
    rw [h q ⟨passed, hpassed.rest.symm.trans hrest⟩] at hq
    cases hq

theorem nearestFirst_extend (accepts : Char → Bool) (more : Text) (next next' : Cursor → Option Progress)
    (place : Cursor) (rest : Text) (hrest : place.rest = rest)
    (hsame : ∀ q, place.Reaches q → next' (q.extend more) = (next q).map (·.extend more))
    (hends : ∀ q : Cursor, q.rest = [] → next q = none)
    (hstops : ∀ q : Cursor, q.rest <:+ more → next' q = none) :
    nearestFirst accepts next' (place.extend more) (rest ++ more) =
      (nearestFirst accepts next place rest).map (·.extend more) := by
  induction rest generalizing place with
  | nil =>
    have hmore : (place.extend more).rest = more := by rw [Cursor.extend, hrest, List.nil_append]
    rw [List.nil_append, nearestFirst_eq_none accepts next' _ more hmore hstops, nearestFirst,
      hends place hrest]
    rfl
  | cons c rest ih =>
    have hhere := hsame place (.refl place)
    have hpast := ih (place.past c rest) rfl fun q hq => hsame q ((place.reaches_past c rest hrest).trans hq)
    rw [List.cons_append, nearestFirst, nearestFirst, hhere]
    cases next place with
    | some done => rfl
    | none =>
      dsimp only [Option.map_none]
      split
      · exact hpast
      · rfl

theorem findSome?_extend (more : Text) (f f' : Cursor → Option Progress) (places : List Cursor)
    (h : ∀ q ∈ places, f' (q.extend more) = (f q).map (·.extend more)) :
    (places.map (·.extend more)).findSome? f' = (places.findSome? f).map (·.extend more) := by
  induction places with
  | nil => rfl
  | cons place places ih =>
    obtain ⟨hplace, hplaces⟩ := List.forall_mem_cons.mp h
    rw [List.map_cons, List.findSome?_cons, List.findSome?_cons, hplace]
    cases f place with
    | some done => rfl
    | none => exact ih hplaces

/-! ### Attempts -/

theorem anchor_extend (a : Anchor) (place : Cursor) (more : Text) (h : place.rest ≠ []) :
    a.holds (place.extend more) = a.holds place := by
  obtain ⟨c, rest, hrest⟩ := List.exists_cons_of_ne_nil h
  have hhead : (place.extend more).rest.head? = place.rest.head? := by
    rw [Cursor.extend, hrest]
    rfl
  cases a with
  | wordBoundary => rw [Anchor.holds, Anchor.holds, hhead]; rfl
  | lineStart => rfl
  | lineEnd => rw [Anchor.holds, Anchor.holds, hhead]

/-- A text starts with given characters also when it is made longer; with others only if they reach into
what is added. -/
theorem dropStart?_extend (needle t more : Text) :
    Text.dropStart? needle (t ++ more) = (Text.dropStart? needle t).map (· ++ more) ∨
      Text.dropStart? needle t = none ∧ ∀ rest, Text.dropStart? needle (t ++ more) = some rest → rest <:+ more := by
  cases hdrop : Text.dropStart? needle t with
  | some rest =>
    rw [Text.dropStart?_eq_some needle t rest hdrop, List.append_assoc, Text.dropStart?_append]
    exact Or.inl rfl
  | none =>
    refine Or.inr ⟨rfl, fun rest hrest => ?_⟩
    obtain ⟨within, hneedle, hmore⟩ | ⟨within, ht, hrest'⟩ :=
      List.append_eq_append_iff.mp (Text.dropStart?_eq_some needle (t ++ more) rest hrest)
    · exact ⟨within, hmore.symm⟩
    · rw [ht, Text.dropStart?_append] at hdrop
      cases hdrop

namespace Extends

variable {more : Text} {p : Progress} {next next' : Progress → Option Progress} {fuel fuel' : Nat}

theorem extend_suffix (hp : p.place.rest = []) : (p.extend more).place.rest <:+ more := by
  have hmore : (p.extend more).place.rest = more := by
    rw [Progress.extend, Cursor.extend, hp, List.nil_append]
  exact ⟨[], hmore⟩

/-- At the end of the text nothing succeeds, nor behind it. -/
theorem attempt_end (h : Extends more p.place next next') (r : Regex) (hp : p.place.rest = []) :
    r.attempt fuel' (p.extend more) next' = (r.attempt fuel p next).map (·.extend more) := by
  rw [h.attempt_ends fuel r p hp, h.attempt_stops fuel' r _ (extend_suffix hp)]
  rfl

theorem tryRounds_end (h : Extends more p.place next next') (body : Regex) (rounds rounds' : Nat)
    (hp : p.place.rest = []) :
    tryRounds (body.attempt fuel') next' rounds' (p.extend more) =
      (tryRounds (body.attempt fuel) next rounds p).map (·.extend more) := by
  rw [h.tryRounds_ends rounds fuel body p hp, h.tryRounds_stops rounds' fuel' body _ (extend_suffix hp)]
  rfl

theorem attempt_literal (h : Extends more p.place next next') (text : Text) :
    (Regex.literal text).attempt fuel' (p.extend more) next' =
      ((Regex.literal text).attempt fuel p next).map (·.extend more) := by
  rw [attempt, attempt]
  have hrest : (p.extend more).place.rest = p.place.rest ++ more := rfl
  obtain hdrop | ⟨hdrop, hsuffix⟩ := dropStart?_extend text p.place.rest more
  · rw [hrest, hdrop]
    cases hfound : Text.dropStart? text p.place.rest with
    | none => rfl
    | some rest =>
      have hpasses := p.place.passes_text text rest (Text.dropStart?_eq_some text _ rest hfound)
      exact h.same ⟨_, p.groups⟩ ⟨text, hpasses⟩
  · rw [hrest, hdrop]
    cases hfound : Text.dropStart? text (p.place.rest ++ more) with
    | none => rfl
    | some rest => exact h.stops _ (hsuffix rest hfound)

theorem attempt_one (h : Extends more p.place next next') (accepts : Char → Bool) :
    (Regex.one accepts).attempt fuel' (p.extend more) next' =
      ((Regex.one accepts).attempt fuel p next).map (·.extend more) := by
  by_cases hend : p.place.rest = []
  · exact h.attempt_end _ hend
  obtain ⟨c, rest, hrest⟩ := List.exists_cons_of_ne_nil hend
  have hrest' : (p.extend more).place.rest = c :: (rest ++ more) := by
    rw [Progress.extend, Cursor.extend, hrest]
    rfl
  rw [attempt, attempt, hrest, hrest']
  dsimp only
  split
  · exact h.same ⟨p.place.past c rest, p.groups⟩ (p.place.reaches_past c rest hrest)
  · rfl

theorem attempt_many (h : Extends more p.place next next') (accepts : Char → Bool) :
    (Regex.run .many accepts).attempt fuel' (p.extend more) next' =
      ((Regex.run .many accepts).attempt fuel p next).map (·.extend more) := by
  obtain ⟨added, hadded, hsuffix⟩ := farthestFirst_extend accepts more [] p.place p.place.rest rfl
  have hnone : added.findSome? (fun place => next' ⟨place, (p.extend more).groups⟩) = none :=
    List.findSome?_eq_none_iff.mpr fun q hq => h.stops _ (hsuffix q hq)
  have hplaces : farthestFirst accepts [] (p.extend more).place (p.extend more).place.rest =
      added ++ (farthestFirst accepts [] p.place p.place.rest).map (·.extend more) := hadded
  rw [attempt, attempt, hplaces, List.findSome?_append, hnone, Option.none_or]
  refine findSome?_extend more _ _ _ fun q hq => ?_
  obtain ⟨passed, -, hpassed⟩ := farthestFirst_passes accepts [] p.place p.place [] (.refl _)
    (List.forall_mem_nil _) (List.forall_mem_nil _) p.place.rest rfl q hq
  exact h.same ⟨q, p.groups⟩ ⟨passed, hpassed⟩

theorem attempt_few (h : Extends more p.place next next') (accepts : Char → Bool) :
    (Regex.run .few accepts).attempt fuel' (p.extend more) next' =
      ((Regex.run .few accepts).attempt fuel p next).map (·.extend more) := by
  rw [attempt, attempt]
  exact nearestFirst_extend accepts more _ _ p.place p.place.rest rfl
    (fun q hq => h.same ⟨q, p.groups⟩ hq) (fun q hq => h.ends _ hq) fun q hq => h.stops _ hq

theorem attempt_all (h : Extends more p.place next next') (accepts : Char → Bool) :
    (Regex.all accepts).attempt fuel' (p.extend more) next' =
      ((Regex.all accepts).attempt fuel p next).map (·.extend more) := by
  rw [attempt, attempt]
  change next' ⟨pastAll accepts (p.place.extend more) (p.place.rest ++ more), (p.extend more).groups⟩ = _
  obtain hpast | ⟨hend, hsuffix⟩ := pastAll_extend accepts more p.place p.place.rest rfl
  · obtain ⟨passed, -, hpassed⟩ := pastAll_passes accepts p.place p.place.rest rfl
    rw [hpast]
    exact h.same ⟨pastAll accepts p.place p.place.rest, p.groups⟩ ⟨passed, hpassed⟩
  · rw [h.stops _ hsuffix, h.ends _ hend]
    rfl

theorem attempt_anchor (h : Extends more p.place next next') (a : Anchor) :
    (Regex.anchor a).attempt fuel' (p.extend more) next' =
      ((Regex.anchor a).attempt fuel p next).map (·.extend more) := by
  by_cases hend : p.place.rest = []
  · exact h.attempt_end _ hend
  rw [attempt, attempt]
  change (if a.holds (p.place.extend more) then _ else _) = _
  rw [anchor_extend a p.place more hend]
  split
  · exact h.same p (.refl p.place)
  · rfl

end Extends

/-- Rounds of an expression that goes the same way in a longer text. -/
theorem tryRounds_extend {more : Text} {fuel fuel' : Nat} (body : Regex)
    (hbody : ∀ (p : Progress) (next next' : Progress → Option Progress), Extends more p.place next next' →
      p.place.rest.length ≤ fuel → p.place.rest.length + more.length ≤ fuel' →
      body.attempt fuel' (p.extend more) next' = (body.attempt fuel p next).map (·.extend more))
    (next next' : Progress → Option Progress) (rounds rounds' : Nat) (p : Progress)
    (h : Extends more p.place next next') (hfuel : p.place.rest.length ≤ fuel)
    (hfuel' : p.place.rest.length + more.length ≤ fuel') (hrounds : p.place.rest.length ≤ rounds)
    (hrounds' : p.place.rest.length + more.length ≤ rounds') :
    tryRounds (body.attempt fuel') next' rounds' (p.extend more) =
      (tryRounds (body.attempt fuel) next rounds p).map (·.extend more) := by
  by_cases hend : p.place.rest = []
  · exact h.tryRounds_end body rounds rounds' hend
  have hpos := List.length_pos_iff.mpr hend
  induction rounds generalizing p rounds' with
  | zero => omega
  | succ rounds ih =>
    obtain ⟨rounds', rfl⟩ : ∃ n, rounds' = n + 1 := ⟨rounds' - 1, by omega⟩
    -- behind a round the text is shorter, so fewer rounds are enough
    have hagain := hbody p (fun q => if p.place.offset < q.place.offset then
        tryRounds (body.attempt fuel) next rounds q else none)
      (fun q => if (p.extend more).place.offset < q.place.offset then
        tryRounds (body.attempt fuel') next' rounds' q else none)
      ⟨fun q hq => ?_, fun q hq => ?_, fun q hq => ?_⟩ hfuel hfuel'
    · rw [tryRounds, tryRounds, hagain]
      cases body.attempt fuel p _ with
      | some done => rfl
      | none => exact h.same p (.refl p.place)
    · change (if p.place.offset < q.place.offset then _ else _) = _
      split
      · next hlt =>
        have hlength := hq.length_lt hlt
        by_cases hqend : q.place.rest = []
        · exact (h.behind hq).tryRounds_end body rounds rounds' hqend
        · exact ih rounds' q (h.behind hq) (by omega) (by omega) (by omega) (by omega) hqend
            (List.length_pos_iff.mpr hqend)
      · rfl
    · rw [h.tryRounds_ends rounds fuel body q hq, ite_self]
    · rw [h.tryRounds_stops rounds' fuel' body q hq, ite_self]

/-- An attempt goes the same way in a longer text. -/
theorem attempt_extend {more : Text} {fuel fuel' : Nat} (r : Regex) (p : Progress)
    (next next' : Progress → Option Progress) (h : Extends more p.place next next')
    (hfuel : p.place.rest.length ≤ fuel) (hfuel' : p.place.rest.length + more.length ≤ fuel') :
    r.attempt fuel' (p.extend more) next' = (r.attempt fuel p next).map (·.extend more) := by
  induction r generalizing p next next' with
  | empty => exact h.same p (.refl p.place)
  | literal text => exact h.attempt_literal text
  | one accepts => exact h.attempt_one accepts
  | run greed accepts =>
    cases greed with
    | many => exact h.attempt_many accepts
    | few => exact h.attempt_few accepts
  | all accepts => exact h.attempt_all accepts
  | seq first second ih ih' =>
    rw [attempt, attempt]
    refine ih p _ _ ⟨fun q hq => ?_, fun q hq => ?_, fun q hq => ?_⟩ hfuel hfuel'
    · have hlength := hq.length_le
      exact ih' q next next' (h.behind hq) (by omega) (by omega)
    · exact h.attempt_ends fuel second q hq
    · exact h.attempt_stops fuel' second q hq
  | alt preferred other ih ih' =>
    rw [attempt, attempt, ih p next next' h hfuel hfuel']
    cases attempt fuel preferred p next with
    | some done => rfl
    | none => exact ih' p next next' h hfuel hfuel'
  | rounds body ih =>
    rw [attempt, attempt]
    exact tryRounds_extend body ih next next' fuel fuel' p h hfuel hfuel' hfuel hfuel'
  | group label body ih =>
    rw [attempt, attempt]
    refine ih p _ _ ⟨fun q hq => ?_, fun q hq => ?_, fun q hq => ?_⟩ hfuel hfuel'
    · exact h.same { q with groups := (label, ⟨p.place, q.place.offset⟩) :: q.groups } hq
    · exact h.ends _ hq
    · exact h.stops _ hq
  | anchor a => exact h.attempt_anchor a

/-! ### Scans -/

section

variable {more : Text} {accepts : Char → Bool} (hmore : ∀ c ∈ more, accepts c = false)

include hmore

/-- A last character that the added text does not have. -/
theorem extends_one (fuel fuel' : Nat) (place : Cursor) :
    Extends more place (fun q => (Regex.one accepts).attempt fuel q some)
      (fun q => (Regex.one accepts).attempt fuel' q some) := by
  have hends : ∀ q : Progress, q.place.rest = [] → (Regex.one accepts).attempt fuel q some = none := by
    intro q hq
    rw [attempt, hq]
  have hstops : ∀ q : Progress, q.place.rest <:+ more → (Regex.one accepts).attempt fuel' q some = none := by
    intro q hq
    rw [attempt]
    split
    · rfl
    · next c rest hrest =>
      rw [hmore c (hq.subset (hrest ▸ List.mem_cons_self)), if_neg Bool.false_ne_true]
  refine ⟨fun q _ => ?_, hends, hstops⟩
  cases hrest : q.place.rest with
  | nil =>
    rw [hends q hrest, hstops _ (Extends.extend_suffix hrest)]
    rfl
  | cons c rest =>
    have hrest' : (q.extend more).place.rest = c :: (rest ++ more) := by
      rw [Progress.extend, Cursor.extend, hrest]
      rfl
    rw [attempt, attempt, hrest, hrest']
    dsimp only
    split <;> rfl

variable (r : Regex)

theorem matchAt?_extend {fuel fuel' : Nat} (place : Cursor) (hfuel : place.rest.length ≤ fuel)
    (hfuel' : place.rest.length + more.length ≤ fuel') :
    (r ++ Regex.one accepts).matchAt? fuel' (place.extend more) =
      ((r ++ Regex.one accepts).matchAt? fuel place).map (·.extend more) := by
  have hattempt := attempt_extend r ⟨place, []⟩ _ _ (extends_one hmore fuel fuel' place) hfuel hfuel'
  have hgo : ∀ (n : Nat) (q : Progress), (r ++ Regex.one accepts).attempt n q some =
      r.attempt n q fun q => (Regex.one accepts).attempt n q some := fun _ _ => rfl
  rw [matchAt?, matchAt?, hgo, hgo]
  change (r.attempt fuel' (Progress.extend ⟨place, []⟩ more) _).map _ = _
  rw [hattempt, Option.map_map, Option.map_map]
  rfl

theorem matchAt?_stops (fuel : Nat) (place : Cursor) (h : place.rest <:+ more) :
    (r ++ Regex.one accepts).matchAt? fuel place = none := by
  have hattempt := (extends_one hmore 0 fuel place).attempt_stops fuel r ⟨place, []⟩ h
  exact congrArg (Option.map _) hattempt

theorem scanFrom_stops (after : Match → Nat) (fuel resume : Nat) (place : Cursor) (rest : Text)
    (hrest : place.rest = rest) (h : rest <:+ more) :
    (r ++ Regex.one accepts).scanFrom after fuel resume place rest = [] := by
  induction rest generalizing place with
  | nil =>
    rw [scanFrom, matchAt?_stops hmore r fuel place (hrest ▸ h)]
    split <;> rfl
  | cons c rest ih =>
    have hlater := ih (place.past c rest) rfl ((List.suffix_cons c rest).trans h)
    rw [scanFrom, matchAt?_stops hmore r fuel place (hrest ▸ h)]
    split <;> exact hlater

theorem scanFrom_extend {fuel fuel' : Nat} (resume : Nat) (place : Cursor) (rest : Text)
    (hrest : place.rest = rest) (hfuel : rest.length ≤ fuel) (hfuel' : rest.length + more.length ≤ fuel') :
    (r ++ Regex.one accepts).scanFrom (·.stop.offset) fuel' resume (place.extend more) (rest ++ more) =
      ((r ++ Regex.one accepts).scanFrom (·.stop.offset) fuel resume place rest).map (·.extend more) := by
  induction rest generalizing resume place with
  | nil =>
    have hplace : (place.extend more).rest = more := by rw [Cursor.extend, hrest, List.nil_append]
    rw [List.nil_append, scanFrom_stops hmore r _ fuel' resume _ more hplace (List.suffix_refl more),
      scanFrom_stops hmore r _ fuel resume place [] hrest List.nil_suffix]
    rfl
  | cons c rest ih =>
    have hlength : place.rest.length = rest.length + 1 := hrest ▸ List.length_cons
    rw [List.length_cons] at hfuel hfuel'
    have hmatch := matchAt?_extend hmore r place (hlength ▸ hfuel) (hlength ▸ hfuel')
    have hlater := fun resume => ih resume (place.past c rest) rfl (by omega) (by omega)
    rw [List.cons_append, scanFrom, scanFrom, hmatch]
    change (if place.offset < resume then _ else _) = _
    split
    · exact hlater resume
    · cases (r ++ Regex.one accepts).matchAt? fuel place with
      | none => exact hlater resume
      | some m => exact congrArg (m.extend more :: ·) (hlater m.stop.offset)

/-- An expression whose last character the added text does not have finds the same matches as before. -/
theorem findAllFrom_extend (place : Cursor) :
    (r ++ Regex.one accepts).findAllFrom (place.extend more) =
      ((r ++ Regex.one accepts).findAllFrom place).map (·.extend more) :=
  scanFrom_extend hmore r 0 place place.rest rfl (Nat.le_refl _)
    (Nat.le_of_eq List.length_append.symm)

end

end Regex

/-! ### Groups of a match -/

theorem Span.extend_text (s : Span) (more : Text) (h : s.Stops) : (s.extend more).text = s.text := by
  obtain ⟨stop, ⟨passed, hpassed⟩, hstop⟩ := h
  have hwidth : s.stop - s.start.offset = passed.width := by
    rw [hstop, hpassed.offset, Nat.add_sub_cancel_left]
  have hrest : (s.extend more).start.rest = passed ++ (stop.rest ++ more) := by
    rw [Span.extend, Cursor.extend, hpassed.rest, List.append_assoc]
  rw [Span.text, Span.text, hrest, hpassed.rest]
  change Text.takeBytes _ (s.stop - s.start.offset) = _
  rw [hwidth, Text.takeBytes_width, Text.takeBytes_width]

namespace Match

theorem extend_span? (m : Match) (more : Text) (label : Nat) :
    (m.extend more).span? label = (m.span? label).map (·.extend more) := by
  rw [span?, span?, extend]
  induction m.groups with
  | nil => rfl
  | cons g groups ih =>
    rw [List.map_cons, List.lookup_cons, List.lookup_cons]
    split
    · rfl
    · exact ih

theorem extend_has (m : Match) (more : Text) (label : Nat) : (m.extend more).has label = m.has label := by
  rw [has, has, extend_span?, Option.isSome_map]

theorem extend_groupStart (m : Match) (more : Text) (label : Nat) :
    (m.extend more).groupStart label = m.groupStart label := by
  rw [groupStart, groupStart, extend_span?, Option.map_map]
  rfl

theorem extend_group? (m : Match) (more : Text) (h : ∀ g ∈ m.groups, g.2.Stops) (label : Nat) :
    (m.extend more).group? label = m.group? label := by
  rw [group?, group?, extend_span?, Option.map_map]
  refine Option.map_congr fun s hs => ?_
  obtain ⟨later, earlier, hgroups, -⟩ := List.lookup_eq_some_iff.mp hs
  exact s.extend_text more (h (label, s) (hgroups ▸ List.mem_append_right later List.mem_cons_self))

theorem extend_group (m : Match) (more : Text) (h : ∀ g ∈ m.groups, g.2.Stops) (label : Nat) :
    (m.extend more).group label = m.group label := by
  rw [group, group, extend_group? m more h]

theorem extend_text (m : Match) (more : Text) (h : m.start.Reaches m.stop) :
    (m.extend more).text = m.text :=
  Span.extend_text ⟨m.start, m.stop.offset⟩ more ⟨m.stop, h, rfl⟩

end Match

end CodeIndex
