import CodeIndex.Proofs.Regex.Preference

/-!
# A scan step by step

A scan passes over the places where nothing matches, and where an expression takes a text it finds that
match and goes on behind it.

The texts that an expression passes may all lead over characters of a class to a mark, a character outside of
the class. Such an expression is refused all the way up to the first character outside of the class when that
is no mark, so a scan passes over it.
-/

namespace CodeIndex.Regex

section

variable {fuel : Nat} {r : Regex}

/-- The matches from a place on, each starting at or after the end of the one before. -/
def found (r : Regex) (fuel : Nat) (place : Cursor) : List Match :=
  r.scanFrom (·.stop.offset) fuel 0 place place.rest

theorem findAll_eq_found (r : Regex) (t : Text) : r.findAll t = r.found t.length t.start := rfl

/-- A place to resume at that was reached has no effect. -/
theorem scanFrom_resumed (after : Match → Nat) (resume : Nat) (place : Cursor)
    (rest : Text) (h : resume ≤ place.offset) :
    r.scanFrom after fuel resume place rest = r.scanFrom after fuel 0 place rest := by
  induction rest generalizing place with
  | nil => rw [scanFrom, scanFrom, if_neg (Nat.not_lt.mpr h), if_neg (Nat.not_lt_zero _)]
  | cons c rest ih =>
    have hpast : resume ≤ (place.past c rest).offset := Nat.le_add_right_of_le h
    rw [scanFrom, scanFrom, if_neg (Nat.not_lt.mpr h), if_neg (Nat.not_lt_zero _), ih _ hpast]

/-- Nothing is tried before the place to resume at. -/
theorem scanFrom_before (after : Match → Nat) (resume : Nat) (place : Cursor)
    (passed rest : Text) (hplace : place.rest = passed ++ rest)
    (h : place.offset + passed.width ≤ resume) :
    r.scanFrom after fuel resume place (passed ++ rest) =
      r.scanFrom after fuel resume (place.after passed rest) rest := by
  induction passed generalizing place with
  | nil => rw [Cursor.after_nil (show place.rest = rest from hplace), List.nil_append]
  | cons c passed ih =>
    have hpos := c.utf8Size_pos
    rw [Text.width] at h
    rw [List.cons_append, scanFrom, if_pos (by omega), ← place.past_after c passed (passed ++ rest) rest]
    refine ih _ rfl ?_
    change place.offset + c.utf8Size + Text.width passed ≤ resume
    omega

theorem found_of_not_match {place : Cursor} {c : Char} {rest : Text} (h : place.rest = c :: rest)
    (hnone : r.matchAt? fuel place = none) : r.found fuel place = r.found fuel (place.after [c] rest) := by
  rw [found, h, scanFrom, if_neg (Nat.not_lt_zero _), hnone]
  rfl

/-- A scan passes over a text where nothing matches. -/
theorem found_skip (place : Cursor) (passed rest : Text) (h : place.rest = passed ++ rest)
    (hnone : ∀ a c b, passed = a ++ c :: b → r.matchAt? fuel (place.after a (c :: (b ++ rest))) = none) :
    r.found fuel place = r.found fuel (place.after passed rest) := by
  induction passed generalizing place with
  | nil => rw [Cursor.after_nil (show place.rest = rest from h)]
  | cons c passed ih =>
    rw [List.cons_append] at h
    have hhere := hnone [] c passed rfl
    rw [Cursor.after_nil h] at hhere
    rw [found_of_not_match h hhere, ih (place.after [c] (passed ++ rest)) rfl fun a d b hab => ?_,
      Cursor.after_after, List.singleton_append]
    rw [Cursor.after_after, List.singleton_append]
    exact hnone (c :: a) d b (by rw [hab, List.cons_append])

/-- A scan passes over characters that no match begins with. -/
theorem found_skip_begin (hsome : r.mayPassNothing = false) (place : Cursor) (passed rest : Text)
    (h : place.rest = passed ++ rest) (hbegin : ∀ c ∈ passed, r.mayBegin c = false) :
    r.found fuel place = r.found fuel (place.after passed rest) := by
  refine found_skip place passed rest h fun a c b hab => Refuses.matchAt? (refuses_of_begin hsome ?_)
  intro d tail hd
  obtain ⟨rfl, -⟩ := List.cons.inj hd
  exact hbegin c (by rw [hab]; exact List.mem_append_right a List.mem_cons_self)

/-- A scan finds the text that is taken and goes on behind it. -/
theorem found_take {place : Cursor} {passed rest : Text} {added : List (Nat × Span)}
    (h : r.Takes fuel place passed rest added) (hne : passed ≠ []) :
    r.found fuel place =
      ⟨place, place.after passed rest, added⟩ :: r.found fuel (place.after passed rest) := by
  obtain ⟨c, passed, rfl⟩ := List.exists_cons_of_ne_nil hne
  have hmatch := h.matchAt?
  have hstop : (place.past c (passed ++ rest)).offset + Text.width passed =
      (place.after (c :: passed) rest).offset := by
    rw [← place.past_after c passed (passed ++ rest) rest, Cursor.after_offset]
  rw [found, h.ahead, List.cons_append, scanFrom, if_neg (Nat.not_lt_zero _), hmatch]
  refine congrArg (_ :: ·) ?_
  rw [scanFrom_before _ _ _ passed rest rfl (Nat.le_of_eq hstop), Cursor.past_after,
    scanFrom_resumed _ _ _ _ (Nat.le_refl _), found]
  rfl

/-- At the end of a text nothing is found by an expression that must pass something. -/
theorem found_end (hsome : r.mayPassNothing = false) {place : Cursor} (h : place.rest = []) :
    r.found fuel place = [] := by
  have hnone : r.matchAt? fuel place = none := Refuses.matchAt? (refuses_of_begin hsome fun c rest hrest => by
    rw [h] at hrest
    cases hrest)
  rw [found, h, scanFrom, if_neg (Nat.not_lt_zero _), hnone]
  rfl

/-- Nothing is found in a rest that holds no first character of the expression. -/
theorem found_eq_nil (hsome : r.mayPassNothing = false) (place : Cursor)
    (hbegin : ∀ c ∈ place.rest, r.mayBegin c = false) : r.found fuel place = [] := by
  rw [found_skip_begin hsome place place.rest [] (List.append_nil _).symm hbegin]
  exact found_end hsome rfl

/-! ### Texts of matches -/

/-- What a match of a scan passed. -/
theorem findAllFrom_passes (r : Regex) (place : Cursor) (m : Match) (h : m ∈ r.findAllFrom place) :
    place.Reaches m.start ∧ ∃ passed, r.Accepts passed ∧ m.start.Passes passed m.stop := by
  obtain ⟨-, hreach, hm⟩ := r.scanFrom_mem (·.stop.offset) _ 0 place _ rfl m h
  obtain ⟨done, hdone, hmatch⟩ := Option.map_eq_some_iff.mp hm
  obtain ⟨passed, q, hwent, hq⟩ := attempt_went _ r _ done some hdone
  obtain rfl := Option.some.inj hq
  refine ⟨hreach, passed, hwent.accepted, ?_⟩
  rw [← hmatch]
  exact hwent.passes

/-- Nothing is found in a text without the characters that every accepted text has. -/
theorem findAllFrom_eq_nil (r : Regex) (place : Cursor)
    (h : ∀ passed, r.Accepts passed → ∃ c ∈ passed, c ∉ place.rest) : r.findAllFrom place = [] := by
  refine List.eq_nil_iff_forall_not_mem.mpr fun m hm => ?_
  obtain ⟨⟨before, hbefore⟩, passed, haccepts, hpasses⟩ := r.findAllFrom_passes place m hm
  obtain ⟨c, hc, hnot⟩ := h passed haccepts
  refine hnot ?_
  rw [hbefore.rest, hpasses.rest]
  exact List.mem_append_right before (List.mem_append_left _ hc)

end

/-! ### Marks behind a run -/

section

variable {r s : Regex} {inside marks : Char → Bool}

/-- Whether an expression passes only characters of a class. -/
def Within (r : Regex) (inside : Char → Bool) : Prop :=
  ∀ passed, r.Accepts passed → ∀ c ∈ passed, inside c = true

/-- Whether everything that an expression passes leads over characters of a class to a mark. -/
def Meets (r : Regex) (inside marks : Char → Bool) : Prop :=
  ∀ passed, r.Accepts passed → ∃ u c v, passed = u ++ c :: v ∧ (∀ d ∈ u, inside d = true) ∧ marks c = true

/-! ### Characters of a class -/

theorem Within.seq (h : r.Within inside) (h' : s.Within inside) : (r ++ s).Within inside := by
  rintro _ ⟨u, v, hu, hv, rfl⟩
  exact List.forall_mem_append.mpr ⟨h u hu, h' v hv⟩

theorem Within.alt (h : r.Within inside) (h' : s.Within inside) : (Regex.alt r s).Within inside :=
  fun passed haccepts => haccepts.elim (h passed) (h' passed)

theorem Within.opt (h : r.Within inside) : (opt r).Within inside :=
  h.alt fun passed hnil => by
    obtain rfl : passed = [] := hnil
    exact List.forall_mem_nil _

theorem Within.group (h : r.Within inside) (label : Nat) : (Regex.group label r).Within inside := h

theorem within_run {accepts : Char → Bool} (h : ∀ c, accepts c = true → inside c = true) (greed : Greed) :
    (Regex.run greed accepts).Within inside :=
  fun _ haccepts c hc => h c (haccepts c hc)

theorem within_some1 {accepts : Char → Bool} (h : ∀ c, accepts c = true → inside c = true) :
    (some1 accepts).Within inside :=
  fun passed haccepts c hc => h c (((accepts_some1 accepts passed).mp haccepts).2 c hc)

theorem within_lit {s : String} (h : s.toList.all inside = true) : (lit s).Within inside := by
  rintro passed rfl
  exact List.all_eq_true.mp h

theorem within_char {c : Char} (h : inside c = true) : (char c).Within inside := by
  intro passed haccepts
  rw [(accepts_char c passed).mp haccepts]
  exact List.forall_mem_singleton.mpr h

/-! ### Marks -/

theorem Within.meets (h : r.Within inside) (h' : s.Meets inside marks) : (r ++ s).Meets inside marks := by
  rintro _ ⟨w, x, hw, hx, rfl⟩
  obtain ⟨u, c, v, rfl, hu, hc⟩ := h' x hx
  exact ⟨w ++ u, c, v, (List.append_assoc ..).symm, List.forall_mem_append.mpr ⟨h w hw, hu⟩, hc⟩

theorem Meets.seq (h : r.Meets inside marks) (s : Regex) : (r ++ s).Meets inside marks := by
  rintro _ ⟨w, x, hw, hx, rfl⟩
  obtain ⟨u, c, v, rfl, hu, hc⟩ := h w hw
  exact ⟨u, c, v ++ x, by rw [List.append_assoc, List.cons_append], hu, hc⟩

/-- Each alternative leads to a mark with what follows. -/
theorem Meets.alt_seq {t : Regex} (h : (r ++ t).Meets inside marks) (h' : (s ++ t).Meets inside marks) :
    (Regex.alt r s ++ t).Meets inside marks := by
  rintro _ ⟨w, x, hw, hx, rfl⟩
  rcases hw with hw | hw
  · exact h _ ⟨w, x, hw, hx, rfl⟩
  · exact h' _ ⟨w, x, hw, hx, rfl⟩

/-- An option leads to a mark, or what follows it does. -/
theorem Meets.opt_seq (h : r.Meets inside marks) (h' : s.Meets inside marks) :
    (opt r ++ s).Meets inside marks :=
  (h.seq s).alt_seq fun _ ⟨_, x, hnothing, hx, hpassed⟩ => by
    obtain rfl := hnothing
    exact hpassed ▸ h' x hx

theorem Meets.group (h : r.Meets inside marks) (label : Nat) : (Regex.group label r).Meets inside marks := h

theorem Meets.assoc {t : Regex} (h : (r ++ (s ++ t)).Meets inside marks) : (r ++ s ++ t).Meets inside marks := by
  rintro _ ⟨_, z, ⟨x, y, hx, hy, rfl⟩, hz, rfl⟩
  exact h _ ⟨x, y ++ z, hx, ⟨y, z, hy, hz, rfl⟩, List.append_assoc ..⟩

theorem meets_one {accepts : Char → Bool} (h : ∀ c, accepts c = true → marks c = true) :
    (Regex.one accepts).Meets inside marks := by
  rintro _ ⟨c, hc, rfl⟩
  exact ⟨[], c, [], rfl, List.forall_mem_nil _, h c hc⟩

theorem meets_char {c : Char} (h : marks c = true) : (char c).Meets inside marks :=
  meets_one fun d hd => by rwa [beq_iff_eq.mp hd]

variable {fuel : Nat} {p : Cursor}

/-- No place up to a character that is neither of the class nor a mark. -/
theorem Meets.refuses (h : r.Meets inside marks) (hmarks : ∀ c, marks c = true → inside c = false) {u rest : Text}
    {d : Char} (hplace : p.rest = u ++ d :: rest) (hu : ∀ c ∈ u, inside c = true)
    (hd : inside d = false ∧ marks d = false) : r.Refuses fuel p := by
  refine refuses_of_accepts fun passed later haccepts hrest => ?_
  obtain ⟨w, c, v, rfl, hw, hc⟩ := h passed haccepts
  rw [hplace, List.append_assoc, List.cons_append] at hrest
  obtain ⟨-, rfl, -⟩ := first_outside_unique hrest hu hd.1 hw (hmarks c hc)
  rw [hc] at hd
  cases hd.2

/-- A scan passes over a text without marks in front of a character that is neither of the class nor a mark. -/
theorem Meets.found_pass (h : r.Meets inside marks) (hmarks : ∀ c, marks c = true → inside c = false)
    {u rest : Text} {d : Char} (hplace : p.rest = u ++ d :: rest) (hu : ∀ c ∈ u, marks c = false)
    (hd : inside d = false ∧ marks d = false) : r.found fuel p = r.found fuel (p.after u (d :: rest)) := by
  have hstop : ∀ v : Text, (∀ c ∈ v, marks c = false) → ∃ w e later, v ++ d :: rest = w ++ e :: later ∧
      (∀ c ∈ w, inside c = true) ∧ inside e = false ∧ marks e = false := by
    intro v hv
    induction v with
    | nil => exact ⟨[], d, rest, rfl, List.forall_mem_nil _, hd⟩
    | cons c v ih =>
      obtain ⟨hc, hv⟩ := List.forall_mem_cons.mp hv
      cases hinside : inside c with
      | false => exact ⟨[], c, v ++ d :: rest, rfl, List.forall_mem_nil _, hinside, hc⟩
      | true =>
        obtain ⟨w, e, later, hsplit, hw, he⟩ := ih hv
        exact ⟨c :: w, e, later, congrArg (c :: ·) hsplit, List.forall_mem_cons.mpr ⟨hinside, hw⟩, he⟩
  refine Regex.found_skip p u _ hplace fun a c b hab => Refuses.matchAt? ?_
  obtain ⟨w, e, later, hsplit, hw, he⟩ := hstop (c :: b) fun e he => hu e (by
    rw [hab]
    exact List.mem_append_right a he)
  exact h.refuses hmarks hsplit hw he

/-- A scan passes over the characters in front of one that is neither of the class nor a mark. -/
theorem Meets.found_skip (h : r.Meets inside marks) (hmarks : ∀ c, marks c = true → inside c = false)
    {u rest : Text} {d : Char} (hplace : p.rest = u ++ d :: rest) (hu : ∀ c ∈ u, inside c = true)
    (hd : inside d = false ∧ marks d = false) : r.found fuel p = r.found fuel (p.after u (d :: rest)) :=
  h.found_pass hmarks hplace (fun c hc => Bool.eq_false_iff.mpr fun hmark =>
    Bool.false_ne_true ((hmarks c hmark).symm.trans (hu c hc))) hd

end

end CodeIndex.Regex
