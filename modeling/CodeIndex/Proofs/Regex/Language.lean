import CodeIndex.Proofs.Regex.Scan

/-!
# Beginnings of matches

What an expression accepts is known by its first character before anything is tried: an expression that
must pass some character refuses every place that none of its first characters follows.
-/

namespace CodeIndex.Regex

/-! ### Accepted texts of built expressions -/

@[simp] theorem accepts_append (r s : Regex) (passed : Text) :
    (r ++ s).Accepts passed ↔ ∃ u v, r.Accepts u ∧ s.Accepts v ∧ passed = u ++ v := Iff.rfl

@[simp] theorem accepts_one (accepts : Char → Bool) (passed : Text) :
    (Regex.one accepts).Accepts passed ↔ ∃ c, accepts c = true ∧ passed = [c] := Iff.rfl

@[simp] theorem accepts_run (greed : Greed) (accepts : Char → Bool) (passed : Text) :
    (Regex.run greed accepts).Accepts passed ↔ ∀ c ∈ passed, accepts c = true := Iff.rfl

@[simp] theorem accepts_char (c : Char) (passed : Text) : (char c).Accepts passed ↔ passed = [c] := by
  simp only [char, accepts_one, beq_iff_eq, exists_eq_left]

/-- One or more characters of a class. -/
theorem accepts_some1 (accepts : Char → Bool) (passed : Text) :
    (some1 accepts).Accepts passed ↔ passed ≠ [] ∧ ∀ c ∈ passed, accepts c = true := by
  simp only [some1, accepts_append, accepts_one, accepts_run]
  constructor
  · rintro ⟨_, v, ⟨c, hc, rfl⟩, hv, rfl⟩
    exact ⟨List.cons_ne_nil c v, List.forall_mem_cons.mpr ⟨hc, hv⟩⟩
  · rintro ⟨hne, hall⟩
    obtain ⟨c, v, rfl⟩ := List.exists_cons_of_ne_nil hne
    obtain ⟨hc, hv⟩ := List.forall_mem_cons.mp hall
    exact ⟨[c], v, ⟨c, hc, rfl⟩, hv, rfl⟩

/-! ### First characters -/

/-- Whether an expression may pass nothing. -/
def mayPassNothing : Regex → Bool
  | .empty => true
  | .literal text => text.isEmpty
  | .one _ => false
  | .run _ _ => true
  | .all _ => true
  | .seq first second => first.mayPassNothing && second.mayPassNothing
  | .alt preferred other => preferred.mayPassNothing || other.mayPassNothing
  | .rounds _ => true
  | .group _ body => body.mayPassNothing
  | .anchor _ => true

/-- Whether what an expression passes may begin with a character. -/
def mayBegin (c : Char) : Regex → Bool
  | .empty => false
  | .literal text => text.head? == some c
  | .one accepts => accepts c
  | .run _ accepts => accepts c
  | .all accepts => accepts c
  | .seq first second => first.mayBegin c || first.mayPassNothing && second.mayBegin c
  | .alt preferred other => preferred.mayBegin c || other.mayBegin c
  | .rounds body => body.mayBegin c
  | .group _ body => body.mayBegin c
  | .anchor _ => false

theorem mayBegin_some1 (accepts : Char → Bool) (c : Char) : (some1 accepts).mayBegin c = accepts c :=
  Bool.or_false _

/-- Whether what an expression passes begins with characters of a class, if with any. -/
def BeginsIn (r : Regex) (good : Char → Prop) : Prop :=
  ∀ c, r.mayBegin c = true → good c

theorem BeginsIn.seq {r s : Regex} {good : Char → Prop} (h : r.BeginsIn good) (h' : s.BeginsIn good) :
    (r ++ s).BeginsIn good := by
  intro c hc
  obtain hr | hs := Bool.or_eq_true_iff.mp hc
  · exact h c hr
  · exact h' c (Bool.and_eq_true_iff.mp hs).2

/-- What follows an expression that must pass something begins nothing. -/
theorem BeginsIn.seq_of_some {r : Regex} {good : Char → Prop} (h : r.BeginsIn good)
    (hsome : r.mayPassNothing = false) (s : Regex) : (r ++ s).BeginsIn good := by
  intro c hc
  obtain hr | hs := Bool.or_eq_true_iff.mp hc
  · exact h c hr
  · rw [hsome] at hs
    cases hs

theorem BeginsIn.alt {r s : Regex} {good : Char → Prop} (h : r.BeginsIn good) (h' : s.BeginsIn good) :
    (Regex.alt r s).BeginsIn good :=
  fun c hc => (Bool.or_eq_true_iff.mp hc).elim (h c) (h' c)

theorem BeginsIn.opt {r : Regex} {good : Char → Prop} (h : r.BeginsIn good) : (opt r).BeginsIn good :=
  h.alt fun _ hc => nomatch hc

theorem beginsIn_lit {s : String} {good : Char → Prop} (h : ∀ c ∈ s.toList.head?, good c) :
    (lit s).BeginsIn good :=
  fun c hc => h c (beq_iff_eq.mp hc)

theorem mayPassNothing_of_accepts (r : Regex) (h : r.Accepts []) : r.mayPassNothing = true := by
  induction r with
  | empty => rfl
  | literal text =>
    obtain rfl : [] = text := h
    rfl
  | one accepts =>
    obtain ⟨c, -, hc⟩ := h
    cases hc
  | run greed accepts => rfl
  | all accepts => rfl
  | seq first second ih ih' =>
    obtain ⟨u, v, hu, hv, huv⟩ := h
    obtain ⟨rfl, rfl⟩ := List.append_eq_nil_iff.mp huv.symm
    rw [mayPassNothing, ih hu, ih' hv]
    rfl
  | alt preferred other ih ih' =>
    rw [mayPassNothing, Bool.or_eq_true]
    exact h.imp ih ih'
  | rounds body ih => rfl
  | group label body ih => exact ih h
  | anchor a => rfl

theorem mayBegin_of_accepts (r : Regex) (c : Char) (rest : Text) (h : r.Accepts (c :: rest)) :
    r.mayBegin c = true := by
  induction r generalizing rest with
  | empty => cases h
  | literal text =>
    obtain rfl : c :: rest = text := h
    exact beq_self_eq_true _
  | one accepts =>
    obtain ⟨d, hd, he⟩ := h
    cases he
    exact hd
  | run greed accepts => exact h c List.mem_cons_self
  | all accepts => exact h c List.mem_cons_self
  | seq first second ih ih' =>
    obtain ⟨u, v, hu, hv, huv⟩ := h
    rw [mayBegin, Bool.or_eq_true, Bool.and_eq_true]
    cases u with
    | nil =>
      rw [List.nil_append] at huv
      exact Or.inr ⟨mayPassNothing_of_accepts first hu, ih' rest (huv ▸ hv)⟩
    | cons d u =>
      obtain ⟨rfl, -⟩ := List.cons.inj huv
      exact Or.inl (ih u hu)
  | alt preferred other ih ih' =>
    rw [mayBegin, Bool.or_eq_true]
    exact h.imp (ih rest) (ih' rest)
  | rounds body ih =>
    obtain ⟨parts, hparts, hflat⟩ := h
    induction parts with
    | nil => cases hflat
    | cons u parts ihparts =>
      obtain ⟨hu, hlater⟩ := List.forall_mem_cons.mp hparts
      cases u with
      | nil => exact ihparts hlater hflat
      | cons d u =>
        obtain ⟨rfl, -⟩ := List.cons.inj hflat
        exact ih u hu
  | group label body ih => exact ih rest h
  | anchor a => cases h

/-! ### Refused places -/

/-- Whether every attempt at a place fails, whatever is to follow. -/
def Refuses (fuel : Nat) (r : Regex) (p : Cursor) : Prop :=
  ∀ groups next, r.attempt fuel ⟨p, groups⟩ next = none

variable {fuel : Nat} {r : Regex} {p : Cursor}

theorem refuses_of_accepts (h : ∀ passed rest, r.Accepts passed → p.rest ≠ passed ++ rest) :
    r.Refuses fuel p := by
  intro groups next
  cases hdone : r.attempt fuel ⟨p, groups⟩ next with
  | none => rfl
  | some done =>
    obtain ⟨passed, q, hwent, -⟩ := attempt_went fuel r _ done next hdone
    exact absurd hwent.passes.rest (h passed q.place.rest hwent.accepted)

/-- A place is refused where no first character of the expression follows. -/
theorem refuses_of_begin (hsome : r.mayPassNothing = false)
    (hbegin : ∀ c rest, p.rest = c :: rest → r.mayBegin c = false) : r.Refuses fuel p := by
  refine refuses_of_accepts fun passed rest haccepts hrest => ?_
  cases passed with
  | nil =>
    rw [mayPassNothing_of_accepts r haccepts] at hsome
    cases hsome
  | cons c passed =>
    have hc := hbegin c (passed ++ rest) hrest
    rw [mayBegin_of_accepts r c passed haccepts] at hc
    cases hc

theorem refuses_at {d : Char} {rest : Text} (h : p.rest = d :: rest) (hsome : r.mayPassNothing = false)
    (hbegin : r.mayBegin d = false) : r.Refuses fuel p := by
  refine refuses_of_begin hsome fun c later hc => ?_
  obtain ⟨rfl, -⟩ := List.cons.inj (h.symm.trans hc)
  exact hbegin

/-- What follows a run begins outside of its class. -/
theorem outside_head {accepts : Char → Bool} {d : Char} {t : Text} (h : accepts d = false) :
    ∀ c rest, d :: t = c :: rest → accepts c = false := by
  intro c rest hc
  obtain ⟨rfl, -⟩ := List.cons.inj hc
  exact h

/-- A text is parted in one way behind all leading characters of a class. -/
theorem run_unique {accepts : Char → Bool} {a b x y : Text} (h : a ++ x = b ++ y) (ha : ∀ e ∈ a, accepts e = true)
    (hx : x.head?.any accepts = false) (hb : ∀ e ∈ b, accepts e = true) (hy : y.head?.any accepts = false) :
    a = b ∧ x = y := by
  induction a generalizing b with
  | nil =>
    cases b with
    | nil => exact ⟨rfl, h⟩
    | cons e b =>
      obtain rfl : x = e :: (b ++ y) := h
      exact absurd (hb e List.mem_cons_self) (Bool.eq_false_iff.mp hx)
  | cons e a ih =>
    obtain ⟨he, ha⟩ := List.forall_mem_cons.mp ha
    cases b with
    | nil =>
      obtain rfl : e :: (a ++ x) = y := h
      exact absurd he (Bool.eq_false_iff.mp hy)
    | cons e' b =>
      obtain ⟨rfl, hrest⟩ := List.cons.inj h
      obtain ⟨rfl, hxy⟩ := ih hrest ha (List.forall_mem_cons.mp hb).2
      exact ⟨rfl, hxy⟩

/-- A text is parted in one way into characters of a class and what begins with a character outside of it. -/
theorem first_outside_unique {accepts : Char → Bool} {a b x y : Text} {c d : Char}
    (h : a ++ c :: x = b ++ d :: y) (ha : ∀ e ∈ a, accepts e = true) (hc : accepts c = false)
    (hb : ∀ e ∈ b, accepts e = true) (hd : accepts d = false) : a = b ∧ c = d ∧ x = y := by
  obtain ⟨hsame, hrest⟩ := run_unique h ha hc hb hd
  exact ⟨hsame, List.cons.inj hrest⟩

/-- A run of a class, and then a character that the next expression does not begin with. -/
theorem refuses_behind_run {accepts : Char → Bool} {s : Regex}
    (hr : ∀ u, r.Accepts u → ∀ c ∈ u, accepts c = true) (hs : s.mayPassNothing = false)
    (hbegin : ∀ c, s.mayBegin c = true → accepts c = false) {u rest : Text} {d : Char}
    (h : p.rest = u ++ d :: rest) (hu : ∀ c ∈ u, accepts c = true) (hd : accepts d = false)
    (hsd : s.mayBegin d = false) : (r ++ s).Refuses fuel p := by
  refine refuses_of_accepts fun passed later haccepts hrest => ?_
  obtain ⟨a, v, ha, hv, rfl⟩ := haccepts
  cases v with
  | nil =>
    rw [mayPassNothing_of_accepts s hv] at hs
    cases hs
  | cons c v =>
    have hc := mayBegin_of_accepts s c v hv
    rw [h, List.append_assoc, List.cons_append] at hrest
    obtain ⟨-, rfl, -⟩ := first_outside_unique hrest hu hd (hr a ha) (hbegin c hc)
    rw [hc] at hsd
    cases hsd

theorem Refuses.seq (h : r.Refuses fuel p) (s : Regex) : (r ++ s).Refuses fuel p :=
  fun groups _ => h groups _

theorem Refuses.assoc {s t : Regex} (h : (r ++ (s ++ t)).Refuses fuel p) : (r ++ s ++ t).Refuses fuel p :=
  h

/-- An anchor that does not hold. -/
theorem refuses_anchor {a : Anchor} (h : a.holds p = false) : (Regex.anchor a).Refuses fuel p := by
  intro groups next
  rw [attempt, h]
  rfl

theorem Refuses.matchAt? (h : r.Refuses fuel p) : r.matchAt? fuel p = none := by
  rw [Regex.matchAt?, h]
  rfl

/-! ### Matches that pass something -/

/-- A match of an expression that must pass something begins with one of its first characters. -/
theorem matchAt?_begins {m : Match} (h : r.matchAt? fuel p = some m) (hsome : r.mayPassNothing = false) :
    ∃ c passed, p.rest = c :: (passed ++ m.stop.rest) ∧ m.stop = p.after (c :: passed) m.stop.rest ∧
      r.mayBegin c = true := by
  obtain ⟨passed, hrest, hstop, hway⟩ := matchAt?_way h
  cases passed with
  | nil =>
    rw [mayPassNothing_of_accepts r hway.accepts] at hsome
    cases hsome
  | cons c passed => exact ⟨c, passed, hrest, hstop, mayBegin_of_accepts r c passed hway.accepts⟩

theorem matchAt?_passes {m : Match} (h : r.matchAt? fuel p = some m) (hsome : r.mayPassNothing = false) :
    p.offset < m.stop.offset := by
  obtain ⟨c, passed, -, hstop, -⟩ := matchAt?_begins h hsome
  have hpos := c.utf8Size_pos
  rw [hstop, Cursor.after_offset, Text.width]
  omega

end CodeIndex.Regex
