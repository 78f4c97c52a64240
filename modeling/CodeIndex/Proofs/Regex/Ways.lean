import CodeIndex.Proofs.Regex.Places
import CodeIndex.Regex.Scan

/-!
# Ways of an expression

An expression may lead over a text in several ways, each with the groups that it closes and the conditions that
it meets. Every successful attempt took one of them, so what a match passed and what it holds in its groups is
read off the expression, whatever was tried before.
-/

namespace CodeIndex

namespace Regex

/-! ### Ways -/

/-- Ways of rounds, one behind the other. -/
inductive RoundsWay (way : Cursor → Text → Text → List (Nat × Span) → Prop) :
    Cursor → Text → Text → List (Nat × Span) → Prop where
  | none (p : Cursor) (rest : Text) : RoundsWay way p [] rest []
  | round {p : Cursor} {u v rest : Text} {a b : List (Nat × Span)} (h : way p u (v ++ rest) a)
      (more : RoundsWay way (p.after u (v ++ rest)) v rest b) : RoundsWay way p (u ++ v) rest (b ++ a)

/-- Whether one of the ways of an expression leads from a place over `passed` in front of `rest`, with the given
groups closed, the latest first. -/
def Way : Regex → Cursor → Text → Text → List (Nat × Span) → Prop
  | .empty, _, passed, _, added => passed = [] ∧ added = []
  | .literal text, _, passed, _, added => passed = text ∧ added = []
  | .one accepts, _, passed, _, added => (∃ c, accepts c = true ∧ passed = [c]) ∧ added = []
  | .run _ accepts, _, passed, _, added => (∀ c ∈ passed, accepts c = true) ∧ added = []
  | .all accepts, _, passed, _, added => (∀ c ∈ passed, accepts c = true) ∧ added = []
  | .seq first second, p, passed, rest, added =>
    ∃ u v a b, passed = u ++ v ∧ added = b ++ a ∧ first.Way p u (v ++ rest) a ∧
      second.Way (p.after u (v ++ rest)) v rest b
  | .alt preferred other, p, passed, rest, added =>
    preferred.Way p passed rest added ∨ other.Way p passed rest added
  | .rounds body, p, passed, rest, added => RoundsWay body.Way p passed rest added
  | .group label body, p, passed, rest, added =>
    ∃ a, added = (label, ⟨p, p.offset + passed.width⟩) :: a ∧ body.Way p passed rest a
  | .anchor a, p, passed, _, added => passed = [] ∧ added = [] ∧ a.holds p = true

/-- Whether what follows succeeds behind one of the ways of an expression. -/
def Succeeds (r : Regex) (p : Progress) (next : Progress → Option Progress) (done : Progress) : Prop :=
  ∃ passed rest added, p.place.rest = passed ++ rest ∧ r.Way p.place passed rest added ∧
    next ⟨p.place.after passed rest, added ++ p.groups⟩ = some done

variable {r s : Regex} {fuel : Nat} {p done : Progress} {next : Progress → Option Progress}

theorem Succeeds.of_passes {passed : Text} {place : Cursor} (hpasses : p.place.Passes passed place)
    (hway : ∀ rest, r.Way p.place passed rest []) (hnext : next { p with place := place } = some done) :
    r.Succeeds p next done := by
  obtain ⟨hrest, hplace⟩ := hpasses.eq_after
  refine ⟨passed, place.rest, [], hrest, hway _, ?_⟩
  rw [← hplace]
  exact hnext

theorem tryRounds_succeeds {body : Regex} {round : Progress → (Progress → Option Progress) → Option Progress}
    (hround : ∀ p next done, round p next = some done → body.Succeeds p next done) (fuel : Nat)
    (h : tryRounds round next fuel p = some done) : (Regex.rounds body).Succeeds p next done := by
  have hnone : ∀ p, next p = some done → (Regex.rounds body).Succeeds p next done := fun p hnext =>
    .of_passes (.refl p.place) (fun rest => .none p.place rest) hnext
  -- out of fuel, or without another round that moves on, what follows goes on from here
  induction fuel generalizing p with
  | zero => exact hnone p h
  | succ fuel ih =>
    rw [tryRounds] at h
    split at h
    · next hagain =>
      cases h
      obtain ⟨u, later, a, hu, hway, hmore⟩ := hround p _ _ hagain
      dsimp only at hmore
      split at hmore
      · obtain ⟨v, rest, b, hv, hways, hnext⟩ := ih hmore
        obtain rfl : later = v ++ rest := hv
        refine ⟨u ++ v, rest, b ++ a, by rw [hu, List.append_assoc], .round hway hways, ?_⟩
        rw [← Cursor.after_after p.place u v (v ++ rest), List.append_assoc]
        exact hnext
      · cases hmore
    · exact hnone p h

/-- A successful attempt took one of the ways, and `next` succeeded behind it. -/
theorem attempt_succeeds (h : r.attempt fuel p next = some done) : r.Succeeds p next done := by
  induction r generalizing p done next with
  | empty => exact .of_passes (.refl _) (fun _ => ⟨rfl, rfl⟩) h
  | literal text =>
    rw [attempt] at h
    split at h
    · next rest hrest =>
      exact .of_passes (p.place.passes_text text rest (Text.dropStart?_eq_some text _ rest hrest))
        (fun _ => ⟨rfl, rfl⟩) h
    · cases h
  | one accepts =>
    rw [attempt] at h
    split at h
    · cases h
    · next c rest hrest =>
      split at h
      · next hc => exact .of_passes (p.place.passes_past c rest hrest) (fun _ => ⟨⟨c, hc, rfl⟩, rfl⟩) h
      · cases h
  | run greed accepts =>
    cases greed with
    | many =>
      rw [attempt] at h
      obtain ⟨place, hplace, hdone⟩ := List.exists_of_findSome?_eq_some h
      obtain ⟨w, hw, hpasses⟩ := farthestFirst_passes accepts [] p.place p.place [] (.refl _)
        (List.forall_mem_nil _) (List.forall_mem_nil _) p.place.rest rfl place hplace
      exact .of_passes hpasses (fun _ => ⟨hw, rfl⟩) hdone
    | few =>
      rw [attempt] at h
      obtain ⟨w, place, hw, hpasses, hdone⟩ := nearestFirst_passes accepts _ p.place _ rfl done h
      exact .of_passes hpasses (fun _ => ⟨hw, rfl⟩) hdone
  | all accepts =>
    rw [attempt] at h
    obtain ⟨w, hw, hpasses⟩ := pastAll_passes accepts p.place p.place.rest rfl
    exact .of_passes hpasses (fun _ => ⟨hw, rfl⟩) h
  | seq first second ih ih' =>
    rw [attempt] at h
    obtain ⟨u, later, a, hu, hfirst, hmore⟩ := ih h
    obtain ⟨v, rest, b, hv, hsecond, hnext⟩ := ih' hmore
    obtain rfl : later = v ++ rest := hv
    refine ⟨u ++ v, rest, b ++ a, by rw [hu, List.append_assoc], ⟨u, v, a, b, rfl, rfl, hfirst, hsecond⟩, ?_⟩
    rw [← Cursor.after_after p.place u v (v ++ rest), List.append_assoc]
    exact hnext
  | alt preferred other ih ih' =>
    rw [attempt] at h
    split at h
    · next hpreferred =>
      cases h
      obtain ⟨passed, rest, added, hrest, hway, hnext⟩ := ih hpreferred
      exact ⟨passed, rest, added, hrest, Or.inl hway, hnext⟩
    · obtain ⟨passed, rest, added, hrest, hway, hnext⟩ := ih' h
      exact ⟨passed, rest, added, hrest, Or.inr hway, hnext⟩
  | rounds body ih =>
    rw [attempt] at h
    exact tryRounds_succeeds (fun p next done h => ih h) fuel h
  | group label body ih =>
    rw [attempt] at h
    obtain ⟨passed, rest, added, hrest, hway, hnext⟩ := ih h
    exact ⟨passed, rest, _, hrest, ⟨added, rfl, hway⟩, hnext⟩
  | anchor a =>
    rw [attempt] at h
    split at h
    · next hholds => exact .of_passes (.refl _) (fun _ => ⟨rfl, rfl, hholds⟩) h
    · cases h

/-! ### What a way passes -/

theorem Way.accepts {place : Cursor} {passed rest : Text} {added : List (Nat × Span)}
    (h : r.Way place passed rest added) : r.Accepts passed := by
  induction r generalizing place passed rest added with
  | empty => exact h.1
  | literal text => exact h.1
  | one accepts => exact h.1
  | run greed accepts => exact h.1
  | all accepts => exact h.1
  | seq first second ih ih' =>
    obtain ⟨u, v, a, b, rfl, -, hfirst, hsecond⟩ := h
    exact ⟨u, v, ih hfirst, ih' hsecond, rfl⟩
  | alt preferred other ih ih' => exact h.imp ih ih'
  | rounds body ih =>
    induction h with
    | none p rest => exact ⟨[], List.forall_mem_nil _, rfl⟩
    | round hway _ ihmore =>
      obtain ⟨parts, hparts, rfl⟩ := ihmore
      exact ⟨_ :: parts, List.forall_mem_cons.mpr ⟨ih hway, hparts⟩, rfl⟩
  | group label body ih =>
    obtain ⟨a, -, hbody⟩ := h
    exact ih hbody
  | anchor a => exact h.1

theorem advances_bare {place : Cursor} {passed rest : Text} {added : List (Nat × Span)}
    (hrest : place.rest = passed ++ rest) (hadded : added = []) (groups : List (Nat × Span)) :
    (⟨place, groups⟩ : Progress).Advances ⟨place.after passed rest, added ++ groups⟩ := by
  subst hadded
  exact .move ⟨place, groups⟩ _ ⟨passed, Cursor.passes_after hrest⟩

theorem advances_over {place : Cursor} {u v rest : Text} {a b groups : List (Nat × Span)}
    (h : (⟨place, groups⟩ : Progress).Advances ⟨place.after u (v ++ rest), a ++ groups⟩)
    (h' : (⟨place.after u (v ++ rest), a ++ groups⟩ : Progress).Advances
      ⟨(place.after u (v ++ rest)).after v rest, b ++ (a ++ groups)⟩) :
    (⟨place, groups⟩ : Progress).Advances ⟨place.after (u ++ v) rest, b ++ a ++ groups⟩ := by
  rw [← Cursor.after_after place u v (v ++ rest), List.append_assoc]
  exact h.trans h'

/-- The groups of a way lie between its two ends. -/
theorem Way.advances {place : Cursor} {passed rest : Text} {added : List (Nat × Span)}
    (h : r.Way place passed rest added) (hrest : place.rest = passed ++ rest) (groups : List (Nat × Span)) :
    (⟨place, groups⟩ : Progress).Advances ⟨place.after passed rest, added ++ groups⟩ := by
  induction r generalizing place passed rest added groups with
  | empty => exact advances_bare hrest h.2 groups
  | literal text => exact advances_bare hrest h.2 groups
  | one accepts => exact advances_bare hrest h.2 groups
  | run greed accepts => exact advances_bare hrest h.2 groups
  | all accepts => exact advances_bare hrest h.2 groups
  | seq first second ih ih' =>
    obtain ⟨u, v, a, b, rfl, rfl, hfirst, hsecond⟩ := h
    exact advances_over (ih hfirst (hrest.trans (List.append_assoc ..)) groups) (ih' hsecond rfl (a ++ groups))
  | alt preferred other ih ih' =>
    exact h.elim (fun h => ih h hrest groups) fun h => ih' h hrest groups
  | rounds body ih =>
    induction h generalizing groups with
    | none p rest => exact advances_bare hrest rfl groups
    | round hway _ ihmore =>
      exact advances_over (ih hway (hrest.trans (List.append_assoc ..)) groups) (ihmore rfl _)
  | group label body ih =>
    obtain ⟨a, rfl, hbody⟩ := h
    exact (ih hbody hrest groups).close label
  | anchor a => exact advances_bare hrest h.2.1 groups

/-! ### Successful attempts -/

/-- What an attempt did on the way from one progress to another: it passed an accepted text. -/
structure Went (r : Regex) (p : Progress) (passed : Text) (q : Progress) : Prop where
  accepted : r.Accepts passed
  passes : p.place.Passes passed q.place
  advances : p.Advances q

theorem Way.went {passed rest : Text} {added : List (Nat × Span)} (h : r.Way p.place passed rest added)
    (hrest : p.place.rest = passed ++ rest) : r.Went p passed ⟨p.place.after passed rest, added ++ p.groups⟩ :=
  ⟨h.accepts, Cursor.passes_after hrest, h.advances hrest p.groups⟩

theorem tryRounds_went (body : Regex) (rounds fuel : Nat) (p done : Progress) (next : Progress → Option Progress)
    (h : tryRounds (body.attempt fuel) next rounds p = some done) :
    ∃ passed q, (Regex.rounds body).Went p passed q ∧ next q = some done := by
  obtain ⟨passed, rest, added, hrest, hway, hnext⟩ :=
    tryRounds_succeeds (fun _ _ _ hround => attempt_succeeds hround) rounds h
  exact ⟨passed, _, hway.went hrest, hnext⟩

/-- A successful attempt passed an accepted text, and `next` succeeded behind it. -/
theorem attempt_went (fuel : Nat) (r : Regex) (p done : Progress)
    (next : Progress → Option Progress) (h : attempt fuel r p next = some done) :
    ∃ passed q, r.Went p passed q ∧ next q = some done := by
  obtain ⟨passed, rest, added, hrest, hway, hnext⟩ := attempt_succeeds h
  exact ⟨passed, _, hway.went hrest, hnext⟩

/-- A successful attempt came to a place behind its start, and `next` succeeded there. -/
theorem attempt_advances (fuel : Nat) (r : Regex) (p done : Progress)
    (next : Progress → Option Progress) (h : attempt fuel r p next = some done) :
    ∃ q, p.Advances q ∧ next q = some done := by
  obtain ⟨_, q, hpq, hdone⟩ := attempt_went fuel r p done next h
  exact ⟨q, hpq.advances, hdone⟩

/-- An expression that ends in one character ends behind it. -/
theorem attempt_last (fuel : Nat) (r : Regex) (accepts : Char → Bool) (p done : Progress)
    (h : (r ++ Regex.one accepts).attempt fuel p some = some done) :
    ∃ c, accepts c = true ∧ done.place.before = some c := by
  obtain ⟨q, -, hq⟩ := attempt_advances fuel r p done _ h
  rw [attempt] at hq
  split at hq
  · cases hq
  · next c rest hrest =>
    split at hq
    · next hc =>
      cases hq
      exact ⟨c, hc, rfl⟩
    · cases hq

/-- An expression that ends in one character as a group closes the group over it. -/
theorem attempt_lastGroup (fuel : Nat) (r : Regex) (label : Nat) (accepts : Char → Bool)
    (p done : Progress)
    (h : (r ++ Regex.group label (.one accepts)).attempt fuel p some = some done) :
    ∃ c start rest, done.place.before = some c ∧ start.rest = c :: rest ∧
      done.groups.lookup label = some ⟨start, start.offset + c.utf8Size⟩ := by
  obtain ⟨q, -, hq⟩ := attempt_advances fuel r p done _ h
  rw [attempt, attempt] at hq
  split at hq
  · cases hq
  · next c rest hrest =>
    split at hq
    · cases hq
      exact ⟨c, q.place, rest, rfl, hrest, List.lookup_cons_self⟩
    · cases hq

theorem matchAt?_way {fuel : Nat} {place : Cursor} {m : Match} (h : r.matchAt? fuel place = some m) :
    ∃ passed, place.rest = passed ++ m.stop.rest ∧ m.stop = place.after passed m.stop.rest ∧
      r.Way place passed m.stop.rest m.groups := by
  obtain ⟨done, hdone, rfl⟩ := Option.map_eq_some_iff.mp h
  obtain ⟨passed, rest, added, hrest, hway, hnext⟩ := attempt_succeeds hdone
  obtain rfl := Option.some.inj hnext
  refine ⟨passed, hrest, rfl, ?_⟩
  rw [List.append_nil]
  exact hway

/-! ### Labels -/

/-- The labels of the groups of an expression. -/
def labels : Regex → List Nat
  | .seq first second => first.labels ++ second.labels
  | .alt preferred other => preferred.labels ++ other.labels
  | .rounds body => body.labels
  | .group label body => label :: body.labels
  | _ => []

theorem Way.labels {place : Cursor} {passed rest : Text} {added : List (Nat × Span)}
    (h : r.Way place passed rest added) : ∀ g ∈ added, g.1 ∈ r.labels := by
  have hnone : ∀ {list : List (Nat × Span)} {all : List Nat}, list = [] → ∀ g ∈ list, g.1 ∈ all := by
    rintro _ _ rfl g hg
    cases hg
  induction r generalizing place passed rest added with
  | empty => exact hnone h.2
  | literal text => exact hnone h.2
  | one accepts => exact hnone h.2
  | run greed accepts => exact hnone h.2
  | all accepts => exact hnone h.2
  | seq first second ih ih' =>
    obtain ⟨u, v, a, b, -, rfl, hfirst, hsecond⟩ := h
    exact List.forall_mem_append.mpr ⟨fun g hg => List.mem_append_right _ (ih' hsecond g hg),
      fun g hg => List.mem_append_left _ (ih hfirst g hg)⟩
  | alt preferred other ih ih' =>
    exact h.elim (fun h g hg => List.mem_append_left _ (ih h g hg))
      fun h g hg => List.mem_append_right _ (ih' h g hg)
  | rounds body ih =>
    induction h with
    | none p rest => exact List.forall_mem_nil _
    | round hway _ ihmore => exact List.forall_mem_append.mpr ⟨ihmore, ih hway⟩
  | group label body ih =>
    obtain ⟨a, rfl, hbody⟩ := h
    exact List.forall_mem_cons.mpr ⟨List.mem_cons_self, fun g hg => List.mem_cons_of_mem _ (ih hbody g hg)⟩
  | anchor a => exact hnone h.2.1

/-- What was closed under a label before is there behind an expression without that label. -/
theorem Way.lookup {place : Cursor} {passed rest : Text} {added : List (Nat × Span)}
    (h : r.Way place passed rest added) {label : Nat} (hlabel : label ∉ r.labels) (before : List (Nat × Span)) :
    (added ++ before).lookup label = before.lookup label := by
  have hall := h.labels
  clear h
  induction added with
  | nil => rfl
  | cons g added ih =>
    obtain ⟨hg, hadded⟩ := List.forall_mem_cons.mp hall
    have hne : label ≠ g.1 := fun he => hlabel (he ▸ hg)
    rw [List.cons_append, List.lookup_cons, beq_false_of_ne hne]
    exact ih hadded

/-! ### Runs at the end -/

theorem attempt_append (q : Progress) (next : Progress → Option Progress) :
    (r ++ s).attempt fuel q next = r.attempt fuel q fun q' => s.attempt fuel q' next := rfl

/-- Whether no character of a class follows where an expression ends as it prefers. -/
def EndsOutside (r : Regex) (accepts : Char → Bool) : Prop :=
  ∀ (fuel : Nat) (p done : Progress), r.attempt fuel p some = some done → done.place.rest.head?.any accepts = false

theorem farthestFirst_head (accepts : Char → Bool) (nearer : List Cursor) (place : Cursor) (rest : Text)
    (hrest : place.rest = rest) :
    ∃ q others, farthestFirst accepts nearer place rest = q :: others ∧ q.rest.head?.any accepts = false := by
  induction rest generalizing nearer place with
  | nil => exact ⟨place, nearer, rfl, by rw [hrest]; rfl⟩
  | cons c rest ih =>
    rw [farthestFirst]
    split
    · exact ih _ _ rfl
    · next hc => exact ⟨place, nearer, rfl, by rw [hrest]; exact Bool.eq_false_iff.mpr hc⟩

theorem endsOutside_some1 (label : Nat) (accepts : Char → Bool) :
    (Regex.group label (some1 accepts)).EndsOutside accepts := by
  intro fuel p done h
  rw [attempt, some1, attempt_append, attempt] at h
  split at h
  · cases h
  · next c rest _ =>
    split at h
    · rw [attempt] at h
      obtain ⟨q, others, hplaces, hq⟩ := farthestFirst_head accepts [] (p.place.past c rest) rest rfl
      have hdone : some _ = some done := (congrArg (List.findSome? _) hplaces).symm.trans h
      cases hdone
      exact hq
    · cases h

theorem EndsOutside.seq {s : Regex} {accepts : Char → Bool} (h : s.EndsOutside accepts) (r : Regex) :
    (r ++ s).EndsOutside accepts := by
  intro fuel p done hdone
  obtain ⟨_, _, _, -, -, hnext⟩ := attempt_succeeds (r := r) hdone
  exact h fuel _ done hnext

theorem EndsOutside.alt {s : Regex} {accepts : Char → Bool} (h : r.EndsOutside accepts)
    (h' : s.EndsOutside accepts) : (Regex.alt r s).EndsOutside accepts := by
  intro fuel p done hdone
  rw [attempt] at hdone
  split at hdone
  · next hpreferred =>
    cases hdone
    exact h fuel p _ hpreferred
  · exact h' fuel p done hdone

theorem EndsOutside.matchAt? {accepts : Char → Bool} (h : r.EndsOutside accepts) {fuel : Nat} {place : Cursor}
    {m : Match} (hm : r.matchAt? fuel place = some m) : m.stop.rest.head?.any accepts = false := by
  obtain ⟨done, hdone, rfl⟩ := Option.map_eq_some_iff.mp hm
  exact h fuel _ done hdone

end Regex

end CodeIndex
