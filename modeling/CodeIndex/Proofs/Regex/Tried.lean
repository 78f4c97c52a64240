import CodeIndex.Proofs.Regex.Names
import CodeIndex.Proofs.Regex.Walk

/-!
# Places that a scan tries

A scan tries every place of a text except those inside of a match that it has found before. A text that is
taken at a place that is tried is found, whatever stands in front of it and behind it.
-/

namespace CodeIndex.Regex

/-- Whether the scan of a text tries the place behind `before`: no match that starts before it reaches over
it. -/
def TriesAt (r : Regex) (before rest : Text) : Prop :=
  ∀ m ∈ r.findAll (before ++ rest), m.start.offset < before.width → m.stop.offset ≤ before.width

instance (r : Regex) (before rest : Text) : Decidable (r.TriesAt before rest) :=
  inferInstanceAs (Decidable (∀ m ∈ r.findAll (before ++ rest),
    m.start.offset < before.width → m.stop.offset ≤ before.width))

variable {fuel : Nat} {r : Regex}

theorem scanFrom_reaches (resume : Nat) (place : Cursor) (before rest : Text) (m : Match)
    (hplace : place.rest = before ++ rest) (hresume : resume ≤ place.offset + before.width)
    (htried : ∀ found ∈ r.scanFrom (·.stop.offset) fuel resume place (before ++ rest),
      found.start.offset < place.offset + before.width → found.stop.offset ≤ place.offset + before.width)
    (hm : r.matchAt? fuel (place.after before rest) = some m) :
    m ∈ r.scanFrom (·.stop.offset) fuel resume place (before ++ rest) := by
  -- on the text in front: a place is passed over, or the scan resumes behind a match that ends before the goal
  induction before generalizing resume place with
  | nil =>
    rw [Cursor.after_nil (show place.rest = rest from hplace)] at hm
    have hhere : ¬place.offset < resume := Nat.not_lt.mpr hresume
    cases rest with
    | nil =>
      simp only [List.append_nil, scanFrom, if_neg hhere, hm, Option.toList_some]
      exact List.mem_singleton.mpr rfl
    | cons c rest =>
      simp only [List.nil_append, scanFrom, if_neg hhere, hm]
      exact List.mem_cons_self
  | cons c before ih =>
    have hpast : (place.past c (before ++ rest)).offset + Text.width before =
        place.offset + Text.width (c :: before) := by
      rw [Text.width, ← Nat.add_assoc]
      rfl
    have hpos := c.utf8Size_pos
    have hbehind : place.offset < place.offset + Text.width (c :: before) := by
      rw [Text.width]
      omega
    rw [← place.past_after c before (before ++ rest) rest] at hm
    rw [List.cons_append, scanFrom] at htried ⊢
    split
    · next hskip =>
      rw [if_pos hskip, ← hpast] at htried
      exact ih _ _ rfl (by rw [hpast]; exact hresume) htried hm
    · next htry =>
      rw [if_neg htry, ← hpast] at htried
      cases hfound : r.matchAt? fuel place with
      | none =>
        rw [hfound] at htried
        exact ih _ _ rfl (by rw [hpast]; exact hresume) htried hm
      | some found =>
        rw [hfound] at htried
        obtain ⟨hfirst, hlater⟩ := List.forall_mem_cons.mp htried
        have hstart : found.start.offset = place.offset := by
          rw [(matchAt?_liesBehind r fuel place found hfound).1]
        exact List.mem_cons_of_mem _ (ih _ _ rfl (hfirst (by rw [hstart, hpast]; exact hbehind)) hlater hm)

/-- A text that is taken at a place that is tried is found. -/
theorem TriesAt.mem_findAll {before passed rest : Text} {added : List (Nat × Span)}
    (h : r.TriesAt before (passed ++ rest))
    (htakes : r.Takes (before ++ (passed ++ rest)).length
      ((before ++ (passed ++ rest)).start.after before (passed ++ rest)) passed rest added) :
    let place := (before ++ (passed ++ rest)).start.after before (passed ++ rest)
    ⟨place, place.after passed rest, added⟩ ∈ r.findAll (before ++ (passed ++ rest)) := by
  have hzero : (before ++ (passed ++ rest)).start.offset + before.width = before.width := Nat.zero_add _
  refine scanFrom_reaches 0 (before ++ (passed ++ rest)).start before (passed ++ rest) _ rfl (Nat.zero_le _) ?_
    htakes.matchAt?
  rw [hzero]
  exact h

/-! ### Rounds -/

/-- Whether at most `n` rounds, as many as possible, lead over a text. -/
def RoundsTake (fuel n : Nat) (body : Regex) (p : Cursor) (passed rest : Text) : Prop :=
  ∀ groups next done, next ⟨p.after passed rest, groups⟩ = some done →
    tryRounds (body.attempt fuel) next n ⟨p, groups⟩ = some done

variable {body : Regex} {p : Cursor}

theorem Refuses.roundsTake (h : body.Refuses fuel p) (n : Nat) {rest : Text} (hrest : p.rest = rest) :
    RoundsTake fuel n body p [] rest := by
  intro groups next done hnext
  rw [Cursor.after_nil hrest] at hnext
  cases n with
  | zero => exact hnext
  | succ n =>
    rw [tryRounds, h]
    exact hnext

theorem Takes.roundsTake {n : Nat} {u v rest : Text} (h : body.Takes fuel p u (v ++ rest) []) (hu : u ≠ [])
    (hmore : RoundsTake fuel n body (p.after u (v ++ rest)) v rest) :
    RoundsTake fuel (n + 1) body p (u ++ v) rest := by
  intro groups next done hnext
  rw [← Cursor.after_after p u v (v ++ rest)] at hnext
  have hpos : 0 < u.width := by
    obtain ⟨c, u, rfl⟩ := List.exists_cons_of_ne_nil hu
    rw [Text.width]
    exact Nat.add_pos_left c.utf8Size_pos _
  have hround := h.prefers groups
    (fun q => if p.offset < q.place.offset then tryRounds (body.attempt fuel) next n q else none) done
    ((if_pos (Nat.lt_add_of_pos_right hpos)).trans (hmore groups next done hnext))
  rw [tryRounds]
  simp only [hround]

theorem RoundsTake.takes {passed rest : Text} (h : RoundsTake fuel fuel body p passed rest)
    (hrest : p.rest = passed ++ rest) : (Regex.rounds body).Takes fuel p passed rest [] :=
  ⟨hrest, h⟩

theorem Refuses.takes_rounds (h : body.Refuses fuel p) {rest : Text} (hrest : p.rest = rest) :
    (Regex.rounds body).Takes fuel p [] rest [] :=
  (h.roundsTake fuel hrest).takes hrest

/-! ### Words -/

theorem Takes.alt_of_refuses {r s : Regex} {passed rest : Text} {added : List (Nat × Span)}
    (h : r.Refuses fuel p) (h' : s.Takes fuel p passed rest added) :
    (Regex.alt r s).Takes fuel p passed rest added where
  ahead := h'.ahead
  prefers groups next done hnext := by
    rw [attempt, h]
    exact h'.prefers groups next done hnext

theorem Takes.alt {r s : Regex} {passed rest : Text} {added : List (Nat × Span)}
    (h : r.Takes fuel p passed rest added) : (Regex.alt r s).Takes fuel p passed rest added where
  ahead := h.ahead
  prefers groups next done hnext := by
    rw [attempt, h.prefers groups next done hnext]

theorem refuses_lit {s : String} (h : ∀ rest, p.rest ≠ s.toList ++ rest) : (lit s).Refuses fuel p :=
  refuses_of_accepts fun passed rest haccepts hrest => by
    obtain rfl : passed = s.toList := haccepts
    exact h rest hrest

theorem refuses_unless {s : String} (h : Text.startsWith p.rest s.toList = false) : (lit s).Refuses fuel p := by
  intro groups next
  cases hdrop : Text.dropStart? s.toList p.rest with
  | none => rw [lit, attempt, hdrop]
  | some rest =>
    rw [Text.startsWith, hdrop] at h
    cases h

theorem takes_oneOf (before : List Regex) {behind : List Regex} {r : Regex} {passed rest : Text}
    {added : List (Nat × Span)} (hbefore : ∀ s ∈ before, s.Refuses fuel p) (h : r.Takes fuel p passed rest added) :
    (oneOf (before ++ r :: behind)).Takes fuel p passed rest added := by
  induction before with
  | nil =>
    cases behind with
    | nil => exact h
    | cons => exact h.alt
  | cons s before ih =>
    obtain ⟨hs, hbefore⟩ := List.forall_mem_cons.mp hbefore
    cases before with
    | nil => exact Takes.alt_of_refuses hs (ih hbefore)
    | cons => exact Takes.alt_of_refuses hs (ih hbefore)

/-- One of several words, none of which begins with another. -/
theorem takes_words {list : List String} {word : String} (hword : word ∈ list)
    (hapart : list.Pairwise fun a b => ¬a.toList <+: b.toList ∧ ¬b.toList <+: a.toList) {rest : Text}
    (h : p.rest = word.toList ++ rest) : (words list).Takes fuel p word.toList rest [] := by
  obtain ⟨before, behind, rfl⟩ := List.append_of_mem hword
  obtain ⟨-, -, hbefore⟩ := List.pairwise_append.mp hapart
  rw [words, List.map_append, List.map_cons]
  refine takes_oneOf _ (List.forall_mem_map.mpr fun first hfirst => refuses_lit fun later hlater => ?_) (takes_lit h)
  obtain ⟨hnot, hnot'⟩ := hbefore first hfirst word List.mem_cons_self
  have hboth : word.toList <+: first.toList ∨ first.toList <+: word.toList :=
    List.prefix_or_prefix_of_prefix (List.prefix_append _ rest) (by rw [← h, hlater]; exact List.prefix_append _ later)
  exact hboth.elim hnot' hnot

theorem takes_enclosed {start close : Char} {inner rest : Text} (h : p.rest = [start] ++ inner ++ [close] ++ rest)
    (hinner : close ∉ inner) : (enclosed start close).Takes fuel p ([start] ++ inner ++ [close]) rest [] := by
  have hall : ∀ c ∈ inner, (c != close) = true := fun c hc => bne_iff_ne.mpr fun he => hinner (he ▸ hc)
  simp only [List.append_assoc] at h
  have hinside : ∀ q : Cursor, q.rest = inner ++ ([close] ++ rest) →
      (any (· != close)).Takes fuel q inner ([close] ++ rest) [] := fun q hq =>
    takes_many hq hall (outside_head (bne_self_eq_false close))
  exact ((takes_char h).seq (hinside _ rfl)).seq (takes_char rfl)

theorem takes_one_blank {d : Char} {rest : Text} (h : p.rest = [' '] ++ d :: rest) (hd : isBlank d = false) :
    blanks.Takes fuel p [' '] (d :: rest) [] :=
  takes_many h (List.forall_mem_singleton.mpr rfl) (outside_head hd)

theorem Refuses.group (h : r.Refuses fuel p) (label : Nat) : (Regex.group label r).Refuses fuel p :=
  fun groups _ => h groups _

/-! ### Lists in front of a brace -/

/-- Where a text without the character goes on to something that is no white space, the character does not come
next behind white space. -/
theorem refuses_inside {d : Char} (hd : isBlank d = false) {text rest : Text} {last : Char}
    (hlast : text.getLast? = some last) (hblank : isBlank last = false) (hnot : d ∉ text)
    (h : p.rest = text ++ rest) : (blanks ++ char d).Refuses fuel p := by
  have hfound : (text.find? fun c => !isBlank c).isSome = true :=
    List.find?_isSome.mpr ⟨last, List.mem_of_getLast? hlast, by rw [hblank]; rfl⟩
  obtain ⟨e, he⟩ := Option.isSome_iff_exists.mp hfound
  obtain ⟨hstop, u, v, rfl, hu⟩ := List.find?_eq_some_iff_append.mp he
  have hplace : p.rest = u ++ e :: (v ++ rest) := by
    rw [h, List.append_assoc]
    rfl
  refine refuses_behind_run (fun _ hr => hr) rfl ?_ hplace ?_ ?_ ?_
  · intro c hc
    obtain rfl := beq_iff_eq.mp hc
    exact hd
  · exact fun c hc => by simpa using hu c hc
  · simpa using hstop
  · refine beq_eq_false_iff_ne.mpr ?_
    rintro rfl
    exact hnot (List.mem_append_right u List.mem_cons_self)

theorem takes_space_brace {rest : Text} (h : p.rest = " \x7b".toList ++ rest) :
    (blanks ++ char '{').Takes fuel p " \x7b".toList rest [] :=
  (takes_one_blank h rfl).seq (takes_char rfl)

/-- A list of characters of a class up to the space in front of a brace, where it goes on as short as possible. -/
theorem takes_listed {accepts : Char → Bool} (label : Nat) {list rest : Text} {last : Char}
    (h : p.rest = list ++ (" \x7b".toList ++ rest)) (hlast : list.getLast? = some last)
    (hblank : isBlank last = false) (haccepts : ∀ c ∈ list, accepts c = true) (hbrace : '{' ∉ list) :
    (Regex.group label (few1 accepts) ++ (blanks ++ char '{')).Takes fuel p (list ++ " \x7b".toList) rest
      [(label, ⟨p, p.offset + list.width⟩)] := by
  obtain ⟨c, passed, rfl⟩ : ∃ c passed, list = c :: passed :=
    List.exists_cons_of_ne_nil (List.ne_nil_of_mem (List.mem_of_getLast? hlast))
  obtain ⟨hc, hpassed⟩ := List.forall_mem_cons.mp haccepts
  refine takes_few1_group label h hc hpassed (takes_space_brace rfl) fun a b hb hab => ?_
  have hend : b.getLast? = some last := by
    rw [hab, ← List.cons_append, List.getLast?_append, List.getLast?_eq_some_getLast hb, Option.some_or] at hlast
    rw [List.getLast?_eq_some_getLast hb, hlast]
  have hnot : '{' ∉ b := fun hin => hbrace (by
    rw [hab]
    exact List.mem_cons_of_mem c (List.mem_append_right a hin))
  exact refuses_inside rfl hend hblank hnot rfl

end CodeIndex.Regex
