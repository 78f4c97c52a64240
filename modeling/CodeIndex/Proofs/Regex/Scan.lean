import CodeIndex.Proofs.Regex.Ways

/-!
# Matches of a scan

The matches of a scan lie behind its start, each with its groups inside it, and start one behind another,
none before the place where the scan resumed.
-/

namespace CodeIndex

/-- A match at or behind a place, with its groups inside it. -/
structure Match.LiesBehind (m : Match) (place : Cursor) : Prop where
  start : place.Reaches m.start
  stop : m.start.Reaches m.stop
  groups : ∀ label, m.start.offset ≤ m.groupStart label ∧ m.groupStart label ≤ m.stop.offset

namespace Match

theorem LiesBehind.stops {m : Match} {place : Cursor} (h : m.LiesBehind place) :
    place.Reaches m.stop :=
  h.start.trans h.stop

/-- A match in a text ends where the text splits. -/
theorem LiesBehind.split {m : Match} {t : Text} (h : m.LiesBehind t.start) :
    ∃ passed, t = passed ++ m.stop.rest ∧ m.stop.offset = passed.width ∧
      m.stop.before = passed.getLast? := by
  obtain ⟨passed, hpassed⟩ := h.stops
  refine ⟨passed, hpassed.rest, ?_, ?_⟩
  · rw [hpassed.offset]
    exact Nat.zero_add _
  · rw [hpassed.before]
    exact Option.or_none

theorem LiesBehind.stop_le_width {m : Match} {t : Text} (h : m.LiesBehind t.start) :
    m.stop.offset ≤ t.width := by
  obtain ⟨passed, hsplit, hoffset, -⟩ := h.split
  rw [hoffset, hsplit, Text.width_append]
  exact Nat.le_add_right ..

end Match

namespace Regex

theorem matchAt?_liesBehind (r : Regex) (fuel : Nat) (place : Cursor) (m : Match)
    (h : r.matchAt? fuel place = some m) : m.start = place ∧ m.LiesBehind place := by
  obtain ⟨done, hdone, rfl⟩ := Option.map_eq_some_iff.mp h
  obtain ⟨q, hadvance, hq⟩ := attempt_advances fuel r _ done some hdone
  cases hq
  obtain ⟨added, hadded, hin⟩ := hadvance.groups
  refine ⟨rfl, .refl place, hadvance.place, fun label => ?_⟩
  rw [Match.groupStart, Match.span?]
  cases hspan : done.groups.lookup label with
  | none => exact ⟨Nat.le_refl _, hadvance.place.offset_le⟩
  | some span =>
    obtain ⟨later, earlier, hgroups, -⟩ := List.lookup_eq_some_iff.mp hspan
    rw [hadded, List.append_nil] at hgroups
    obtain ⟨hstart, hstop, -⟩ := hin (label, span) (hgroups ▸ List.mem_append_right later List.mem_cons_self)
    exact ⟨hstart, hstop⟩

theorem matchAt?_spans (r : Regex) (fuel : Nat) (place : Cursor) (m : Match)
    (h : r.matchAt? fuel place = some m) : ∀ g ∈ m.groups, g.2.Stops := by
  obtain ⟨done, hdone, rfl⟩ := Option.map_eq_some_iff.mp h
  obtain ⟨q, hadvance, hq⟩ := attempt_advances fuel r _ done some hdone
  cases hq
  obtain ⟨added, hadded, hin⟩ := hadvance.groups
  rw [List.append_nil] at hadded
  exact fun g hg => (hin g (hadded ▸ hg)).2.2

/-- A match of an expression that ends in one character. -/
theorem matchAt?_last (r : Regex) (accepts : Char → Bool) (fuel : Nat) (place : Cursor) (m : Match)
    (h : (r ++ Regex.one accepts).matchAt? fuel place = some m) :
    ∃ c, accepts c = true ∧ m.stop.before = some c := by
  obtain ⟨done, hdone, rfl⟩ := Option.map_eq_some_iff.mp h
  exact attempt_last fuel r accepts _ done hdone

/-- A match of an expression that ends in one character as a group. -/
theorem matchAt?_lastGroup (r : Regex) (label : Nat) (accepts : Char → Bool) (fuel : Nat)
    (place : Cursor) (m : Match)
    (h : (r ++ Regex.group label (.one accepts)).matchAt? fuel place = some m) :
    ∃ c, m.stop.before = some c ∧ m.group label = [c] := by
  obtain ⟨done, hdone, rfl⟩ := Option.map_eq_some_iff.mp h
  obtain ⟨c, start, rest, hbefore, hrest, hspan⟩ := attempt_lastGroup fuel r label accepts _ done hdone
  refine ⟨c, hbefore, ?_⟩
  have htext := Text.takeBytes_width [c] rest
  rw [Text.width, Text.width, Nat.add_zero] at htext
  simp only [Match.group, Match.group?, Match.span?, hspan, Option.map_some, Option.getD_some, Span.text,
    hrest, Nat.add_sub_cancel_left]
  exact htext

section

variable (r : Regex) (after : Match → Nat)

theorem scanFrom_mem (fuel resume : Nat) (place : Cursor) (rest : Text) (hrest : place.rest = rest)
    (m : Match) (h : m ∈ r.scanFrom after fuel resume place rest) :
    resume ≤ m.start.offset ∧ place.Reaches m.start ∧ r.matchAt? fuel m.start = some m := by
  induction rest generalizing resume place with
  | nil =>
    rw [scanFrom] at h
    split at h
    · cases h
    · next hresume =>
      have hm := Option.mem_toList.mp h
      rw [(matchAt?_liesBehind r fuel place m hm).1]
      exact ⟨Nat.le_of_not_lt hresume, .refl place, hm⟩
  | cons c rest ih =>
    have hpast := place.reaches_past c rest hrest
    rw [scanFrom] at h
    split at h
    · obtain ⟨hfrom, hreach, hm⟩ := ih _ _ rfl h
      exact ⟨hfrom, hpast.trans hreach, hm⟩
    · next hresume =>
      split at h
      · next found hfound =>
        rcases List.mem_cons.mp h with rfl | h
        · rw [(matchAt?_liesBehind r fuel place m hfound).1]
          exact ⟨Nat.le_of_not_lt hresume, .refl place, hfound⟩
        · obtain ⟨-, hreach, hm⟩ := ih _ _ rfl h
          have hplace := (hpast.trans hreach).offset_le
          exact ⟨by omega, hpast.trans hreach, hm⟩
      · obtain ⟨hfrom, hreach, hm⟩ := ih _ _ rfl h
        exact ⟨hfrom, hpast.trans hreach, hm⟩

/-- Each match starts behind the start of the one before, and not before the place to resume at. -/
theorem scanFrom_sorted (fuel resume : Nat) (place : Cursor) (rest : Text)
    (hrest : place.rest = rest) :
    (r.scanFrom after fuel resume place rest).Pairwise fun a b =>
      a.start.offset < b.start.offset ∧ after a ≤ b.start.offset := by
  induction rest generalizing resume place with
  | nil =>
    rw [scanFrom]
    split
    · exact .nil
    · cases r.matchAt? fuel place with
      | none => exact .nil
      | some m => exact List.pairwise_singleton _ m
  | cons c rest ih =>
    rw [scanFrom]
    split
    · exact ih _ _ rfl
    · split
      · next found hfound =>
        refine List.pairwise_cons.mpr ⟨fun m hm => ?_, ih _ _ rfl⟩
        obtain ⟨hfrom, hreach, -⟩ := r.scanFrom_mem after fuel _ _ rest rfl m hm
        have hplace := hreach.offset_le
        have hpos := c.utf8Size_pos
        rw [(matchAt?_liesBehind r fuel place found hfound).1]
        have hpast : (place.past c rest).offset = place.offset + c.utf8Size := rfl
        exact ⟨by omega, hfrom⟩
      · exact ih _ _ rfl

theorem scan_liesBehind (place : Cursor) (m : Match) (h : m ∈ r.scan after place) :
    m.LiesBehind place := by
  obtain ⟨-, hreach, hm⟩ := r.scanFrom_mem after _ _ place _ rfl m h
  have hlies := (matchAt?_liesBehind r _ m.start m hm).2
  exact ⟨hreach, hlies.stop, hlies.groups⟩

theorem scan_spans (place : Cursor) (m : Match) (h : m ∈ r.scan after place) : ∀ g ∈ m.groups, g.2.Stops := by
  obtain ⟨-, -, hm⟩ := r.scanFrom_mem after _ _ place _ rfl m h
  exact r.matchAt?_spans _ m.start m hm

theorem scan_sorted (place : Cursor) : (r.scan after place).Pairwise fun a b =>
    a.start.offset < b.start.offset ∧ after a ≤ b.start.offset :=
  r.scanFrom_sorted after _ _ place _ rfl

theorem scan_last (accepts : Char → Bool) (place : Cursor) (m : Match)
    (h : m ∈ (r ++ Regex.one accepts).scan after place) :
    ∃ c, accepts c = true ∧ m.stop.before = some c := by
  obtain ⟨-, -, hm⟩ := (r ++ Regex.one accepts).scanFrom_mem after _ _ place _ rfl m h
  exact matchAt?_last r accepts _ m.start m hm

theorem scan_char (c : Char) (place : Cursor) (m : Match) (h : m ∈ (r ++ char c).scan after place) :
    m.stop.before = some c := by
  obtain ⟨d, hd, hlast⟩ := r.scan_last after _ place m h
  rw [hlast, beq_iff_eq.mp hd]

theorem scan_lastGroup (label : Nat) (accepts : Char → Bool) (place : Cursor) (m : Match)
    (h : m ∈ (r ++ Regex.group label (.one accepts)).scan after place) :
    ∃ c, m.stop.before = some c ∧ m.group label = [c] := by
  obtain ⟨-, -, hm⟩ :=
    (r ++ Regex.group label (.one accepts)).scanFrom_mem after _ _ place _ rfl m h
  exact matchAt?_lastGroup r label accepts _ m.start m hm

/-- A scan that resumes at places of the text finds its matches. -/
theorem scan?_eq (t : Text) (h : ∀ m ∈ r.scan after t.start, after m ≤ t.width) :
    r.scan? after t = some (r.scan after t.start) := by
  rw [scan?, if_pos (List.all_eq_true.mpr fun m hm => decide_eq_true (h m hm))]

end

theorem scan?_stop (r : Regex) (t : Text) : r.scan? (·.stop.offset) t = some (r.findAll t) :=
  r.scan?_eq _ t fun m hm => (r.scan_liesBehind _ t.start m hm).stop_le_width

/-! ### Where matches stand -/

theorem findAll_split {r : Regex} {t : Text} {m : Match} (h : m ∈ r.findAll t) :
    ∃ before, t = before ++ m.start.rest ∧ m.start = t.start.after before m.start.rest ∧
      m.start.offset = before.width ∧ ∃ fuel, r.matchAt? fuel m.start = some m := by
  obtain ⟨-, ⟨before, hbefore⟩, hm⟩ := r.scanFrom_mem _ _ _ _ _ rfl m h
  obtain ⟨hrest, hplace⟩ := hbefore.eq_after
  refine ⟨before, hrest, hplace, ?_, _, hm⟩
  rw [hbefore.offset]
  exact Nat.zero_add _

theorem findAll_place {r : Regex} {before rest : Text} {m : Match} (h : m ∈ r.findAll (before ++ rest))
    (hoffset : m.start.offset = before.width) :
    m.start = (before ++ rest).start.after before rest ∧ ∃ fuel, r.matchAt? fuel m.start = some m := by
  obtain ⟨passed, hrest, hplace, hwidth, hm⟩ := findAll_split h
  have hsame : before = passed := by
    rw [← Text.takeBytes_width before rest, ← hoffset, hwidth, hrest, Text.takeBytes_width]
  subst hsame
  exact ⟨by rw [hplace, ← List.append_cancel_left hrest], hm⟩

end Regex

end CodeIndex
