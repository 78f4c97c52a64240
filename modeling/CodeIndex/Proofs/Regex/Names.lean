import CodeIndex.Proofs.Regex.Preference
import CodeIndex.Proofs.Text.Name

/-!
# Names in matches

Names and the spaces between them are taken whole, since what follows them begins with a character of another
class.
-/

namespace CodeIndex.Regex

variable {fuel : Nat} {p : Cursor}

theorem takes_name {d : Char} {rest : Text} (n : Name) (h : p.rest = n.text ++ d :: rest)
    (hd : isWord d = false) : word.Takes fuel p n.text (d :: rest) [] :=
  takes_some1 n.nonempty h n.word (outside_head hd)

/-- One space in front of a character that is no white space. -/
theorem takes_space {d : Char} {rest : Text} (h : p.rest = [' '] ++ d :: rest) (hd : isBlank d = false) :
    blanks1.Takes fuel p [' '] (d :: rest) [] :=
  takes_some1 (List.cons_ne_nil ' ' []) h (List.forall_mem_singleton.mpr rfl) (outside_head hd)

theorem takes_space_name {rest : Text} (n : Name) (h : p.rest = [' '] ++ (n.text ++ rest)) :
    blanks1.Takes fuel p [' '] (n.text ++ rest) [] := by
  obtain ⟨c, letters, hname, hc⟩ := n.exists_cons
  rw [hname] at h ⊢
  exact takes_space h (isBlank_eq_false hc)

/-- No white space in front of a character that is none. -/
theorem takes_no_blanks {d : Char} {rest : Text} (h : p.rest = [d] ++ rest) (hd : isBlank d = false) :
    blanks.Takes fuel p [] ([d] ++ rest) [] :=
  takes_many_nil h (outside_head hd)

/-- A space in front of something else than the expression begins with. -/
theorem refuses_behind_space {s : Regex} (hs : s.mayPassNothing = false)
    (hbegin : ∀ c, s.mayBegin c = true → isBlank c = false) {d : Char} {rest : Text}
    (h : p.rest = ' ' :: d :: rest) (hd : isBlank d = false) (hsd : s.mayBegin d = false) :
    (blanks ++ s).Refuses fuel p ∧ (blanks1 ++ s).Refuses fuel p := by
  have hspace : ∀ c ∈ [' '], isBlank c = true := List.forall_mem_singleton.mpr rfl
  have hblanks1 : ∀ u, blanks1.Accepts u → ∀ c ∈ u, isBlank c = true :=
    fun u hu => ((accepts_some1 isBlank u).mp hu).2
  exact ⟨refuses_behind_run (fun _ hu => hu) hs hbegin h hspace hd hsd,
    refuses_behind_run hblanks1 hs hbegin h hspace hd hsd⟩

/-! ### Groups -/

/-- Whether the groups added are one stretch of the given text under a label, or none without a text. -/
def Carries (label : Nat) (added : List (Nat × Span)) : Option Text → Prop
  | none => added = []
  | some t => ∃ span : Span, added = [(label, span)] ∧ span.text = t

theorem Carries.lookup {label : Nat} {added : List (Nat × Span)} {t : Option Text} (h : Carries label added t)
    (rest : List (Nat × Span)) (hrest : rest.lookup label = none) :
    ((added ++ rest).lookup label).map Span.text = t := by
  cases t with
  | none =>
    obtain rfl : added = [] := h
    rw [List.nil_append, hrest, Option.map_none]
  | some t =>
    obtain ⟨span, rfl, rfl⟩ := h
    rw [List.singleton_append, List.lookup_cons_self, Option.map_some]

theorem Carries.lookup_of_ne {label : Nat} {added : List (Nat × Span)} {t : Option Text}
    (h : Carries label added t) (rest : List (Nat × Span)) {other : Nat} (hne : other ≠ label) :
    (added ++ rest).lookup other = rest.lookup other := by
  cases t with
  | none =>
    obtain rfl : added = [] := h
    rfl
  | some t =>
    obtain ⟨span, rfl, -⟩ := h
    rw [List.singleton_append, List.lookup_cons, beq_false_of_ne hne]

end CodeIndex.Regex
