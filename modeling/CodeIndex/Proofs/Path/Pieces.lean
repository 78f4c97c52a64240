import CodeIndex.Path.Prefix

/-!
# Named pieces of a path

The pieces between the slashes of a path that stand for something: all but empty ones and single dots.
They are its components after a leading root or dot, and what a path says from another path on are the
pieces behind those of the other. The last piece is the file name.
-/

namespace CodeIndex

open CodeIndex.Path

/-! ### Pieces of a text -/

/-- Whether a piece stands for nothing. -/
def isIdle (piece : Text) : Bool := piece.isEmpty || piece == ['.']

/-- The pieces between slashes that stand for something. -/
def namedPieces (t : Text) : List Text :=
  (t.splitOn (· == '/')).filter (!isIdle ·)

theorem splitOn_ne_nil (isBreak : Char → Bool) (t : Text) : t.splitOn isBreak ≠ [] := by
  cases t with
  | nil => simp [Text.splitOn]
  | cons c rest =>
    simp only [Text.splitOn]
    split
    · simp
    · split <;> simp

theorem splitOn_append (isBreak : Char → Bool) (u v : Text) (c : Char) (h : isBreak c = true) :
    Text.splitOn isBreak (u ++ c :: v) = Text.splitOn isBreak u ++ Text.splitOn isBreak v := by
  induction u with
  | nil => simp [Text.splitOn, h]
  | cons d u ih =>
    by_cases hd : isBreak d = true
    · simp only [List.cons_append, Text.splitOn, hd, ite_true, ih]
    · simp only [List.cons_append, Text.splitOn, hd, Bool.false_eq_true, ite_false, ih]
      cases hu : Text.splitOn isBreak u with
      | nil => exact absurd hu (splitOn_ne_nil isBreak u)
      | cons piece pieces => rfl

theorem splitOn_of_none (isBreak : Char → Bool) (t : Text) (h : ∀ c ∈ t, isBreak c = false) :
    Text.splitOn isBreak t = [t] := by
  induction t with
  | nil => rfl
  | cons c rest ih =>
    have hc := h c List.mem_cons_self
    have hrest := ih fun d hd => h d (List.mem_cons_of_mem c hd)
    simp only [Text.splitOn, hc, Bool.false_eq_true, ite_false, hrest]

theorem namedPieces_nil : namedPieces [] = [] := rfl

theorem namedPieces_dot : namedPieces ['.'] = [] := by decide

theorem namedPieces_append (u v : Text) :
    namedPieces (u ++ '/' :: v) = namedPieces u ++ namedPieces v := by
  simp only [namedPieces, splitOn_append (· == '/') u v '/' rfl, List.filter_append]

theorem namedPieces_slash (v : Text) : namedPieces ('/' :: v) = namedPieces v :=
  namedPieces_append [] v

theorem namedPieces_one (piece : Text) (h : ∀ c ∈ piece, (c == '/') = false)
    (hi : isIdle piece = false) : namedPieces piece = [piece] := by
  simp only [namedPieces, splitOn_of_none _ piece h, List.filter_cons, hi, Bool.not_false, ite_true,
    List.filter_nil]

/-! ### Cutting -/

theorem namedPieces_dropIdleStart (t : Text) : namedPieces (dropIdleStart t) = namedPieces t := by
  fun_induction dropIdleStart t with
  | case1 rest ih => rw [ih, namedPieces_slash]
  | case2 rest ih =>
    rw [ih, namedPieces_slash]
    exact (namedPieces_append ['.'] rest).symm
  | case3 => rfl
  | case4 t h1 h2 h3 => rfl

theorem dropIdleStart_first (t : Text) :
    dropIdleStart t = [] ∨ isIdle ((dropIdleStart t).takeWhile (· != '/')) = false := by
  fun_induction dropIdleStart t with
  | case1 rest ih => exact ih
  | case2 rest ih => exact ih
  | case3 => exact Or.inl rfl
  | case4 t h1 h2 h3 =>
    match t with
    | [] => exact Or.inl rfl
    | c :: rest =>
      refine Or.inr ?_
      have hc : (c != '/') = true := bne_iff_ne.mpr fun he => h1 rest (by rw [he])
      rw [List.takeWhile_cons, if_pos hc]
      simp only [isIdle, List.isEmpty_cons, Bool.false_or, beq_eq_false_iff_ne, ne_eq,
        List.cons.injEq, not_and]
      intro hdot hnil
      subst hdot
      match rest with
      | [] => exact h3 rfl
      | d :: rest =>
        by_cases hd : d = '/'
        · exact h2 rest (hd ▸ rfl)
        · simp [hd] at hnil

theorem slash_of_dropWhile (t rest : Text) (c : Char) (h : t.dropWhile (· != '/') = c :: rest) :
    c = '/' := by
  have hc := List.head?_dropWhile_not (p := (· != '/')) (l := t)
  simpa [h] using hc

theorem namedPieces_dropWhile (t : Text) (h : t = [] ∨ isIdle (t.takeWhile (· != '/')) = false) :
    namedPieces (t.dropWhile (· != '/')) = (namedPieces t).tail := by
  rcases h with rfl | hi
  · rfl
  · have hno : ∀ c ∈ t.takeWhile (· != '/'), (c == '/') = false := by
      intro c hc
      simpa using List.all_eq_true.mp List.all_takeWhile c hc
    have hsplit := List.takeWhile_append_dropWhile (p := (· != '/')) (l := t)
    cases hr : t.dropWhile (· != '/') with
    | nil =>
      rw [hr, List.append_nil] at hsplit
      rw [← hsplit, namedPieces_one _ hno hi]
      rfl
    | cons c rest =>
      rw [hr, slash_of_dropWhile t rest c hr] at hsplit
      rw [slash_of_dropWhile t rest c hr]
      rw [← hsplit, namedPieces_append, namedPieces_one _ hno hi, namedPieces_slash]
      rfl

theorem splitOn_head (t : Text) :
    (t.splitOn (· == '/')).head? = some (t.takeWhile (· != '/')) := by
  induction t with
  | nil => rfl
  | cons c rest ih =>
    by_cases hc : c = '/'
    · simp [Text.splitOn, hc]
    · have hb : (c == '/') = false := beq_eq_false_iff_ne.mpr hc
      simp only [Text.splitOn, hb, Bool.false_eq_true, ite_false]
      cases hs : Text.splitOn (· == '/') rest with
      | nil => exact absurd hs (splitOn_ne_nil _ rest)
      | cons piece pieces =>
        rw [hs, List.head?_cons, Option.some.injEq] at ih
        simp [ih, hc]

theorem namedPieces_leadingDot (t : Text) (h : t.takeWhile (· != '/') = ['.']) :
    namedPieces (t.drop 1) = namedPieces t := by
  have hsplit := List.takeWhile_append_dropWhile (p := (· != '/')) (l := t)
  rw [h] at hsplit
  rw [← hsplit]
  cases hr : t.dropWhile (· != '/') with
  | nil => rfl
  | cons c rest =>
    rw [slash_of_dropWhile t rest c hr, namedPieces_append, namedPieces_dot]
    exact namedPieces_slash rest

theorem namedPieces_dropPieces (count : Nat) (t : Text) :
    namedPieces (dropPieces count t) = (namedPieces t).drop count := by
  induction count generalizing t with
  | zero => exact namedPieces_dropIdleStart t
  | succ count ih =>
    rw [dropPieces, ih, namedPieces_dropWhile _ (dropIdleStart_first t), namedPieces_dropIdleStart,
      List.drop_tail]

theorem namedPieces_dropIdleEnd (t : Text) :
    namedPieces (dropIdleEnd t).reverse = namedPieces t.reverse := by
  fun_induction dropIdleEnd t with
  | case1 c rest ih =>
    rw [ih, List.reverse_cons (a := '/'), namedPieces_append, namedPieces_nil, List.append_nil]
  | case2 rest ih =>
    have hend : ('.' :: '/' :: rest).reverse = rest.reverse ++ '/' :: ['.'] := by simp
    rw [ih, hend, List.reverse_cons, namedPieces_append, namedPieces_append, namedPieces_nil,
      namedPieces_dot]
  | case3 t h1 h2 => rfl

theorem namedPieces_trimmed (p : Path) : namedPieces p.trimmed.text = namedPieces p.text := by
  rw [trimmed, namedPieces_dropIdleEnd, List.reverse_reverse]

end CodeIndex
