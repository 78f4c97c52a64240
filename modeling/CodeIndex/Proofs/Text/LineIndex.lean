import CodeIndex.Number.Bound
import CodeIndex.Text.LineIndex
import CodeIndex.Proofs.Text.ByteOrder
import CodeIndex.Proofs.Text.Places
import Mathlib.Order.Monotone.Defs

/-!
# Lines of places

The line of a place is one more than the number of line feeds before it, counted over the bytes of the text,
also where the place is inside of a character or past the end. So lines never decrease from one place to a
later one, none is greater than the number of lines of the text, and the lines of a text go on in the text
that is put behind it.
-/

namespace CodeIndex

/-! ### Line feeds -/

theorem lineFeedsFrom_ge (offset : Nat) (t : Text) : ∀ feed ∈ lineFeedsFrom offset t, offset ≤ feed := by
  induction t generalizing offset with
  | nil => exact fun feed h => nomatch h
  | cons c rest ih =>
    have hrest : ∀ feed ∈ lineFeedsFrom (offset + c.utf8Size) rest, offset ≤ feed := fun feed h =>
      Nat.le_of_add_right_le (ih _ feed h)
    rw [lineFeedsFrom]
    split
    · exact List.forall_mem_cons.mpr ⟨Nat.le_refl offset, hrest⟩
    · exact hrest

theorem lineFeedsFrom_sorted (offset : Nat) (t : Text) : (lineFeedsFrom offset t).Pairwise (· < ·) := by
  induction t generalizing offset with
  | nil => exact .nil
  | cons c rest ih =>
    rw [lineFeedsFrom]
    split
    · refine List.pairwise_cons.mpr ⟨fun feed h => ?_, ih _⟩
      have hge := lineFeedsFrom_ge _ rest feed h
      have hpos := c.utf8Size_pos
      omega
    · exact ih _

theorem lineFeedsFrom_append (offset : Nat) (before rest : Text) :
    lineFeedsFrom offset (before ++ rest) =
      lineFeedsFrom offset before ++ lineFeedsFrom (offset + before.width) rest := by
  induction before generalizing offset with
  | nil => rfl
  | cons c before ih =>
    rw [List.cons_append, lineFeedsFrom, lineFeedsFrom, ih, Text.width, Nat.add_assoc]
    split <;> rfl

theorem lineFeedsFrom_lt (offset : Nat) (t : Text) :
    ∀ feed ∈ lineFeedsFrom offset t, feed < offset + t.width := by
  induction t generalizing offset with
  | nil => exact fun feed h => nomatch h
  | cons c rest ih =>
    have hpos := c.utf8Size_pos
    have hrest : ∀ feed ∈ lineFeedsFrom (offset + c.utf8Size) rest, feed < offset + Text.width (c :: rest) := by
      intro feed h
      have hlt := ih _ feed h
      rwa [Nat.add_assoc] at hlt
    rw [lineFeedsFrom]
    split
    · refine List.forall_mem_cons.mpr ⟨?_, hrest⟩
      rw [Text.width]
      omega
    · exact hrest

theorem lineFeedsFrom_length (offset : Nat) (t : Text) : (lineFeedsFrom offset t).length = t.count '\n' := by
  induction t generalizing offset with
  | nil => rfl
  | cons c rest ih =>
    rw [lineFeedsFrom, List.count_cons]
    split
    · rw [List.length_cons, ih]
    · rw [ih, Nat.add_zero]

/-! ### Halving -/

/-- The items below a bound come first in a sorted list. -/
theorem getD_lt_iff (list : List Nat) (h : list.Pairwise (· < ·)) (bound i : Nat) (hi : i < list.length) :
    list.getD i 0 < bound ↔ i < list.countP (· < bound) := by
  induction list generalizing i with
  | nil => cases hi
  | cons first rest ih =>
    obtain ⟨hfirst, hrest⟩ := List.pairwise_cons.mp h
    by_cases hlt : first < bound
    · rw [List.countP_cons_of_pos (by simpa using hlt)]
      cases i with
      | zero => simpa using hlt
      | succ i =>
        have hrest := ih hrest i (Nat.lt_of_succ_lt_succ hi)
        rw [List.getD_cons_succ, hrest, Nat.add_lt_add_iff_right]
    · have hnone : rest.countP (· < bound) = 0 := by
        refine List.countP_eq_zero.mpr fun item hitem => ?_
        have hgt := hfirst item hitem
        simp only [decide_eq_true_eq]
        omega
      rw [List.countP_cons_of_neg (by simpa using hlt), hnone]
      cases i with
      | zero => simpa using hlt
      | succ i =>
        have hin : i < rest.length := Nat.lt_of_succ_lt_succ hi
        have hgt := hfirst _ (List.getElem_mem hin)
        rw [List.getD_cons_succ, List.getD_eq_getElem?_getD, List.getElem?_eq_getElem hin, Option.getD_some]
        omega

namespace LineIndex

/-- Halving a sorted list of places finds how many are before an offset. -/
theorem firstNotBefore_eq (feeds : List Nat) (h : feeds.Pairwise (· < ·)) (offset low high : Nat)
    (hlow : low ≤ feeds.countP (· < offset)) (hhigh : feeds.countP (· < offset) ≤ high)
    (hsize : high ≤ feeds.length) :
    firstNotBefore feeds.toArray offset low high = feeds.countP (· < offset) := by
  fun_induction firstNotBefore feeds.toArray offset low high with
  | case1 low high hlt middle hbefore ih =>
    have hmiddle : feeds.getD middle 0 < offset := by simpa using hbefore
    rw [getD_lt_iff feeds h offset middle (by omega)] at hmiddle
    exact ih hmiddle hhigh hsize
  | case2 low high hlt middle hbefore ih =>
    have hmiddle : ¬feeds.getD middle 0 < offset := by simpa using hbefore
    rw [getD_lt_iff feeds h offset middle (by omega)] at hmiddle
    exact ih hlow (by omega) (by omega)
  | case3 low high hge => omega

theorem lineAt_eq (t : Text) (offset : Nat) :
    (ofText t).lineAt offset = (lineFeedsFrom 0 t).countP (· < offset) + 1 := by
  rw [lineAt, ofText, firstNotBefore_eq _ (lineFeedsFrom_sorted 0 t) offset 0 _ (Nat.zero_le _)
    (by simpa using List.countP_le_length) (by simp)]

/-- The line of a place between two parts of a text. -/
theorem lineAt_width (before rest : Text) :
    (ofText (before ++ rest)).lineAt before.width = before.count '\n' + 1 := by
  have hbefore : (lineFeedsFrom 0 before).countP (· < before.width) = before.count '\n' := by
    rw [← lineFeedsFrom_length 0 before, List.countP_eq_length]
    intro feed h
    have hlt := lineFeedsFrom_lt 0 before feed h
    simp only [decide_eq_true_eq]
    omega
  have hrest : (lineFeedsFrom (0 + before.width) rest).countP (· < before.width) = 0 := by
    rw [List.countP_eq_zero]
    intro feed h
    have hge := lineFeedsFrom_ge _ rest feed h
    simp only [decide_eq_true_eq]
    omega
  rw [lineAt_eq, lineFeedsFrom_append, List.countP_append, hbefore, hrest]

theorem lineAt_le (t : Text) (offset : Nat) : (ofText t).lineAt offset ≤ t.count '\n' + 1 := by
  rw [lineAt_eq, ← lineFeedsFrom_length 0 t]
  exact Nat.succ_le_succ List.countP_le_length

theorem lineAt_mono (t : Text) {offset later : Nat} (h : offset ≤ later) :
    (ofText t).lineAt offset ≤ (ofText t).lineAt later := by
  rw [lineAt_eq, lineAt_eq]
  refine Nat.succ_le_succ (List.countP_mono_left fun feed _ hfeed => ?_)
  simp only [decide_eq_true_eq] at hfeed ⊢
  omega

/-! ### Bytes -/

theorem count_lineFeed_self (n : Nat) :
    ((String.utf8EncodeChar '\n').take n).count 0x0a = if 0 < n then 1 else 0 := by
  have hbytes : String.utf8EncodeChar '\n' = [0x0a] := rfl
  cases n with
  | zero => rfl
  | succ n => rw [hbytes, List.take_succ_cons, List.take_nil, List.count_singleton_self, if_pos n.succ_pos]

theorem count_lineFeed_of_ne {c : Char} (h : c ≠ '\n') (n : Nat) :
    ((String.utf8EncodeChar c).take n).count 0x0a = 0 := by
  refine List.count_eq_zero.mpr fun hfeed => h ?_
  exact Char.toNat_inj.mp (toNat_of_mem_utf8EncodeChar (List.mem_of_mem_take hfeed) (by decide)).symm

/-- The line feeds before a place are the bytes of line feeds before it. -/
theorem countP_lineFeedsFrom (offset place : Nat) (t : Text) :
    (lineFeedsFrom offset t).countP (· < place) = (t.bytes.take (place - offset)).count 0x0a := by
  induction t generalizing offset with
  | nil =>
    rw [bytes_nil, List.take_nil]
    rfl
  | cons c t ih =>
    have hmore : place - (offset + c.utf8Size) = place - offset - c.utf8Size := by omega
    rw [bytes_cons, List.take_append, String.length_utf8EncodeChar, List.count_append, ← hmore, ← ih]
    by_cases hfeed : c = '\n'
    · subst hfeed
      have hbefore : 0 < place - offset ↔ offset < place := Nat.sub_pos_iff_lt
      rw [lineFeedsFrom, if_pos (beq_self_eq_true _), List.countP_cons, count_lineFeed_self, Nat.add_comm]
      simp only [hbefore, decide_eq_true_eq]
    · rw [lineFeedsFrom, if_neg (by simpa using hfeed), count_lineFeed_of_ne hfeed, Nat.zero_add]

theorem lineAt_eq_bytes (t : Text) (offset : Nat) :
    (ofText t).lineAt offset = (t.bytes.take offset).count 0x0a + 1 := by
  rw [lineAt_eq, countP_lineFeedsFrom, Nat.sub_zero]

theorem lineAt_append (t more : Text) (k : Nat) :
    (ofText (t ++ more)).lineAt (t.width + k) = (ofText t).lineAt t.width + (ofText more).lineAt k - 1 := by
  have hwhole : t.bytes.take t.width = t.bytes := by rw [← length_bytes, List.take_length]
  rw [lineAt_eq_bytes, lineAt_eq_bytes, lineAt_eq_bytes, bytes_append, ← length_bytes, List.take_length_add_append,
    List.count_append, length_bytes, hwhole]
  omega

/-- The line of a place, wherever it is, is one more than the number of bytes of line feeds before it. So lines
never decrease, and the lines of two texts put together go on from the first to the second. -/
theorem lineAt_counts_lineFeeds (t : Text) :
    (∀ offset, (ofText t).lineAt offset = (t.bytes.take offset).count 0x0a + 1) ∧
    Monotone (ofText t).lineAt ∧
    ∀ (more : Text) (k : Nat),
      (ofText (t ++ more)).lineAt (t.width + k) = (ofText t).lineAt t.width + (ofText more).lineAt k - 1 :=
  ⟨lineAt_eq_bytes t, fun _ _ h => lineAt_mono t h, lineAt_append t⟩

end LineIndex

end CodeIndex
