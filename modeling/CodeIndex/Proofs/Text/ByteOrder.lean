import CodeIndex.Digest.Sha256
import CodeIndex.Path.Order

/-!
# The order of bytes

Texts that are compared character by character are in the order of their UTF-8 bytes: of two characters
the one with the smaller number has the smaller bytes, and none is the start of another.
-/

namespace CodeIndex

/-! ### Bytes of texts -/

theorem toList_loop (b : ByteArray) (i : Nat) (taken : List UInt8) :
    ByteArray.toList.loop b i taken = taken.reverse ++ b.data.toList.drop i := by
  fun_induction ByteArray.toList.loop b i taken with
  | case1 i taken h ih =>
    have hi : i < b.data.toList.length := by simpa using h
    have hget : b.get! i = b.data.toList[i] := by
      have hi : i < b.data.size := hi
      exact (getElem!_pos b.data i hi).trans (Array.getElem_toList hi).symm
    rw [ih, List.drop_eq_getElem_cons hi, hget, List.reverse_cons, List.append_assoc,
      List.singleton_append]
  | case2 i taken h =>
    rw [List.drop_eq_nil_of_le (by simpa using Nat.le_of_not_lt h), List.append_nil]

theorem bytes_eq (t : Text) : t.bytes = t.flatMap String.utf8EncodeChar := by
  have hloop := toList_loop t.utf8Encode 0 []
  rw [List.reverse_nil, List.nil_append, List.drop_zero] at hloop
  exact hloop.trans List.toList_data_toByteArray

theorem bytes_cons (c : Char) (t : Text) : Text.bytes (c :: t) = String.utf8EncodeChar c ++ t.bytes := by
  rw [bytes_eq, bytes_eq, List.flatMap_cons]

theorem bytes_append (s t : Text) : Text.bytes (s ++ t) = s.bytes ++ t.bytes := by
  rw [bytes_eq, bytes_eq, bytes_eq, List.flatMap_append]

theorem length_bytes (t : Text) : t.bytes.length = t.width := by
  induction t with
  | nil => rw [bytes_eq]; rfl
  | cons c t ih => rw [bytes_cons, List.length_append, ih, String.length_utf8EncodeChar, Text.width]

/-! ### Bytes of characters -/

/-- The bytes of a character, by its number. -/
theorem utf8EncodeChar_cases (c : Char) :
    (∃ x, String.utf8EncodeChar c = [x] ∧ c.toNat < 128 ∧ x.toNat = c.toNat) ∨
    (∃ x y, String.utf8EncodeChar c = [x, y] ∧ 128 ≤ c.toNat ∧ c.toNat < 2048 ∧
      x.toNat = 192 + c.toNat / 64 ∧ y.toNat = 128 + c.toNat % 64) ∨
    (∃ x y z, String.utf8EncodeChar c = [x, y, z] ∧ 2048 ≤ c.toNat ∧ c.toNat < 65536 ∧
      x.toNat = 224 + c.toNat / 4096 ∧ y.toNat = 128 + c.toNat / 64 % 64 ∧
      z.toNat = 128 + c.toNat % 64) ∨
    ∃ x y z w, String.utf8EncodeChar c = [x, y, z, w] ∧ 65536 ≤ c.toNat ∧
      x.toNat = 240 + c.toNat / 262144 ∧ y.toNat = 128 + c.toNat / 4096 % 64 ∧
      z.toNat = 128 + c.toNat / 64 % 64 ∧ w.toNat = 128 + c.toNat % 64 := by
  have hv : c.val.toNat = c.toNat := rfl
  have hlt : c.toNat < 1114112 := by
    have hvalid : c.toNat < 55296 ∨ 57343 < c.toNat ∧ c.toNat < 1114112 := c.valid
    omega
  unfold String.utf8EncodeChar
  simp only [hv]
  generalize c.toNat = n at hlt
  split
  · exact Or.inl ⟨_, rfl, by omega, by rw [UInt8.toNat_ofNat']; omega⟩
  · split
    · exact Or.inr (Or.inl ⟨_, _, rfl, by omega, by omega, by rw [UInt8.toNat_ofNat']; omega,
        by rw [UInt8.toNat_ofNat']; omega⟩)
    · split
      · exact Or.inr (Or.inr (Or.inl ⟨_, _, _, rfl, by omega, by omega,
          by rw [UInt8.toNat_ofNat']; omega, by rw [UInt8.toNat_ofNat']; omega,
          by rw [UInt8.toNat_ofNat']; omega⟩))
      · exact Or.inr (Or.inr (Or.inr ⟨_, _, _, _, rfl, by omega,
          by rw [UInt8.toNat_ofNat']; omega, by rw [UInt8.toNat_ofNat']; omega,
          by rw [UInt8.toNat_ofNat']; omega, by rw [UInt8.toNat_ofNat']; omega⟩))

/-- A byte below 128 is a character of its own: no other character has it. -/
theorem toNat_of_mem_utf8EncodeChar {c : Char} {b : UInt8} (h : b ∈ String.utf8EncodeChar c)
    (hb : b.toNat < 128) : b.toNat = c.toNat := by
  obtain ⟨x, hc, hx⟩ | ⟨x, y, hc, hx⟩ | ⟨x, y, z, hc, hx⟩ | ⟨x, y, z, w, hc, hx⟩ := utf8EncodeChar_cases c <;>
    rw [hc] at h <;> simp only [List.mem_cons, List.not_mem_nil, or_false] at h <;>
    rcases h with rfl | rfl | rfl | rfl <;> omega

theorem bytes_lt_of_lt {x y : UInt8} (u v : List UInt8) (h : x.toNat < y.toNat) : x :: u < y :: v :=
  List.cons_lt_cons_iff.mpr (Or.inl (UInt8.lt_iff_toNat_lt.mpr h))

theorem bytes_lt_of_eq {x y : UInt8} {u v : List UInt8} (h : x.toNat = y.toNat) (huv : u < v) :
    x :: u < y :: v :=
  List.cons_lt_cons_iff.mpr (Or.inr ⟨UInt8.toNat_inj.mp h, huv⟩)

/-- Of two characters the one with the smaller number has the smaller bytes, whatever follows. -/
theorem utf8EncodeChar_lt (a b : Char) (h : a.toNat < b.toNat) (s t : List UInt8) :
    String.utf8EncodeChar a ++ s < String.utf8EncodeChar b ++ t := by
  obtain ⟨x, ha, ha'⟩ | ⟨x, y, ha, ha'⟩ | ⟨x, y, z, ha, ha'⟩ | ⟨x, y, z, w, ha, ha'⟩ :=
    utf8EncodeChar_cases a <;>
  obtain ⟨x', hb, hb'⟩ | ⟨x', y', hb, hb'⟩ | ⟨x', y', z', hb, hb'⟩ | ⟨x', y', z', w', hb, hb'⟩ :=
    utf8EncodeChar_cases b <;>
  rw [ha, hb] <;>
  simp only [List.cons_append, List.nil_append]
  -- characters with the same number of bytes: the first byte that differs decides
  case inr.inl.inr.inl =>
    rcases (by omega : x.toNat < x'.toNat ∨ x.toNat = x'.toNat ∧ y.toNat < y'.toNat) with
      hx | ⟨hx, hy⟩
    · exact bytes_lt_of_lt _ _ hx
    · exact bytes_lt_of_eq hx (bytes_lt_of_lt _ _ hy)
  case inr.inr.inl.inr.inr.inl =>
    rcases (by omega : x.toNat < x'.toNat ∨ x.toNat = x'.toNat ∧ y.toNat < y'.toNat ∨
      x.toNat = x'.toNat ∧ y.toNat = y'.toNat ∧ z.toNat < z'.toNat) with
      hx | ⟨hx, hy⟩ | ⟨hx, hy, hz⟩
    · exact bytes_lt_of_lt _ _ hx
    · exact bytes_lt_of_eq hx (bytes_lt_of_lt _ _ hy)
    · exact bytes_lt_of_eq hx (bytes_lt_of_eq hy (bytes_lt_of_lt _ _ hz))
  case inr.inr.inr.inr.inr.inr =>
    rcases (by omega : x.toNat < x'.toNat ∨ x.toNat = x'.toNat ∧ y.toNat < y'.toNat ∨
      x.toNat = x'.toNat ∧ y.toNat = y'.toNat ∧ z.toNat < z'.toNat ∨
      x.toNat = x'.toNat ∧ y.toNat = y'.toNat ∧ z.toNat = z'.toNat ∧ w.toNat < w'.toNat) with
      hx | ⟨hx, hy⟩ | ⟨hx, hy, hz⟩ | ⟨hx, hy, hz, hw⟩
    · exact bytes_lt_of_lt _ _ hx
    · exact bytes_lt_of_eq hx (bytes_lt_of_lt _ _ hy)
    · exact bytes_lt_of_eq hx (bytes_lt_of_eq hy (bytes_lt_of_lt _ _ hz))
    · exact bytes_lt_of_eq hx (bytes_lt_of_eq hy (bytes_lt_of_eq hz (bytes_lt_of_lt _ _ hw)))
  -- all others: the first byte decides
  all_goals exact bytes_lt_of_lt _ _ (by omega)

/-! ### Bytes and characters -/

theorem bytes_nil : Text.bytes [] = [] := bytes_eq []

theorem bytes_nil_lt (c : Char) (t : Text) : Text.bytes [] < Text.bytes (c :: t) := by
  rw [bytes_nil, bytes_cons]
  obtain ⟨x, hc, -⟩ | ⟨x, y, hc, -⟩ | ⟨x, y, z, hc, -⟩ | ⟨x, y, z, w, hc, -⟩ :=
    utf8EncodeChar_cases c <;> rw [hc] <;> exact List.nil_lt_cons _ _

theorem append_lt_append (u : List UInt8) {s t : List UInt8} (h : s < t) : u ++ s < u ++ t := by
  induction u with
  | nil => exact h
  | cons x u ih => exact bytes_lt_of_eq rfl ih

/-- What comparing two texts says of their bytes. -/
def ComparesBytes (s t : Text) : Ordering → Prop
  | .lt => s.bytes < t.bytes
  | .eq => s = t
  | .gt => t.bytes < s.bytes

theorem compare_comparesBytes (s t : Text) : ComparesBytes s t (Text.compare s t) := by
  induction s generalizing t with
  | nil =>
    cases t with
    | nil => exact rfl
    | cons b t => exact bytes_nil_lt b t
  | cons a s ih =>
    cases t with
    | nil => exact bytes_nil_lt a s
    | cons b t =>
      rw [Text.compare]
      split
      · next hlt =>
        simp only [ComparesBytes, bytes_cons]
        exact utf8EncodeChar_lt a b hlt _ _
      · split
        · next hgt =>
          simp only [ComparesBytes, bytes_cons]
          exact utf8EncodeChar_lt b a hgt _ _
        · have hab : a = b := Char.toNat_inj.mp (by omega)
          subst hab
          have hrest := ih t
          cases hc : Text.compare s t with
          | lt =>
            rw [hc] at hrest
            simp only [ComparesBytes, bytes_cons]
            exact append_lt_append _ hrest
          | eq =>
            rw [hc] at hrest
            exact congrArg (List.cons a) hrest
          | gt =>
            rw [hc] at hrest
            simp only [ComparesBytes, bytes_cons]
            exact append_lt_append _ hrest

theorem compare_eq_gt_iff (s t : Text) : Text.compare s t = .gt ↔ t.bytes < s.bytes := by
  have h := compare_comparesBytes s t
  cases hc : Text.compare s t with
  | lt =>
    rw [hc] at h
    exact iff_of_false (by decide) fun hlt => List.lt_asymm h hlt
  | eq =>
    rw [hc] at h
    have h : s = t := h
    exact iff_of_false (by decide) (h ▸ List.lt_irrefl _)
  | gt =>
    rw [hc] at h
    exact iff_of_true rfl h

theorem bytes_injective {s t : Text} (h : s.bytes = t.bytes) : s = t := by
  have hcompare := compare_comparesBytes s t
  cases hc : Text.compare s t with
  | eq =>
    rw [hc] at hcompare
    exact hcompare
  | lt =>
    rw [hc, ComparesBytes, h] at hcompare
    exact absurd hcompare (List.lt_irrefl _)
  | gt =>
    rw [hc, ComparesBytes, h] at hcompare
    exact absurd hcompare (List.lt_irrefl _)

end CodeIndex
