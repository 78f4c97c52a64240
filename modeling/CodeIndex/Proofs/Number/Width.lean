import Mathlib
import CodeIndex.Number.Single

/-!
# Widths of numbers

The double that holds a single has the bits of its widened magnitude, and narrows to the same single.
Widening keeps the order of magnitudes. The bits of a double that is a number are kept when it is made
from them and read again.
-/

namespace CodeIndex

/-! ### Bits of doubles -/

section

open Float.Model Float.Model.UnpackedFloat

theorem toBitVec_ofBitVec (v : BitVec 1) : (Sign.ofBitVec v).toBitVec = v := by
  rcases BitVec.eq_zero_or_eq_one v with rfl | rfl <;> rfl

theorem packComponents_unpacked (b : BitVec 64) :
    packComponents .binary64 (Sign.ofBitVec (@unpackSign .binary64 b))
      (@unpackExponent .binary64 b) (@unpackMantissa .binary64 b) = b := by
  apply BitVec.eq_of_getLsbD_eq
  intro i hi
  have hi : i < 64 := hi
  simp only [packComponents, toBitVec_ofBitVec, BitVec.getLsbD_append, unpackSign, unpackExponent,
    unpackMantissa, BitVec.getLsbD_cast, BitVec.getLsbD_extractLsb]
  split
  · rw [decide_eq_true (by omega), Bool.true_and, Nat.zero_add]
  · split
    · rw [decide_eq_true (by omega), Bool.true_and, show 52 + (i - 52) = i by omega]
    · rw [decide_eq_true (by omega), Bool.true_and, show 52 + 11 + (i - 52 - 11) = i by omega]

theorem implicit_toNat (m : BitVec 52) : (1#1 ++ m).toNat = 2 ^ 52 + m.toNat := by
  rw [BitVec.toNat_append, ← Nat.shiftLeft_add_eq_or_of_lt m.isLt]
  rfl

theorem implicit_log2 (m : BitVec 52) : (1#1 ++ m).toNat.log2 = 52 := by
  have hm : m.toNat < 2 ^ 52 := m.isLt
  rw [implicit_toNat, Nat.log2_eq_iff (by omega)]
  omega

theorem implicit_ofNat (m : BitVec 52) : BitVec.ofNat 52 (1#1 ++ m).toNat = m := by
  apply BitVec.eq_of_toNat_eq
  rw [implicit_toNat, BitVec.toNat_ofNat]
  omega

theorem pack_unpack (b : BitVec 64)
    (h : @unpackExponent .binary64 b = -1#11 → @unpackMantissa .binary64 b = 0#52) :
    UnpackedFloat.pack .binary64 (UnpackedFloat.unpack .binary64 b) = b := by
  have hb := packComponents_unpacked b
  generalize hs : Sign.ofBitVec (@unpackSign .binary64 b) = sign at hb
  generalize he : @unpackExponent .binary64 b = exponent at hb h
  generalize hm : @unpackMantissa .binary64 b = mantissa at hb h
  simp only [UnpackedFloat.unpack, hs, he, hm]
  by_cases hone : exponent = -1#11
  · simp only [hone, ite_true, h hone]
    rw [← hb, hone, h hone]
    rfl
  · simp only [hone, ite_false]
    by_cases hzero : exponent = 0#11
    · simp only [hzero, ite_true]
      by_cases hnone : mantissa = 0#52
      · simp only [hnone, dite_true]
        rw [← hb, hzero, hnone]
        rfl
      · simp only [hnone, dite_false, UnpackedFloat.pack]
        have hpos : mantissa.toNat ≠ 0 := fun hn => hnone (BitVec.eq_of_toNat_eq hn)
        have hlog : mantissa.toNat.log2 < 52 := (Nat.log2_lt hpos).mpr mantissa.isLt
        have hshort : ¬mantissa.toNat.log2 + 1 = Format.binary64.mantissaBits := by
          have hbits : Format.binary64.mantissaBits = 53 := rfl
          omega
        rw [if_neg (by decide), if_neg hshort, BitVec.ofNat_toNat, BitVec.setWidth_eq, ← hb, hzero]
    · have hlt : exponent.toNat < 2047 := by
        have hne : exponent.toNat ≠ 2047 := fun hn => hone (BitVec.eq_of_toNat_eq hn)
        have hle : exponent.toNat < 2048 := exponent.isLt
        omega
      have hbiased : ((exponent.toNat : Int) - (Format.binary64.exponentBias + (52 : Nat)) +
          Format.binary64.exponentBias + (52 : Nat)).toNat = exponent.toNat := by omega
      simp only [hzero, ite_false, UnpackedFloat.pack]
      rw [hbiased, if_neg (by omega), if_pos (by rw [implicit_log2]; rfl), BitVec.ofNat_toNat,
        BitVec.setWidth_eq, implicit_ofNat, hb]

end

theorem toBits_ofBits (b : UInt64) (h : b.toNat % bound63 ≤ 2047 * 2 ^ 52) :
    (Float.ofBits b).toBits = b := by
  have hp := pack_unpack b.toBitVec (by
    intro he
    have he := congrArg BitVec.toNat he
    apply BitVec.eq_of_toNat_eq
    simp [Float.Model.UnpackedFloat.unpackExponent, Float.Model.UnpackedFloat.unpackMantissa,
      Nat.shiftRight_eq_div_pow] at he ⊢
    unfold bound63 at h
    omega)
  exact congrArg UInt64.ofBitVec hp

/-! ### Magnitudes -/

namespace Single

theorem roundHalfEven_exact (n d : Nat) (hd : 0 < d) : roundHalfEven (n * d) d = n := by
  have hrest : n * d % d = 0 := Nat.mul_mod_left n d
  have hwhole : n * d / d = n := Nat.mul_div_cancel n hd
  simp only [roundHalfEven, hrest, hwhole, Nat.mul_zero, if_pos hd]

theorem widened_normal (m : Nat) (h : 2 ^ 23 ≤ m) (hm : m < 255 * 2 ^ 23) :
    widened m = 896 * 2 ^ 52 + m * 2 ^ 29 := by
  have he : m / 2 ^ 23 ≠ 255 := by omega
  have hz : m / 2 ^ 23 ≠ 0 := by omega
  simp only [widened, Nat.pow_eq, he, hz, if_false]
  omega

theorem widened_below (m : Nat) (h : 0 < m) (hm : m < 2 ^ 23) :
    widened m = (m.log2 + 873) * 2 ^ 52 + m * 2 ^ (52 - m.log2) := by
  have he : m / 2 ^ 23 = 0 := Nat.div_eq_of_lt hm
  have hf : m % 2 ^ 23 = m := Nat.mod_eq_of_lt hm
  have hpos : m ≠ 0 := by omega
  simp only [widened, Nat.pow_eq, he, hf, hpos, if_false, if_true, show ¬(0 : Nat) = 255 by decide]

/-- The leading bit of a fraction comes to stand where the implicit bit is. -/
theorem shifted_bounds (m : Nat) (h : 0 < m) (hm : m < 2 ^ 23) :
    m.log2 < 23 ∧ 2 ^ 52 ≤ m * 2 ^ (52 - m.log2) ∧ m * 2 ^ (52 - m.log2) < 2 ^ 53 := by
  have hpos : m ≠ 0 := by omega
  have hlog : m.log2 < 23 := (Nat.log2_lt hpos).mpr hm
  have hlow : 2 ^ m.log2 ≤ m := Nat.log2_self_le hpos
  have hhigh : m < 2 ^ (m.log2 + 1) := Nat.lt_log2_self
  have hsplit : 2 ^ m.log2 * 2 ^ (52 - m.log2) = 2 ^ 52 := by
    rw [← Nat.pow_add]
    congr 1
    omega
  have hsplit' : 2 ^ (m.log2 + 1) * 2 ^ (52 - m.log2) = 2 ^ 53 := by
    rw [← Nat.pow_add]
    congr 1
    omega
  refine ⟨hlog, ?_, ?_⟩
  · rw [← hsplit]
    exact Nat.mul_le_mul_right _ hlow
  · rw [← hsplit']
    exact Nat.mul_lt_mul_of_pos_right hhigh (Nat.two_pow_pos _)

theorem narrowed_widened (m : Nat) (h : m ≤ 255 * 2 ^ 23) : narrowed (widened m) = m := by
  rcases Nat.lt_or_ge m (2 ^ 23) with hlow | hhigh
  · rcases Nat.eq_zero_or_pos m with rfl | hpos
    · have hw : widened 0 = 0 := rfl
      have hr := roundHalfEven_exact 0 (2 ^ (29 + (897 - max 0 1))) (Nat.two_pow_pos _)
      rw [Nat.zero_mul] at hr
      simp only [hw, narrowed, Nat.pow_eq, Nat.zero_div, Nat.zero_mod, ite_true, hr]
      rfl
    · obtain ⟨hlog, hlead, hnext⟩ := shifted_bounds m hpos hlow
      have hw := widened_below m hpos hlow
      have he : widened m / 2 ^ 52 = m.log2 + 874 := by omega
      have hf : widened m % 2 ^ 52 = m * 2 ^ (52 - m.log2) - 2 ^ 52 := by omega
      have hd : 29 + (897 - max (m.log2 + 874) 1) = 52 - m.log2 := by omega
      have hr := roundHalfEven_exact m (2 ^ (52 - m.log2)) (Nat.two_pow_pos _)
      have hback : m * 2 ^ (52 - m.log2) - 2 ^ 52 + 2 ^ 52 = m * 2 ^ (52 - m.log2) := by omega
      have hlt : ¬m.log2 + 874 = 2047 := by omega
      simp only [narrowed, Nat.pow_eq, he, hf, hd, hlt, if_false, hback, hr, show ¬m.log2 + 874 = 0 by omega]
      omega
  · rcases Nat.lt_or_ge m (255 * 2 ^ 23) with hfinite | hinfinite
    · have hw := widened_normal m hhigh hfinite
      have he : widened m / 2 ^ 52 = m / 2 ^ 23 + 896 := by omega
      have hf : widened m % 2 ^ 52 = m % 2 ^ 23 * 2 ^ 29 := by omega
      have hd : 29 + (897 - max (m / 2 ^ 23 + 896) 1) = 29 := by omega
      have hr := roundHalfEven_exact (m % 2 ^ 23 + 2 ^ 23) (2 ^ 29) (Nat.two_pow_pos _)
      have hback : m % 2 ^ 23 * 2 ^ 29 + 2 ^ 52 = (m % 2 ^ 23 + 2 ^ 23) * 2 ^ 29 := by omega
      simp only [narrowed, Nat.pow_eq, he, hf, hd, if_false, hback, hr,
        show ¬m / 2 ^ 23 + 896 = 2047 by omega, show ¬m / 2 ^ 23 + 896 = 0 by omega]
      omega
    · have hm : m = 255 * 2 ^ 23 := by omega
      subst hm
      decide

theorem widened_lt (m n : Nat) (h : m < n) (hn : n ≤ 255 * 2 ^ 23) : widened m < widened n := by
  have htop : widened (255 * 2 ^ 23) = 2047 * 2 ^ 52 := rfl
  rcases Nat.lt_or_ge n (2 ^ 23) with hlow | hhigh
  · -- both are below the least normal single
    have hwn := widened_below n (by omega) hlow
    obtain ⟨-, hlead, -⟩ := shifted_bounds n (by omega) hlow
    rcases Nat.eq_zero_or_pos m with rfl | hpos
    · have hw : widened 0 = 0 := rfl
      omega
    · have hwm := widened_below m hpos (by omega)
      obtain ⟨-, -, hnext⟩ := shifted_bounds m hpos (by omega)
      have hle : m.log2 ≤ n.log2 :=
        (Nat.le_log2 (by omega)).mpr ((Nat.log2_self_le (by omega)).trans h.le)
      rcases Nat.lt_or_eq_of_le hle with hlt | heq
      · omega
      · rw [← heq] at hwn
        have hmul : m * 2 ^ (52 - m.log2) < n * 2 ^ (52 - m.log2) :=
          Nat.mul_lt_mul_of_pos_right h (Nat.two_pow_pos _)
        omega
  · rcases Nat.lt_or_ge m (2 ^ 23) with hmlow | hmhigh
    · have hwm : widened m < 897 * 2 ^ 52 := by
        rcases Nat.eq_zero_or_pos m with rfl | hpos
        · decide
        · have hwm := widened_below m hpos hmlow
          obtain ⟨hlog, -, hnext⟩ := shifted_bounds m hpos hmlow
          omega
      rcases Nat.lt_or_ge n (255 * 2 ^ 23) with hfinite | hinfinite
      · have hwn := widened_normal n hhigh hfinite
        omega
      · rw [show n = 255 * 2 ^ 23 by omega]
        omega
    · have hwm := widened_normal m hmhigh (by omega)
      rcases Nat.lt_or_ge n (255 * 2 ^ 23) with hfinite | hinfinite
      · have hwn := widened_normal n hhigh hfinite
        omega
      · rw [show n = 255 * 2 ^ 23 by omega]
        omega

theorem widened_bound (m : Nat) (h : m ≤ 255 * 2 ^ 23) : widened m ≤ 2047 * 2 ^ 52 := by
  have htop : widened (255 * 2 ^ 23) = 2047 * 2 ^ 52 := rfl
  rcases Nat.lt_or_eq_of_le h with hlt | rfl
  · exact htop ▸ (widened_lt m _ hlt (Nat.le_refl _)).le
  · exact htop.le

theorem toFloat_bits (x : Single) (h : x.isNaN = false) :
    x.toFloat.toBits.toNat = x.bits.toNat / bound31 * bound63 + widened x.magnitude := by
  have hm : x.magnitude ≤ 255 * 2 ^ 23 := by
    have hn : ¬0x7f800000 < x.magnitude := of_decide_eq_false h
    omega
  have hw := widened_bound x.magnitude hm
  have hx : x.bits.toNat < 2 ^ 32 := x.bits.toNat_lt
  have hsign : x.bits.toNat / bound31 ≤ 1 := by
    unfold bound31
    omega
  have hsize : x.bits.toNat / bound31 * bound63 + widened x.magnitude < 2 ^ 64 := by
    unfold bound63
    omega
  have hb : (UInt64.ofNat (x.bits.toNat / bound31 * bound63 + widened x.magnitude)).toNat =
      x.bits.toNat / bound31 * bound63 + widened x.magnitude :=
    UInt64.toNat_ofNat_of_lt' hsize
  have hdouble := toBits_ofBits _ (by
    rw [hb]
    unfold bound63
    omega)
  rw [← hb]
  exact congrArg UInt64.toNat hdouble

/-- A single reads back from the double that holds it. -/
theorem ofFloat_toFloat (x : Single) (h : x.isNaN = false) : ofFloat x.toFloat = x := by
  have hb := x.toFloat_bits h
  have hm : x.magnitude ≤ 255 * 2 ^ 23 := by
    have hn : ¬0x7f800000 < x.magnitude := of_decide_eq_false h
    omega
  have hw := widened_bound x.magnitude hm
  have hsign : x.toFloat.toBits.toNat / bound63 = x.bits.toNat / bound31 := by
    unfold bound63 at *
    omega
  have hrest : x.toFloat.toBits.toNat % bound63 = widened x.magnitude := by
    unfold bound63 at *
    omega
  have hall : x.bits.toNat / bound31 * bound31 + x.magnitude = x.bits.toNat := by
    unfold magnitude bound31
    omega
  simp only [ofFloat, hsign, hrest, narrowed_widened _ hm, hall, UInt32.ofNat_toNat]

end Single

end CodeIndex
