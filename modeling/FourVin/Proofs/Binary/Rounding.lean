import FourVin.Binary.Format
import Mathlib.Algebra.Order.Ring.Nat

/-!
Rounding to a format is exact on the values of the format and depends on the quotient alone. A
finite magnitude is a significand that is shifted up; its bits are the sum of the significand and
the shift in the exponent field, which is how `Format.round` puts a result together.
-/
namespace FourVin

theorem roundHalfEven_mul_self (n d : Nat) (hd : 0 < d) : roundHalfEven (n * d) d = n := by
  simp [roundHalfEven, Nat.mul_div_cancel n hd, hd]

namespace Format

/-- Two quotients that are equal round to the same magnitude. -/
theorem round_eq_of_mul_eq (f : Format) (n d n' d' : Nat) (hd : 0 < d) (hd' : 0 < d')
    (h : n * d' = n' * d) : f.round n d = f.round n' d' := by
  rw [← round_mul_left f d' n d hd', ← round_mul_left f d n' d' hd, Nat.mul_comm d' n, h,
    Nat.mul_comm n' d, Nat.mul_comm d' d]

theorem round_le_infinity (f : Format) (n d : Nat) : f.round n d ≤ f.infinity :=
  Nat.min_le_right _ _

theorem fractionField_lt (f : Format) (bits : Nat) :
    f.fractionField bits < 1 <<< f.fractionBits := by
  apply Nat.mod_lt
  rw [Nat.one_shiftLeft]
  exact Nat.two_pow_pos _

theorem exponentField_append_fractionField (f : Format) (bits : Nat) :
    (f.exponentField bits <<< f.fractionBits) + f.fractionField bits = bits := by
  simp only [exponentField, fractionField, Nat.shiftLeft_eq, Nat.shiftRight_eq_div_pow,
    Nat.one_mul]
  exact Nat.div_add_mod' bits _

/-- The significand of a magnitude and its shift. The shift is zero below the normal numbers, and
above them the leading bit of the significand counts in the exponent field. -/
theorem exists_significand (f : Format) (bits : Nat) :
    ∃ significand shift, f.units bits = significand <<< shift ∧
      bits = (shift <<< f.fractionBits) + significand ∧
      significand < 2 * (1 <<< f.fractionBits) ∧
      (shift = 0 ∨ 1 <<< f.fractionBits ≤ significand) := by
  have hfraction := f.fractionField_lt bits
  have hfields := f.exponentField_append_fractionField bits
  unfold units
  split
  · next he =>
    rw [he, Nat.zero_shiftLeft, Nat.zero_add] at hfields
    exact ⟨f.fractionField bits, 0, rfl, by rw [Nat.zero_shiftLeft, Nat.zero_add, hfields],
      by omega, Or.inl rfl⟩
  · next he =>
    refine ⟨_, f.exponentField bits - 1, rfl, ?_, by omega, Or.inr (by omega)⟩
    obtain ⟨e, he'⟩ := Nat.exists_eq_succ_of_ne_zero he
    rw [he'] at hfields ⊢
    simp only [Nat.shiftLeft_eq, Nat.succ_mul, Nat.succ_sub_one] at hfields ⊢
    omega

theorem log2_significand (f : Format) (significand shift : Nat)
    (hhigh : significand < 2 * (1 <<< f.fractionBits))
    (hlow : shift = 0 ∨ 1 <<< f.fractionBits ≤ significand) :
    (significand <<< shift).log2 - f.fractionBits = shift := by
  simp only [Nat.shiftLeft_eq, Nat.one_mul] at hhigh hlow ⊢
  rcases hlow with rfl | hlow
  · by_cases h0 : significand = 0
    · simp [h0]
    · have hlt : significand.log2 < f.fractionBits + 1 := by
        rw [Nat.log2_lt h0, Nat.pow_succ]
        omega
      rw [Nat.pow_zero, Nat.mul_one]
      omega
  · have hpos := Nat.two_pow_pos f.fractionBits
    have hne : significand * 2 ^ shift ≠ 0 :=
      Nat.mul_ne_zero (by omega) (Nat.pos_iff_ne_zero.mp (Nat.two_pow_pos shift))
    have hlog : (significand * 2 ^ shift).log2 = f.fractionBits + shift := by
      rw [Nat.log2_eq_iff hne]
      constructor
      · rw [Nat.pow_add]
        exact Nat.mul_le_mul_right _ hlow
      · rw [show f.fractionBits + shift + 1 = f.fractionBits + 1 + shift by omega, Nat.pow_add]
        apply Nat.mul_lt_mul_of_pos_right _ (Nat.two_pow_pos shift)
        rw [Nat.pow_succ]
        omega
    omega

/-- A quotient that is a value of the format rounds to that value. -/
theorem round_units (f : Format) (bits n d : Nat) (hbits : bits ≤ f.infinity) (hd : 0 < d)
    (h : n <<< f.scale = f.units bits * d) : f.round n d = bits := by
  obtain ⟨significand, shift, hunits, hsum, hhigh, hlow⟩ := f.exists_significand bits
  have hshift : (f.units bits).log2 - f.fractionBits = shift := by
    rw [hunits]
    exact f.log2_significand significand shift hhigh hlow
  have hquotient : roundHalfEven (f.units bits * d) (d <<< shift) = significand := by
    rw [hunits, Nat.shiftLeft_eq, Nat.shiftLeft_eq, Nat.mul_comm d, Nat.mul_assoc]
    exact roundHalfEven_mul_self _ _ (Nat.mul_pos (Nat.two_pow_pos shift) hd)
  simp only [round, h, Nat.mul_div_cancel _ hd, hshift, hquotient, ← hsum]
  exact Nat.min_eq_left hbits

end Format

end FourVin
