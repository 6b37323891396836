import FourVin.Proofs.Binary.Rounding
import Mathlib.Order.Monotone.Basic

/-!
Where rounding changes its result. Between two neighbouring values of a format lies a halfway point,
and a quotient rounds to the lower neighbour or below exactly when it is less than that point, or
is that point and the lower neighbour is even. This one equivalence, `round_le_iff`, says that
`Format.round` goes to the nearest value and from a half to the even one. It makes rounding
monotone, and it turns a bound on a result into a bound on the quotient.
-/
namespace FourVin

theorem roundHalfEven_le_iff (n d k : Nat) (hd : 0 < d) :
    roundHalfEven n d ≤ k ↔
      2 * n < (2 * k + 1) * d ∨ (2 * n = (2 * k + 1) * d ∧ k % 2 = 0) := by
  have hdiv := Nat.div_add_mod n d
  have hmod := Nat.mod_lt n hd
  generalize hq : n / d = q at hdiv
  generalize hr : n % d = r at hdiv hmod
  have hround : roundHalfEven n d = if 2 * r < d ∨ (2 * r = d ∧ q % 2 = 0) then q else q + 1 := by
    rw [roundHalfEven, hq, hr]
  have hodd : (2 * k + 1) * d = 2 * (d * k) + d := by
    rw [Nat.add_mul, Nat.one_mul, Nat.mul_assoc, Nat.mul_comm k]
  rw [hround, hodd]
  rcases Nat.lt_trichotomy k q with hk | rfl | hk
  · have hmul : d * k + d ≤ d * q := Nat.mul_le_mul_left d hk
    split <;> omega
  · split <;> omega
  · have hmul : d * q + d ≤ d * k := Nat.mul_le_mul_left d hk
    split <;> omega

namespace Format

variable (f : Format)

/-- A significand may be as large as the carry of a rounding makes it. -/
theorem units_shifted (significand shift : Nat)
    (hhigh : significand ≤ 2 * (1 <<< f.fractionBits))
    (hlow : shift = 0 ∨ 1 <<< f.fractionBits ≤ significand) :
    f.units ((shift <<< f.fractionBits) + significand) = significand <<< shift := by
  have hpos : 0 < 1 <<< f.fractionBits := by
    rw [Nat.one_shiftLeft]
    exact Nat.two_pow_pos _
  simp only [units, exponentField, fractionField, Nat.shiftRight_eq_div_pow, Nat.shiftLeft_eq,
    Nat.one_mul] at hhigh hlow hpos ⊢
  generalize 2 ^ f.fractionBits = size at hhigh hlow hpos ⊢
  rw [Nat.add_comm, Nat.add_mul_div_right _ _ hpos, Nat.add_mul_mod_self_right]
  by_cases hsmall : significand < size
  · obtain rfl : shift = 0 := hlow.resolve_right (by omega)
    rw [Nat.div_eq_of_lt hsmall, Nat.mod_eq_of_lt hsmall]
    simp
  · by_cases hcarry : significand = 2 * size
    · rw [hcarry, Nat.mul_div_cancel 2 hpos, Nat.mul_mod_left, if_neg (by omega),
        show 2 + shift - 1 = shift + 1 by omega, Nat.pow_succ, Nat.add_zero]
      ac_rfl
    · have hdiv : significand / size = 1 := by
        rw [Nat.div_eq_iff hpos]
        omega
      have hmod : significand % size = significand - size := by
        rw [Nat.mod_eq_sub_mod (by omega), Nat.mod_eq_of_lt (by omega)]
      rw [hdiv, hmod, if_neg (by omega), Nat.add_sub_cancel' (by omega),
        show 1 + shift - 1 = shift by omega]

/-- Twice the point in the middle between a value and the next one, counted in units. -/
def halfway (bits : Nat) : Nat := f.units bits + f.units (bits + 1)

/-- The next value is one step of the significand away. -/
theorem exists_step (bits : Nat) :
    ∃ significand shift, bits = (shift <<< f.fractionBits) + significand ∧
      significand < 2 * (1 <<< f.fractionBits) ∧
      (shift = 0 ∨ 1 <<< f.fractionBits ≤ significand) ∧
      f.units bits = significand <<< shift ∧ f.units (bits + 1) = (significand + 1) <<< shift := by
  obtain ⟨significand, shift, hunits, hsum, hhigh, hlow⟩ := f.exists_significand bits
  refine ⟨significand, shift, hsum, hhigh, hlow, hunits, ?_⟩
  rw [hsum, Nat.add_assoc]
  exact f.units_shifted (significand + 1) shift (by omega) (by omega)

theorem units_strictMono : StrictMono f.units := by
  apply strictMono_nat_of_lt_succ
  intro bits
  obtain ⟨significand, shift, -, -, -, hunits, hnext⟩ := f.exists_step bits
  rw [hunits, hnext, Nat.shiftLeft_eq, Nat.shiftLeft_eq]
  exact Nat.mul_lt_mul_of_pos_right (Nat.lt_succ_self _) (Nat.two_pow_pos _)

/-- The quotient is on the near side of the halfway point behind a value, or on that point with the
value being even. -/
def Within (n d bits : Nat) : Prop :=
  2 * (n <<< f.scale) < f.halfway bits * d ∨
    (2 * (n <<< f.scale) = f.halfway bits * d ∧ bits % 2 = 0)

/-- The shift that `round` chooses puts the quotient into the range of significands. -/
theorem quotient_bounds (n d : Nat) (hd : 0 < d) :
    let shift := (n / d).log2 - f.fractionBits
    n < 2 ^ (f.fractionBits + 1) * (d <<< shift) ∧
      (shift = 0 ∨ 2 ^ f.fractionBits * (d <<< shift) ≤ n) := by
  intro shift
  have hfloor := Nat.div_mul_le_self n d
  have hceil := Nat.lt_mul_div_succ n hd
  constructor
  · have hq : n / d < 2 ^ (f.fractionBits + 1 + shift) := by
      refine Nat.lt_of_lt_of_le Nat.lt_log2_self (Nat.pow_le_pow_right (by decide) ?_)
      omega
    calc n < d * (n / d + 1) := hceil
      _ ≤ d * 2 ^ (f.fractionBits + 1 + shift) := Nat.mul_le_mul_left d hq
      _ = 2 ^ (f.fractionBits + 1) * (d <<< shift) := by
        rw [Nat.shiftLeft_eq, Nat.pow_add, Nat.mul_left_comm]
  · by_cases hshift : shift = 0
    · exact .inl hshift
    · right
      have hne : n / d ≠ 0 := by
        intro hzero
        simp [shift, hzero] at hshift
      have hq : 2 ^ (f.fractionBits + shift) ≤ n / d := by
        have hlog := Nat.log2_self_le hne
        rwa [show (n / d).log2 = f.fractionBits + shift by omega] at hlog
      calc 2 ^ f.fractionBits * (d <<< shift) = 2 ^ (f.fractionBits + shift) * d := by
            rw [Nat.shiftLeft_eq, Nat.pow_add, Nat.mul_assoc, Nat.mul_comm d]
        _ ≤ n / d * d := Nat.mul_le_mul_right d hq
        _ ≤ n := hfloor

/-- How a result is put together from a shift and a significand, which may carry. -/
theorem exists_rounded (n d : Nat) (hd : 0 < d) :
    ∃ significand shift, f.round n d = min ((shift <<< f.fractionBits) + significand) f.infinity ∧
      significand = roundHalfEven (n <<< f.scale) (d <<< shift) ∧
      significand ≤ 2 ^ (f.fractionBits + 1) ∧
      (shift = 0 ∨ 2 ^ f.fractionBits ≤ significand) ∧
      n <<< f.scale < 2 ^ (f.fractionBits + 1) * (d <<< shift) ∧
      (shift = 0 ∨ 2 ^ f.fractionBits * (d <<< shift) ≤ n <<< f.scale) := by
  have hbounds := f.quotient_bounds (n <<< f.scale) d hd
  generalize hshift : ((n <<< f.scale) / d).log2 - f.fractionBits = shift at hbounds
  obtain ⟨hupper, hlower⟩ := hbounds
  have hpos : 0 < d <<< shift := by
    rw [Nat.shiftLeft_eq]
    exact Nat.mul_pos hd (Nat.two_pow_pos _)
  refine ⟨_, shift, by rw [← hshift]; rfl, rfl, ?_, ?_, hupper, hlower⟩
  · rw [roundHalfEven_le_iff _ _ _ hpos, Nat.add_mul, Nat.mul_assoc]
    left
    omega
  · refine hlower.imp_right fun hle => ?_
    by_contra hlt
    have hsize := Nat.two_pow_pos f.fractionBits
    have hround : roundHalfEven (n <<< f.scale) (d <<< shift) ≤ 2 ^ f.fractionBits - 1 := by omega
    rw [roundHalfEven_le_iff _ _ _ hpos] at hround
    have hodd : (2 * (2 ^ f.fractionBits - 1) + 1) * (d <<< shift) <
        2 * (2 ^ f.fractionBits * (d <<< shift)) := by
      rw [← Nat.mul_assoc]
      exact Nat.mul_lt_mul_of_pos_right (by omega) hpos
    omega

private theorem two_mul_shiftLeft_le (d : Nat) {s t : Nat} (h : s < t) :
    2 * (d <<< s) ≤ d <<< t := by
  have hpow : 2 ^ (s + 1) ≤ 2 ^ t := Nat.pow_le_pow_right (by decide) h
  rw [Nat.shiftLeft_eq, Nat.shiftLeft_eq, Nat.mul_left_comm, Nat.mul_comm 2]
  exact Nat.mul_le_mul_left d hpow

private theorem shiftLeft_add_le {s t m : Nat} (h : s < t) : s <<< m + 2 ^ m ≤ t <<< m := by
  rw [Nat.shiftLeft_eq, Nat.shiftLeft_eq]
  calc s * 2 ^ m + 2 ^ m = (s + 1) * 2 ^ m := by rw [Nat.succ_mul]
    _ ≤ t * 2 ^ m := Nat.mul_le_mul_right _ h

/-- A quotient rounds to a value or below exactly when it does not lie beyond the halfway point
behind that value. -/
theorem round_le_iff (hf : 0 < f.fractionBits) {n d bits : Nat} (hd : 0 < d)
    (hbits : bits < f.infinity) : f.round n d ≤ bits ↔ f.Within n d bits := by
  obtain ⟨significand, shift, hround, hsignificand, hhigh, hlow, hupper, hlower⟩ :=
    f.exists_rounded n d hd
  obtain ⟨k, s, hsum, hk, hs, hunits, hnext⟩ := f.exists_step bits
  rw [Nat.one_shiftLeft] at hk hs
  have hmin : f.round n d ≤ bits ↔ (shift <<< f.fractionBits) + significand ≤ bits := by
    rw [hround]
    omega
  have hpos : ∀ t, 0 < d <<< t := by
    intro t
    rw [Nat.shiftLeft_eq]
    exact Nat.mul_pos hd (Nat.two_pow_pos t)
  have hhalfway : f.halfway bits * d = (2 * k + 1) * (d <<< s) := by
    rw [halfway, hunits, hnext, Nat.shiftLeft_eq, Nat.shiftLeft_eq, Nat.shiftLeft_eq, ← Nat.add_mul,
      Nat.mul_assoc, Nat.mul_comm d]
    congr 1
    omega
  have hsize : 2 ^ (f.fractionBits + 1) = 2 * 2 ^ f.fractionBits := by
    rw [Nat.pow_succ, Nat.mul_comm]
  rw [hmin, Within, hhalfway]
  -- The value has the shift of the quotient, or it lies in a part of the range below or above.
  rcases Nat.lt_trichotomy s shift with hlt | rfl | hlt
  · have hstep := shiftLeft_add_le (m := f.fractionBits) hlt
    have hlower := hlower.resolve_left (by omega)
    have hscaled : 2 ^ f.fractionBits * (2 * (d <<< s)) ≤ 2 ^ f.fractionBits * (d <<< shift) :=
      Nat.mul_le_mul_left _ (two_mul_shiftLeft_le d hlt)
    have hodd : (2 * k + 1) * (d <<< s) < 2 * 2 ^ f.fractionBits * (2 * (d <<< s)) := by
      rw [Nat.mul_comm 2 (2 ^ _), Nat.mul_assoc, ← Nat.mul_assoc 2 2, ← Nat.mul_assoc]
      exact Nat.mul_lt_mul_of_pos_right (by omega) (hpos s)
    rw [Nat.mul_assoc] at hodd
    omega
  · have hparity : bits % 2 = k % 2 := by
      obtain ⟨m, hm⟩ := Nat.exists_eq_succ_of_ne_zero (Nat.pos_iff_ne_zero.mp hf)
      rw [hsum, hm, Nat.shiftLeft_eq, Nat.pow_succ, ← Nat.mul_assoc]
      omega
    rw [hparity, ← roundHalfEven_le_iff _ _ _ (hpos s), ← hsignificand]
    omega
  · have hstep := shiftLeft_add_le (m := f.fractionBits) hlt
    have hs := hs.resolve_left (by omega)
    have hscaled : 2 ^ f.fractionBits * (2 * (d <<< shift)) ≤ 2 ^ f.fractionBits * (d <<< s) :=
      Nat.mul_le_mul_left _ (two_mul_shiftLeft_le d hlt)
    have hodd : 2 * (2 ^ f.fractionBits * (d <<< s)) ≤ (2 * k + 1) * (d <<< s) := by
      rw [← Nat.mul_assoc]
      exact Nat.mul_le_mul_right _ (by omega)
    rw [hsize, Nat.mul_assoc, ← Nat.mul_left_comm] at hupper
    omega

variable {f}

/-- With a quotient, every smaller one is on the near side of a halfway point. -/
theorem Within.of_le {n d n' d' bits : Nat} (hd : 0 < d) (hd' : 0 < d') (hle : n * d' ≤ n' * d)
    (h : f.Within n' d' bits) : f.Within n d bits := by
  have hscaled : 2 * (n <<< f.scale) * d' ≤ 2 * (n' <<< f.scale) * d := by
    simp only [Nat.shiftLeft_eq]
    calc 2 * (n * 2 ^ f.scale) * d' = 2 * 2 ^ f.scale * (n * d') := by ac_rfl
      _ ≤ 2 * 2 ^ f.scale * (n' * d) := Nat.mul_le_mul_left _ hle
      _ = 2 * (n' * 2 ^ f.scale) * d := by ac_rfl
  rcases h with hlt | ⟨heq, heven⟩
  · left
    apply Nat.lt_of_mul_lt_mul_right (a := d')
    calc 2 * (n <<< f.scale) * d' ≤ 2 * (n' <<< f.scale) * d := hscaled
      _ < f.halfway bits * d' * d := Nat.mul_lt_mul_of_pos_right hlt hd
      _ = f.halfway bits * d * d' := by ac_rfl
  · have hle : 2 * (n <<< f.scale) ≤ f.halfway bits * d := by
      apply Nat.le_of_mul_le_mul_right _ hd'
      calc 2 * (n <<< f.scale) * d' ≤ 2 * (n' <<< f.scale) * d := hscaled
        _ = f.halfway bits * d * d' := by rw [heq]; ac_rfl
    rcases Nat.lt_or_eq_of_le hle with hlt | heq
    · exact .inl hlt
    · exact .inr ⟨heq, heven⟩

/-- Rounding keeps the order of quotients. -/
theorem round_mono (hf : 0 < f.fractionBits) {n d n' d' : Nat} (hd : 0 < d) (hd' : 0 < d')
    (hle : n * d' ≤ n' * d) : f.round n d ≤ f.round n' d' := by
  by_cases hfinite : f.round n' d' < f.infinity
  · have hwithin := (f.round_le_iff hf hd' hfinite).mp (Nat.le_refl _)
    exact (f.round_le_iff hf hd hfinite).mpr (hwithin.of_le hd hd' hle)
  · exact Nat.le_trans (f.round_le_infinity n d) (Nat.le_of_not_lt hfinite)

variable (f)

/-- A significand with any larger shift is a value of the format, as far as the exponents go. -/
theorem exists_units_eq {significand shift : Nat} (hhigh : significand < 2 ^ (f.fractionBits + 1))
    (hshift : f.fractionBits ≤ shift) :
    ∃ bits, f.units bits = significand <<< shift ∧ bits < (shift + 2) <<< f.fractionBits := by
  have hsize := Nat.two_pow_pos f.fractionBits
  have hpow : 2 ^ (f.fractionBits + 1) = 2 * 2 ^ f.fractionBits := by
    rw [Nat.pow_succ, Nat.mul_comm]
  by_cases hzero : significand = 0
  · refine ⟨0, ?_, ?_⟩
    · simp [units, exponentField, fractionField, hzero]
    · rw [Nat.shiftLeft_eq]
      exact Nat.mul_pos (by omega) hsize
  · -- Moved up to the leading bit, the significand is that of a normal number.
    have hlog : significand.log2 < f.fractionBits + 1 := (Nat.log2_lt hzero).mpr hhigh
    obtain ⟨up, hup⟩ : ∃ up, f.fractionBits = significand.log2 + up :=
      ⟨f.fractionBits - significand.log2, by omega⟩
    have hlow : 2 ^ f.fractionBits ≤ significand <<< up := by
      rw [hup, Nat.pow_add, Nat.shiftLeft_eq]
      exact Nat.mul_le_mul_right _ (Nat.log2_self_le hzero)
    have hcarry : significand <<< up < 2 ^ (f.fractionBits + 1) := by
      rw [hup, Nat.add_right_comm, Nat.pow_add, Nat.shiftLeft_eq]
      exact Nat.mul_lt_mul_of_pos_right Nat.lt_log2_self (Nat.two_pow_pos up)
    refine ⟨((shift - up) <<< f.fractionBits) + significand <<< up, ?_, ?_⟩
    · rw [f.units_shifted _ _ (by rw [Nat.one_shiftLeft]; omega)
          (.inr (by rwa [Nat.one_shiftLeft])), ← Nat.shiftLeft_add, Nat.add_sub_cancel' (by omega)]
    · have hstep := shiftLeft_add_le (m := f.fractionBits) (show shift - up < shift + 1 by omega)
      have hnext := shiftLeft_add_le (m := f.fractionBits) (show shift + 1 < shift + 2 by omega)
      omega

end Format
end FourVin
