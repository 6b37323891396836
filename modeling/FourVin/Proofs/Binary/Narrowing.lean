import FourVin.Proofs.Binary.Halfway
import FourVin.Proofs.Binary.ReadBack
import Mathlib.Algebra.Order.Field.Basic
import Mathlib.Data.Rat.Cast.Order
import Mathlib.Tactic.Linarith
import Mathlib.Tactic.NormNum
import Mathlib.Tactic.Positivity

/-!
From numerals over doubles to singles. Two roundings follow each other, so the single that a numeral
becomes is not always the nearest one. Both roundings keep the order of numbers, and both leave a
single where it is; hence no single lies strictly between a numeral and what it becomes. Where the
range of singles ends is shifted as well: doubles overflow from the middle behind the largest single
on, and numerals from half a step of the doubles in front of that middle, because the double there
is even.
-/
namespace FourVin

namespace Double

/-- The double in the middle between the largest single and the power of two behind it. -/
def overflowMagnitude : Nat := 0x47EFFFFFF0000000

theorem magnitude_ofDecimal (d : Decimal) :
    (ofDecimal d).magnitude = Format.double.round d.digits d.scale := by
  rw [magnitude_of_nonnegative (negative_ofDecimal d), bits_ofDecimal]

theorem isNaN_of_le {x : Double} (h : x.magnitude ≤ Format.double.infinity) :
    x.isNaN = false := by
  simp only [isNaN, decide_eq_false_iff_not]
  omega

theorem halfway_largestSingle :
    Format.single.halfway (Format.single.infinity - 1) * (1 <<< Format.double.scale) =
      2 * (Format.double.units overflowMagnitude <<< Format.single.scale) := by decide +kernel

theorem halfway_before_overflow :
    Format.double.halfway (overflowMagnitude - 1) =
      2 * ((2 ^ 128 - 2 ^ 103 - 2 ^ 74) <<< Format.double.scale) := by decide +kernel

theorem within_largestSingle_iff (bits : Nat) :
    Format.single.Within (Format.double.units bits) (1 <<< Format.double.scale)
      (Format.single.infinity - 1) ↔ bits < overflowMagnitude := by
  have hodd : (Format.single.infinity - 1) % 2 ≠ 0 := by decide
  have hpos := Nat.two_pow_pos Format.single.scale
  rw [Format.Within, halfway_largestSingle, or_iff_left (fun h => hodd h.2), Nat.shiftLeft_eq,
    Nat.shiftLeft_eq, Nat.mul_lt_mul_left (by decide), Nat.mul_lt_mul_right hpos]
  exact Format.double.units_strictMono.lt_iff_lt

/-- A double overflows from the middle behind the largest single on. -/
theorem overflowsSingle_iff {x : Double} (h : x.magnitude ≤ Format.double.infinity) :
    x.overflowsSingle = true ↔ overflowMagnitude ≤ x.magnitude := by
  have hnan := isNaN_of_le h
  by_cases hinfinite : x.magnitude = Format.double.infinity
  · have hle : overflowMagnitude ≤ Format.double.infinity := by decide
    simp [overflowsSingle, singleMagnitude, hnan, isInfinite, hinfinite, hle]
  · have hround := Format.single.round_le_infinity (Format.double.units x.magnitude)
      (1 <<< Format.double.scale)
    have hpos : 0 < Format.single.infinity := by decide
    have hiff := (Format.single.round_le_iff (by decide) (by decide) (by decide)).trans
      (within_largestSingle_iff x.magnitude)
    simp only [overflowsSingle, singleMagnitude, hnan, isInfinite, hinfinite, decide_false,
      Bool.false_eq_true, if_false, decide_eq_true_eq]
    omega

/-- A numeral overflows where its double does, which is half a step of the doubles earlier. -/
theorem overflowsSingle_ofDecimal_iff (d : Decimal) :
    (ofDecimal d).overflowsSingle = true ↔
      (2 ^ 128 - 2 ^ 103 - 2 ^ 74) * d.scale ≤ d.digits := by
  have hmagnitude := magnitude_ofDecimal d
  have hle := Format.double.round_le_infinity d.digits d.scale
  have hodd : (overflowMagnitude - 1) % 2 ≠ 0 := by decide
  have hpos := Nat.two_pow_pos Format.double.scale
  have hpos' : 0 < overflowMagnitude := by decide
  have hwithin : Format.double.Within d.digits d.scale (overflowMagnitude - 1) ↔
      d.digits < (2 ^ 128 - 2 ^ 103 - 2 ^ 74) * d.scale := by
    rw [Format.Within, halfway_before_overflow, or_iff_left (fun h => hodd h.2), Nat.shiftLeft_eq,
      Nat.shiftLeft_eq, Nat.mul_assoc, Nat.mul_lt_mul_left (by decide), Nat.mul_right_comm,
      Nat.mul_lt_mul_right hpos]
  have hround := (Format.double.round_le_iff (by decide) d.scale_pos (by decide)).trans hwithin
  rw [overflowsSingle_iff (by omega)]
  omega

/-- The magnitude bits of the single that a quotient becomes by way of the nearest double. -/
def narrowed (n d : Nat) : Nat :=
  Format.single.round (Format.double.units (Format.double.round n d)) (1 <<< Format.double.scale)

/-- Rounding twice keeps the order of quotients. -/
theorem narrowed_mono {n d n' d' : Nat} (hd : 0 < d) (hd' : 0 < d') (h : n * d' ≤ n' * d) :
    narrowed n d ≤ narrowed n' d' := by
  have hround := Format.double.round_mono (by decide) hd hd' h
  have hunits := Format.double.units_strictMono.monotone hround
  exact Format.single.round_mono (by decide) (by decide) (by decide)
    (Nat.mul_le_mul_right _ hunits)

/-- Between the units of the two formats lie 925 halvings. -/
theorem scale_double : Format.double.scale = Format.single.scale + 925 := by decide

/-- Every single is a double. -/
theorem exists_units_eq_single {bits : Nat} (h : bits < Format.single.infinity) :
    ∃ wide ≤ Format.double.infinity,
      Format.double.units wide = Format.single.units bits <<< 925 := by
  obtain ⟨significand, shift, hunits, hsum, hhigh, -⟩ := Format.single.exists_significand bits
  have hshift : shift < 255 := by
    have hlt : shift <<< Format.single.fractionBits < 255 <<< Format.single.fractionBits :=
      Nat.lt_of_le_of_lt (by omega) h
    rw [Nat.shiftLeft_eq, Nat.shiftLeft_eq] at hlt
    exact Nat.lt_of_mul_lt_mul_right hlt
  have hwide : significand < 2 ^ (Format.double.fractionBits + 1) :=
    Nat.lt_trans hhigh (by decide)
  have hfraction : Format.double.fractionBits ≤ shift + 925 :=
    Nat.le_trans (by decide) (Nat.le_add_left 925 shift)
  obtain ⟨wide, heq, hlt⟩ := Format.double.exists_units_eq hwide hfraction
  refine ⟨wide, ?_, by rw [heq, hunits, ← Nat.shiftLeft_add]⟩
  have hle : (shift + 925 + 2) <<< Format.double.fractionBits ≤ Format.double.infinity := by
    have hpow : (shift + 925 + 2) * 2 ^ Format.double.fractionBits ≤
        2047 * 2 ^ Format.double.fractionBits := Nat.mul_le_mul_right _ (by omega)
    rw [Nat.shiftLeft_eq]
    exact Nat.le_trans hpow (by decide)
  omega

/-- A quotient that is a single becomes that single. -/
theorem narrowed_of_single {bits n d : Nat} (hbits : bits < Format.single.infinity) (hd : 0 < d)
    (h : n <<< Format.single.scale = Format.single.units bits * d) : narrowed n d = bits := by
  obtain ⟨wide, hle, hwide⟩ := exists_units_eq_single hbits
  have hround : Format.double.round n d = wide := by
    apply Format.double.round_units wide n d hle hd
    rw [hwide, scale_double, Nat.shiftLeft_add, h, Nat.shiftLeft_eq, Nat.shiftLeft_eq,
      Nat.mul_right_comm]
  rw [narrowed, hround, hwide]
  apply Format.single.round_units bits _ _ (Nat.le_of_lt hbits) (by decide)
  rw [scale_double, ← Nat.shiftLeft_add, Nat.shiftLeft_eq, Nat.one_shiftLeft, Nat.add_comm 925]

theorem narrowed_units {bits : Nat} (h : bits < Format.single.infinity) :
    narrowed (Format.single.units bits) (1 <<< Format.single.scale) = bits := by
  apply narrowed_of_single h (by decide)
  rw [Nat.shiftLeft_eq, Nat.one_shiftLeft]

end Double

def Decimal.value (d : Decimal) : ℚ := d.digits / d.scale

def Format.value (f : Format) (bits : Nat) : ℚ := f.units bits / 2 ^ f.scale

namespace Decimal

theorem value_nonneg (d : Decimal) : 0 ≤ d.value := by
  unfold value
  positivity

theorem value_le_value_iff (d e : Decimal) :
    d.value ≤ e.value ↔ d.digits * e.scale ≤ e.digits * d.scale := by
  have hd : (0 : ℚ) < d.scale := by exact_mod_cast d.scale_pos
  have he : (0 : ℚ) < e.scale := by exact_mod_cast e.scale_pos
  rw [value, value, div_le_div_iff₀ hd he]
  exact_mod_cast Iff.rfl

theorem value_le_iff (d : Decimal) (f : Format) (bits : Nat) :
    d.value ≤ f.value bits ↔ d.digits * (1 <<< f.scale) ≤ f.units bits * d.scale := by
  have hd : (0 : ℚ) < d.scale := by exact_mod_cast d.scale_pos
  rw [value, Format.value, div_le_div_iff₀ hd (by positivity), Nat.one_shiftLeft]
  exact_mod_cast Iff.rfl

theorem le_value_iff (d : Decimal) (f : Format) (bits : Nat) :
    f.value bits ≤ d.value ↔ f.units bits * d.scale ≤ d.digits * (1 <<< f.scale) := by
  have hd : (0 : ℚ) < d.scale := by exact_mod_cast d.scale_pos
  rw [value, Format.value, div_le_div_iff₀ (by positivity) hd, Nat.one_shiftLeft]
  exact_mod_cast Iff.rfl

end Decimal

theorem Format.value_nonneg (f : Format) (bits : Nat) : 0 ≤ f.value bits := by
  unfold value
  positivity

theorem Format.value_mono (f : Format) : Monotone f.value := by
  intro bits bits' hle
  have hunits : (f.units bits : ℚ) ≤ f.units bits' := by
    exact_mod_cast f.units_strictMono.monotone hle
  exact div_le_div_of_nonneg_right hunits (by positivity)

structure Single where
  bits : UInt32
  deriving DecidableEq

namespace Single

def negative (s : Single) : Bool := 0x80000000 ≤ s.bits.toNat

def magnitude (s : Single) : Nat := s.bits.toNat % 0x80000000

def isFinite (s : Single) : Bool := s.magnitude < Format.single.infinity

def value (s : Single) : ℚ :=
  if s.negative then -Format.single.value s.magnitude else Format.single.value s.magnitude

/-- A finite single without sign that is `x`, or the one next to `x` on one of its two sides. -/
structure Adjoins (s : Single) (x : ℚ) : Prop where
  finite : s.isFinite = true
  nonnegative : s.negative = false
  exact : ∀ t : Single, t.isFinite = true → t.value = x → s.value = x
  adjacent : ∀ t : Single, t.isFinite = true →
    ¬ (x < t.value ∧ t.value < s.value) ∧ ¬ (s.value < t.value ∧ t.value < x)

/-- Where it is not negative, a single has the value of a magnitude. -/
theorem exists_value_eq {s : Single} (hfinite : s.isFinite = true) (h : 0 ≤ s.value) :
    ∃ bits < Format.single.infinity, s.value = Format.single.value bits := by
  have hlt : s.magnitude < Format.single.infinity := by simpa [isFinite] using hfinite
  cases hsign : s.negative with
  | false => exact ⟨s.magnitude, hlt, by simp [value, hsign]⟩
  | true =>
    have hvalue : s.value = -Format.single.value s.magnitude := by simp [value, hsign]
    have hzero : Format.single.value 0 = 0 := by
      simp [Format.value, Format.units, Format.exponentField, Format.fractionField]
    have hnonneg := Format.single.value_nonneg s.magnitude
    exact ⟨0, by decide, by linarith⟩

theorem value_of_lt {s : Single} (h : s.bits.toNat < Format.single.infinity) :
    s.negative = false ∧ s.isFinite = true ∧ s.value = Format.single.value s.bits.toNat := by
  have hinfinity : Format.single.infinity < 0x80000000 := by decide
  have hsign : s.negative = false := by
    simp only [negative, decide_eq_false_iff_not]
    omega
  have hmagnitude : s.magnitude = s.bits.toNat := Nat.mod_eq_of_lt (by omega)
  exact ⟨hsign, by simpa [isFinite, hmagnitude] using h, by simp [value, hsign, hmagnitude]⟩

end Single

namespace Decimal

variable {d : Decimal} {bits : Nat}

theorem narrowed_le_of_value_le (hbits : bits < Format.single.infinity)
    (h : d.value ≤ Format.single.value bits) : Double.narrowed d.digits d.scale ≤ bits := by
  have hmono := Double.narrowed_mono d.scale_pos (by decide) ((d.value_le_iff _ _).mp h)
  rwa [Double.narrowed_units hbits] at hmono

theorem le_narrowed_of_le_value (hbits : bits < Format.single.infinity)
    (h : Format.single.value bits ≤ d.value) : bits ≤ Double.narrowed d.digits d.scale := by
  have hmono := Double.narrowed_mono (by decide) d.scale_pos ((d.le_value_iff _ _).mp h)
  rwa [Double.narrowed_units hbits] at hmono

/-- Rounding twice need not give the nearest single, but what it gives has no other single between
itself and the numeral: it keeps the order, and singles stay where they are. -/
theorem adjoins_of_narrowed {s : Single} (hs : s.bits.toNat = Double.narrowed d.digits d.scale)
    (hlt : s.bits.toNat < Format.single.infinity) : s.Adjoins d.value := by
  obtain ⟨hsign, hfinite, hvalue⟩ := Single.value_of_lt hlt
  have hnonneg := d.value_nonneg
  have hnonneg' := Format.single.value_nonneg s.bits.toNat
  refine ⟨hfinite, hsign, ?_, ?_⟩
  · intro t ht heq
    obtain ⟨bits, hbits, hbits'⟩ := Single.exists_value_eq ht (by linarith)
    have hle := narrowed_le_of_value_le hbits (by linarith)
    have hge := le_narrowed_of_le_value hbits (by linarith)
    rw [← heq, hbits', hvalue, hs, Nat.le_antisymm hle hge]
  · intro t ht
    constructor
    · rintro ⟨hlow, hhigh⟩
      obtain ⟨bits, hbits, hbits'⟩ := Single.exists_value_eq ht (by linarith)
      have hle := Format.single.value_mono (narrowed_le_of_value_le hbits (hbits' ▸ hlow.le))
      rw [← hs, ← hvalue, ← hbits'] at hle
      linarith
    · rintro ⟨hlow, hhigh⟩
      obtain ⟨bits, hbits, hbits'⟩ := Single.exists_value_eq ht (by linarith)
      have hle := Format.single.value_mono (le_narrowed_of_le_value hbits (hbits' ▸ hhigh.le))
      rw [← hs, ← hvalue, ← hbits'] at hle
      linarith

end Decimal

/-- A numeral overflows from a certain number on. -/
theorem Double.overflowsSingle_ofDecimal_iff_le (d : Decimal) :
    (ofDecimal d).overflowsSingle = true ↔ 2 ^ 128 - 2 ^ 103 - 2 ^ 74 ≤ d.value := by
  have hd : (0 : ℚ) < d.scale := by exact_mod_cast d.scale_pos
  have hlimit : ((2 ^ 128 - 2 ^ 103 - 2 ^ 74 : Nat) : ℚ) = 2 ^ 128 - 2 ^ 103 - 2 ^ 74 := by
    norm_num
  rw [overflowsSingle_ofDecimal_iff, Decimal.value, le_div_iff₀ hd, ← hlimit]
  exact_mod_cast Iff.rfl

/-- A denotable double has a word that is a finite magnitude of single precision. -/
theorem Double.Denotable.toNat_toSingle {x : Double} (h : x.Denotable) :
    x.toSingle.toNat =
        Format.single.round (Format.double.units x.magnitude) (1 <<< Format.double.scale) ∧
      x.toSingle.toNat < Format.single.infinity := by
  have hfinite : x.magnitude < Format.double.infinity := by simpa [isFinite] using h.finite
  have hmagnitude : x.singleMagnitude =
      Format.single.round (Format.double.units x.magnitude) (1 <<< Format.double.scale) := by
    rw [singleMagnitude, isNaN_of_le hfinite.le, isInfinite, decide_eq_false hfinite.ne]
    rfl
  have hne : x.singleMagnitude ≠ Format.single.infinity := by
    simpa [overflowsSingle] using h.inRange
  have hlt : x.singleMagnitude < Format.single.infinity := by
    rw [hmagnitude] at hne ⊢
    exact Nat.lt_of_le_of_ne (Format.single.round_le_infinity _ _) hne
  have hinfinity : Format.single.infinity < 2 ^ 32 := by decide
  have htoSingle : x.toSingle.toNat = x.singleMagnitude := by
    rw [toSingle, h.nonnegative, UInt32.toNat_ofNat']
    exact Nat.mod_eq_of_lt (Nat.lt_trans hlt hinfinity)
  exact ⟨htoSingle.trans hmagnitude, htoSingle ▸ hlt⟩

theorem Double.Denotable.isFinite_toSingle {x : Double} (h : x.Denotable) :
    (Single.mk x.toSingle).isFinite = true := (Single.value_of_lt h.toNat_toSingle.2).2.1

/-- The word of a numeral in range holds the magnitude bits of the narrowed quotient. -/
theorem Double.toNat_toSingle_ofDecimal {d : Decimal}
    (h : (ofDecimal d).overflowsSingle = false) :
    (ofDecimal d).toSingle.toNat = narrowed d.digits d.scale := by
  rw [(denotable_ofDecimal d h).toNat_toSingle.1, magnitude_ofDecimal, narrowed]

end FourVin
