import FourVin.Proofs.Binary.Rounding
import FourVin.Value

/-!
The written form of a float reads back as that float. A numeral is recovered from its digits, up to
the place that a whole number gains with its point, and the shortest numeral of a double is one
that reads as the double: either a candidate that has been tried, or the exact expansion, on which
rounding is exact.
-/
namespace FourVin

namespace Decimal

theorem scale_pos (d : Decimal) : 0 < d.scale := Nat.pow_pos (by decide)

theorem point_not_mem_toDigits (n : Nat) : '.' ∉ Nat.toDigits 10 n := by
  intro h
  have hdigit := Nat.isDigit_of_mem_toDigits (by decide) (by decide) h
  exact absurd hdigit (by decide)

theorem ofText_point (whole fraction : List Char) (h : '.' ∉ whole) :
    ofText (whole ++ '.' :: fraction) =
      ⟨Nat.ofDigitChars 10 (whole ++ fraction) 0, fraction.length⟩ := by
  have hne : ∀ c ∈ whole, decide (c ≠ '.') = true := by
    intro c hc
    rw [decide_eq_true_eq]
    rintro rfl
    exact h hc
  have htake : (whole ++ '.' :: fraction).takeWhile (· ≠ '.') = whole := by
    rw [List.takeWhile_append_of_pos hne]
    simp
  have hdrop : (whole ++ '.' :: fraction).dropWhile (· ≠ '.') = '.' :: fraction := by
    rw [List.dropWhile_append_of_pos hne]
    simp
  simp only [ofText, htake, hdrop, List.drop_succ_cons, List.drop_zero]

def fractionText (d : Decimal) : List Char :=
  (Nat.toDigits 10 (d.digits % d.scale)).leftpad d.places '0'

theorem length_fractionText (d : Decimal) (h : d.places ≠ 0) :
    d.fractionText.length = d.places := by
  have hlt : d.digits % d.scale < Nat.pow 10 d.places := Nat.mod_lt _ d.scale_pos
  have hle := (Nat.length_toDigits_le_iff (by decide) (Nat.pos_of_ne_zero h)).mpr hlt
  rw [fractionText, List.length_leftpad]
  omega

theorem ofDigitChars_fractionText (d : Decimal) (init : Nat) (h : d.places ≠ 0) :
    Nat.ofDigitChars 10 d.fractionText init = d.scale * init + d.digits % d.scale := by
  rw [Nat.ofDigitChars_eq_ofDigitChars_zero, length_fractionText d h, fractionText, List.leftpad,
    Nat.ofDigitChars_append, Nat.ofDigitChars_replicate_zero, Nat.mul_zero,
    Nat.ofDigitChars_ten_toDigits]
  rfl

/-- With a point behind a whole number, the text of a numeral is digits around one point and
denotes the same value. -/
theorem exists_pointed_text (d : Decimal) :
    ∃ whole fraction : List Char,
      (if d.text.contains '.' then d.text else d.text ++ ['.', '0']) = whole ++ '.' :: fraction ∧
      whole ≠ [] ∧ fraction ≠ [] ∧ (∀ c ∈ whole, c.isDigit) ∧ (∀ c ∈ fraction, c.isDigit) ∧
      (ofText (whole ++ '.' :: fraction)).digits * d.scale =
        d.digits * (ofText (whole ++ '.' :: fraction)).scale := by
  have hdigit : ∀ n, ∀ c ∈ Nat.toDigits 10 n, c.isDigit :=
    fun n c hc => Nat.isDigit_of_mem_toDigits (by decide) (by decide) hc
  by_cases h : d.places = 0
  · have htext : d.text = Nat.toDigits 10 (d.digits / d.scale) := by simp [text, h]
    have hscale : d.scale = 1 := by simp [scale, h]
    have hnone : d.text.contains '.' = false := by
      simpa [htext] using point_not_mem_toDigits _
    refine ⟨Nat.toDigits 10 (d.digits / d.scale), ['0'], ?_, Nat.toDigits_ne_nil, by simp,
      hdigit _, by simp, ?_⟩
    · rw [hnone, htext]
      simp
    · rw [ofText_point _ _ (point_not_mem_toDigits _), Nat.ofDigitChars_append,
        Nat.ofDigitChars_ten_toDigits, hscale]
      simp [Nat.ofDigitChars, scale, Nat.mul_comm]
  · have htext : d.text = Nat.toDigits 10 (d.digits / d.scale) ++ '.' :: d.fractionText := by
      simp [text, h, fractionText]
    refine ⟨Nat.toDigits 10 (d.digits / d.scale), d.fractionText, ?_, Nat.toDigits_ne_nil, ?_,
      hdigit _, ?_, ?_⟩
    · rw [htext]
      simp
    · rw [← List.length_pos_iff, length_fractionText d h]
      omega
    · intro c hc
      rcases List.mem_append.mp hc with hc | hc
      · rw [(List.mem_replicate.mp hc).2]
        decide
      · exact hdigit _ c hc
    · rw [ofText_point _ _ (point_not_mem_toDigits _), Nat.ofDigitChars_append,
        Nat.ofDigitChars_ten_toDigits, ofDigitChars_fractionText d _ h, length_fractionText d h,
        Nat.div_add_mod, scale]

end Decimal

namespace Double

variable {x : Double}

theorem magnitude_of_nonnegative (h : x.negative = false) : x.magnitude = x.bits.toNat := by
  have hlt : x.bits.toNat < 0x8000000000000000 := by simpa [negative] using h
  exact Nat.mod_eq_of_lt hlt

private theorem ten_pow_pos (k : Nat) : 0 < Nat.pow 10 k := Nat.pow_pos (by decide)

private theorem five_pow_mul_two_pow (k : Nat) : Nat.pow 5 k * 2 ^ k = Nat.pow 10 k :=
  (Nat.mul_pow 5 2 k).symm

theorem round_expansion (x : Double) (h : x.magnitude ≤ Format.double.infinity) :
    Format.double.round x.expansion (Nat.pow 10 Format.double.scale) = x.magnitude := by
  apply Format.double.round_units _ _ _ h (ten_pow_pos _)
  rw [expansion, Nat.shiftLeft_eq, Nat.mul_assoc, five_pow_mul_two_pow]

theorem reads_strip_expansion (hfinite : x.isFinite) :
    x.reads (Decimal.strip ⟨x.expansion, Format.double.scale⟩) = true := by
  have hlt : x.magnitude < Format.double.infinity := by simpa [isFinite] using hfinite
  have hvalue := Decimal.stripFrom_value x.expansion Format.double.scale
  have hstrip := Format.double.round_eq_of_mul_eq _ _ _ _ (Decimal.scale_pos _)
    (ten_pow_pos _) hvalue
  have hbound : x.magnitude < UInt64.size := by
    have : Format.double.infinity < UInt64.size := by decide
    omega
  unfold reads ofDecimal Decimal.strip
  rw [hstrip, round_expansion x (Nat.le_of_lt hlt), UInt64.toNat_ofNat',
    Nat.mod_eq_of_lt hbound]
  simp

theorem reads_of_nearestOnGrid {expansion dropped : Nat} {d : Decimal}
    (h : x.nearestOnGrid expansion dropped = some d) : x.reads d = true := by
  simp only [nearestOnGrid] at h
  split at h
  · next hupper =>
    cases h
    simp only [Bool.and_eq_true] at hupper
    exact hupper.1
  · split at h
    · next hlower =>
      cases h
      exact hlower
    · cases h

theorem reads_shortest (hfinite : x.isFinite) : x.reads x.shortest = true := by
  simp only [shortest]
  cases hfound : (List.range' 1 17).findSome? _ with
  | none =>
    rw [Option.getD_none]
    exact reads_strip_expansion hfinite
  | some d =>
    rw [Option.getD_some]
    obtain ⟨significant, -, hd⟩ := List.exists_of_findSome?_eq_some hfound
    exact reads_of_nearestOnGrid hd

theorem ofDecimal_eq_of_mul_eq {d e : Decimal} (h : d.digits * e.scale = e.digits * d.scale) :
    ofDecimal d = ofDecimal e := by
  rw [ofDecimal, ofDecimal, Format.round_eq_of_mul_eq _ _ _ _ _ d.scale_pos e.scale_pos h]

theorem ofDecimal_shortest (hfinite : x.isFinite) (hsign : x.negative = false) :
    ofDecimal x.shortest = x := by
  have h := reads_shortest hfinite
  simp only [reads, decide_eq_true_eq, magnitude_of_nonnegative hsign] at h
  exact congrArg Double.mk (UInt64.toNat_inj.mp h)

/-- The doubles that literals denote: their sign is positive, and they are finite even in single
precision. -/
structure Denotable (x : Double) : Prop where
  nonnegative : x.negative = false
  finite : x.isFinite = true
  inRange : x.overflowsSingle = false

theorem bits_ofDecimal (d : Decimal) :
    (ofDecimal d).bits.toNat = Format.double.round d.digits d.scale := by
  have hle := Format.double.round_le_infinity d.digits d.scale
  have hinfinity : Format.double.infinity < 2 ^ 64 := by decide
  rw [ofDecimal, UInt64.toNat_ofNat']
  omega

theorem negative_ofDecimal (d : Decimal) : (ofDecimal d).negative = false := by
  have hle := Format.double.round_le_infinity d.digits d.scale
  have hinfinity : Format.double.infinity < 0x8000000000000000 := by decide
  simp only [negative, bits_ofDecimal, decide_eq_false_iff_not]
  omega

theorem denotable_ofDecimal (d : Decimal) (h : (ofDecimal d).overflowsSingle = false) :
    (ofDecimal d).Denotable := by
  have hle := Format.double.round_le_infinity d.digits d.scale
  have hbits := bits_ofDecimal d
  have hsign := negative_ofDecimal d
  refine ⟨hsign, ?_, h⟩
  -- Infinity is the only magnitude that rounding can give and that is not finite.
  by_contra hfinite
  have hmagnitude : (ofDecimal d).magnitude = Format.double.infinity := by
    simp only [isFinite, decide_eq_true_eq] at hfinite
    rw [magnitude_of_nonnegative hsign] at hfinite ⊢
    omega
  have hnan : (ofDecimal d).isNaN = false := by simp [isNaN, hmagnitude]
  simp [overflowsSingle, singleMagnitude, isInfinite, hnan, hmagnitude] at h

/-- The text of a denotable double is digits around one point and reads back as the double. -/
theorem Denotable.floatText_reads (h : x.Denotable) :
    ∃ whole fraction : List Char, Value.floatText x = whole ++ '.' :: fraction ∧
      whole ≠ [] ∧ fraction ≠ [] ∧ (∀ c ∈ whole, c.isDigit) ∧ (∀ c ∈ fraction, c.isDigit) ∧
      ofDecimal (Decimal.ofText (Value.floatText x)) = x := by
  have hlt : x.magnitude < Format.double.infinity := by simpa [isFinite] using h.finite
  have htext : x.text = x.shortest.text := by
    have hnan : x.isNaN = false := by
      simp only [isNaN, decide_eq_false_iff_not]
      omega
    have hinf : x.isInfinite = false := by
      simp only [isInfinite, decide_eq_false_iff_not]
      omega
    simp [text, hnan, hinf, h.nonnegative]
  obtain ⟨whole, fraction, hpoint, hwhole, hfraction, hw, hf, hvalue⟩ :=
    x.shortest.exists_pointed_text
  have hform : Value.floatText x = whole ++ '.' :: fraction := by
    simp only [Value.floatText, htext, hpoint]
  refine ⟨whole, fraction, hform, hwhole, hfraction, hw, hf, ?_⟩
  rw [hform, ofDecimal_eq_of_mul_eq hvalue, ofDecimal_shortest h.finite h.nonnegative]

end Double

end FourVin
