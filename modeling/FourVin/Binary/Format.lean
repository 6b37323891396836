/-!
Binary interchange formats and rounding to them. The value of a finite bit pattern is a whole
number of units, the unit being the smallest positive value of the format, so all comparisons are
made on natural numbers. `round` takes a quotient of natural numbers to the nearest value and a
half to the even neighbour; what is too large becomes infinite. Signs are kept apart: a pattern
here is a magnitude.
-/
namespace FourVin

structure Format where
  fractionBits : Nat
  exponentBits : Nat

namespace Format

def single : Format := ⟨23, 8⟩

def double : Format := ⟨52, 11⟩

variable (f : Format)

/-- The unit is `2 ^ (-scale)`, so there are `1 <<< scale` units in one. -/
def scale : Nat := (1 <<< (f.exponentBits - 1)) - 2 + f.fractionBits

/-- The magnitude bits of infinity; larger magnitudes are not numbers. -/
def infinity : Nat := ((1 <<< f.exponentBits) - 1) <<< f.fractionBits

def exponentField (bits : Nat) : Nat := bits >>> f.fractionBits

def fractionField (bits : Nat) : Nat := bits % (1 <<< f.fractionBits)

/-- The value of a finite magnitude, counted in units. -/
def units (bits : Nat) : Nat :=
  if f.exponentField bits = 0 then f.fractionField bits
  else ((1 <<< f.fractionBits) + f.fractionField bits) <<< (f.exponentField bits - 1)

end Format

/-- The whole number nearest to `n / d`, the even one of two that are equally near. -/
def roundHalfEven (n d : Nat) : Nat :=
  if 2 * (n % d) < d ∨ (2 * (n % d) = d ∧ n / d % 2 = 0) then n / d else n / d + 1

/-- The magnitude bits of the value nearest to `n / d`. A significand that rounds up to the next
power of two carries into the exponent field, as the sum says. -/
def Format.round (f : Format) (n d : Nat) : Nat :=
  let units := n <<< f.scale
  let shift := (units / d).log2 - f.fractionBits
  min ((shift <<< f.fractionBits) + roundHalfEven units (d <<< shift)) f.infinity

theorem roundHalfEven_mul_left (c n d : Nat) (hc : 0 < c) :
    roundHalfEven (c * n) (c * d) = roundHalfEven n d := by
  have hlt : 2 * (c * (n % d)) < c * d ↔ 2 * (n % d) < d := by
    rw [Nat.mul_left_comm]
    exact Nat.mul_lt_mul_left hc
  have heq : 2 * (c * (n % d)) = c * d ↔ 2 * (n % d) = d := by
    rw [Nat.mul_left_comm]
    exact Nat.mul_right_inj (Nat.pos_iff_ne_zero.mp hc)
  simp only [roundHalfEven, Nat.mul_mod_mul_left, Nat.mul_div_mul_left n d hc, hlt, heq]

/-- Rounding depends on the quotient alone. -/
theorem Format.round_mul_left (f : Format) (c n d : Nat) (hc : 0 < c) :
    f.round (c * n) (c * d) = f.round n d := by
  simp only [Format.round, Nat.shiftLeft_eq, Nat.mul_assoc, Nat.mul_div_mul_left _ _ hc,
    roundHalfEven_mul_left c _ _ hc]

end FourVin
