/-!
Positional decimal numerals: a whole number of digits of which the last `places` stand behind the
point. A numeral without places is written without a point.
-/
namespace FourVin

/-- The number `digits / 10 ^ places`. -/
structure Decimal where
  digits : Nat
  places : Nat
  deriving DecidableEq

namespace Decimal

def scale (d : Decimal) : Nat := Nat.pow 10 d.places

/-- The numeral that stands around the first point of a text of decimal digits. -/
def ofText (text : List Char) : Decimal :=
  let whole := text.takeWhile (· ≠ '.')
  let fraction := (text.dropWhile (· ≠ '.')).drop 1
  ⟨Nat.ofDigitChars 10 (whole ++ fraction) 0, fraction.length⟩

/-- A numeral of the same value that does not end in a zero behind the point. -/
def stripFrom (digits : Nat) : Nat → Decimal
  | 0 => ⟨digits, 0⟩
  | places + 1 => if digits % 10 = 0 then stripFrom (digits / 10) places else ⟨digits, places + 1⟩

def strip (d : Decimal) : Decimal := stripFrom d.digits d.places

def ofShifted (digits up places : Nat) : Decimal :=
  if places ≤ up then ⟨digits * Nat.pow 10 (up - places), 0⟩ else strip ⟨digits, places - up⟩

def text (d : Decimal) : List Char :=
  let whole := Nat.toDigits 10 (d.digits / d.scale)
  if d.places = 0 then whole
  else whole ++ '.' :: (Nat.toDigits 10 (d.digits % d.scale)).leftpad d.places '0'

theorem stripFrom_value (digits places : Nat) :
    (stripFrom digits places).digits * Nat.pow 10 places =
      digits * (stripFrom digits places).scale := by
  induction places generalizing digits with
  | zero => rfl
  | succ places ih =>
    unfold stripFrom
    split
    · have hd : 10 * (digits / 10) = digits := by omega
      have hp : Nat.pow 10 (places + 1) = Nat.pow 10 places * 10 := rfl
      rw [hp, ← Nat.mul_assoc, ih (digits / 10), Nat.mul_comm, ← Nat.mul_assoc, hd]
    · rfl

end Decimal

end FourVin
