import FourVin.Binary.Double

/-!
The shortest decimal numeral of a double: the fewest significant digits that read back as the same
double, and of those the numeral nearest to its value. Every finite double has an exact decimal
expansion with `Format.double.scale` places, because its unit is a power of one half. The numerals
of `n` significant digits around the value are the two neighbours of that expansion on a decimal
grid, and a candidate is accepted when reading gives the double back.
-/
namespace FourVin.Double

/-- The digits of the exact decimal expansion of a finite magnitude, which has
`Format.double.scale` places. -/
def expansion (x : Double) : Nat := Format.double.units x.magnitude * Nat.pow 5 Format.double.scale

def reads (x : Double) (d : Decimal) : Bool := (ofDecimal d).bits.toNat = x.magnitude

/-- The numeral nearest to `x` among those that read as `x` and are zero in the last `dropped`
digits of the expansion; the upper one of two that are equally near. -/
def nearestOnGrid (x : Double) (expansion dropped : Nat) : Option Decimal :=
  let grid := Nat.pow 10 dropped
  let below := expansion / grid
  let lower := Decimal.ofShifted below dropped Format.double.scale
  let upper := Decimal.ofShifted (below + 1) dropped Format.double.scale
  let upperIsNearer := (below + 1) * grid - expansion ≤ expansion - below * grid
  if x.reads upper && (upperIsNearer || !x.reads lower) then some upper
  else if x.reads lower then some lower
  else none

/-- The shortest numeral of a finite magnitude. Seventeen significant digits always suffice; the
expansion itself stands behind them so that the result reads back by construction. -/
def shortest (x : Double) : Decimal :=
  let expansion := x.expansion
  let length := (Nat.toDigits 10 expansion).length
  let candidate (significant : Nat) : Option Decimal :=
    x.nearestOnGrid expansion (length - significant)
  ((List.range' 1 17).findSome? candidate).getD (Decimal.strip ⟨expansion, Format.double.scale⟩)

/-- The written form of a double, always positional. -/
def text (x : Double) : List Char :=
  if x.isNaN then ['N', 'a', 'N']
  else
    let magnitude := if x.isInfinite then ['i', 'n', 'f'] else x.shortest.text
    if x.negative then '-' :: magnitude else magnitude

end FourVin.Double
