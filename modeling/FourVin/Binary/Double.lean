import FourVin.Binary.Decimal
import FourVin.Binary.Format

/-!
Double precision numbers by their bits. A decimal numeral is read as the nearest double, and a
double is narrowed to the nearest single; literals pass through both steps.
-/
namespace FourVin

/-- A double precision number: a sign bit over 63 bits of magnitude. -/
structure Double where
  bits : UInt64
  deriving DecidableEq

namespace Double

def negative (x : Double) : Bool := 0x8000000000000000 ≤ x.bits.toNat

def magnitude (x : Double) : Nat := x.bits.toNat % 0x8000000000000000

def isNaN (x : Double) : Bool := Format.double.infinity < x.magnitude

def isInfinite (x : Double) : Bool := x.magnitude = Format.double.infinity

def isFinite (x : Double) : Bool := x.magnitude < Format.double.infinity

def ofDecimal (d : Decimal) : Double := ⟨UInt64.ofNat (Format.double.round d.digits d.scale)⟩

/-- The magnitude bits of the single nearest to a double. Something that is not a number keeps the
leading bits of its payload and is made quiet. -/
def singleMagnitude (x : Double) : Nat :=
  if x.isNaN then
    Format.single.infinity + (Format.double.fractionField x.magnitude >>> 29 ||| 0x400000)
  else if x.isInfinite then Format.single.infinity
  else Format.single.round (Format.double.units x.magnitude) (1 <<< Format.double.scale)

def toSingle (x : Double) : UInt32 :=
  UInt32.ofNat (if x.negative then 0x80000000 + x.singleMagnitude else x.singleMagnitude)

def overflowsSingle (x : Double) : Bool := x.singleMagnitude = Format.single.infinity

end Double

end FourVin
