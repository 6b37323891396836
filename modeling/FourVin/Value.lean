import FourVin.Binary.Shortest
import FourVin.Register

/-!
Operand values and their types. An integer has the narrow type while it fits in 24 bits. The
written form of a value reads back as that value; for this a float is always given a point.
-/
namespace FourVin

inductive Value where
  | register (r : Register)
  | integer (n : UInt32)
  | float (x : Double)
  | label (name : String)
  deriving DecidableEq

inductive ValueType where
  | register
  | int24
  | int32
  | float
  | label
  deriving DecidableEq

def ValueType.name : ValueType → String
  | register => "register"
  | int24 => "int24"
  | int32 => "int32"
  | float => "float"
  | label => "label"

namespace Value

def int24Max : UInt32 := 0xFFFFFF

def type : Value → ValueType
  | register _ => .register
  | integer n => if n ≤ int24Max then .int24 else .int32
  | float _ => .float
  | label _ => .label

/-- Everything but a register is encoded in a word behind the header. -/
def isLiteral : Value → Bool
  | register _ => false
  | _ => true

/-- The written form of a float, with a point even when it is whole. -/
def floatText (x : Double) : List Char :=
  let text := x.text
  if text.contains '.' then text else text ++ ['.', '0']

def text : Value → String
  | register r => r.text
  | integer n => n.toNat.repr
  | float x => String.ofList (floatText x)
  | label name => "$" ++ name

end Value

end FourVin
