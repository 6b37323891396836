import FourVin.Text.Position
import FourVin.Value

/-!
Programs: flat sequences of label declarations and instructions, each with the location of its
first token. The written form puts every declaration on a line of its own.
-/
namespace FourVin

structure Operand where
  value : Value
  location : Location
  deriving DecidableEq

structure Instruction where
  mnemonic : String
  operands : List Operand
  location : Location
  deriving DecidableEq

inductive Declaration where
  | label (name : String) (location : Location)
  | instruction (ins : Instruction)
  deriving DecidableEq

structure Program where
  declarations : List Declaration
  deriving DecidableEq

def Operand.text (op : Operand) : String := op.value.text

namespace Instruction

/-- The operands, the first one behind `separator` and every other behind a comma. -/
def operandsText (separator : String) : List Operand → String
  | [] => ""
  | op :: rest => separator ++ op.text ++ operandsText ", " rest

def text (ins : Instruction) : String := ins.mnemonic ++ operandsText " " ins.operands

end Instruction

namespace Declaration

def text : Declaration → String
  | label name _ => "$" ++ name ++ ":"
  | instruction ins => ins.text

def location : Declaration → Location
  | label _ location => location
  | instruction ins => ins.location

end Declaration

namespace Program

def text (p : Program) : String := String.join (p.declarations.map fun d => d.text ++ "\n")

def instructions (p : Program) : List Instruction :=
  p.declarations.filterMap fun
    | .label _ _ => none
    | .instruction ins => some ins

end Program

end FourVin
