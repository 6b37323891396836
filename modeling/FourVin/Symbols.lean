import FourVin.Diagnostic
import FourVin.InstructionSet
import FourVin.LabelTable

/-!
The symbols of a program: the labels that it declares and the places where it uses labels. A
program has symbols when it keeps to the instruction set. The declarations are checked in order and
the first fault counts; a label may be used before it is declared, so uses are compared with the
declarations at the end.
-/
namespace FourVin

structure Symbols where
  /-- The declared labels with their locations. -/
  labels : LabelTable Location
  /-- The label operands in program order. -/
  uses : List (String × Location)
  deriving DecidableEq

namespace Instruction

def labelUses (ins : Instruction) : List (String × Location) :=
  ins.operands.filterMap fun op =>
    match op.value with
    | .label name => some (name, op.location)
    | _ => none

def checkOperands (contract : Contract) : Nat → List Operand → Except Diagnostic Unit
  | _, [] => .ok ()
  | position, op :: rest =>
    let allowed := contract.allowed position
    if allowed.any fun c => c.accepts op.value.type then checkOperands contract (position + 1) rest
    else .error ⟨op.location, .operandType (OperandClass.describe allowed) op.value.type⟩

def check (ins : Instruction) : Except Diagnostic Unit :=
  match InstructionSet.lookup ins.mnemonic with
  | none => .error ⟨ins.location, .unknownMnemonic ins.mnemonic⟩
  | some definition =>
    if ins.operands.length = definition.arity then
      checkOperands definition.contract 0 ins.operands
    else
      .error ⟨ins.location, .operandCount ins.mnemonic definition.arity ins.operands.length⟩

end Instruction

namespace Symbols

def empty : Symbols := ⟨.empty, []⟩

def add (s : Symbols) : Declaration → Except Diagnostic Symbols
  | .label name location =>
    match s.labels.find? name with
    | some first => .error ⟨location, .duplicateLabel name first⟩
    | none => .ok { s with labels := s.labels.insert name location }
  | .instruction ins => do
    ins.check
    return { s with uses := s.uses ++ ins.labelUses }

def undeclared? (s : Symbols) : Option (String × Location) :=
  s.uses.find? fun u => !s.labels.contains u.1

def ofProgram (p : Program) : Except Diagnostic Symbols := do
  let symbols ← p.declarations.foldlM add empty
  match symbols.undeclared? with
  | some (name, location) => .error ⟨location, .undeclaredLabel name⟩
  | none => return symbols

end Symbols

end FourVin
