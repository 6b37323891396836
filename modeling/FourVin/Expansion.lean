import FourVin.Program.Reading
import FourVin.Template

/-!
Expansion of the instructions that stand for others. The template of such an instruction is filled
with the written forms of its operands and read like any other source, and the declarations in it
take the place of the instruction. What a template yields is not expanded again.
-/
namespace FourVin

namespace Instruction

def snippet? (ins : Instruction) : Option String := do
  let definition ← InstructionSet.lookup ins.mnemonic
  let template ← definition.template
  return Template.fill template (ins.operands.map Operand.text)

def snippetFile (ins : Instruction) : String := "<microcode " ++ ins.mnemonic ++ ">"

def expand (ins : Instruction) : Except Diagnostic (List Declaration) :=
  match ins.snippet? with
  | none => .ok [.instruction ins]
  | some snippet =>
    match Program.ofSource ins.snippetFile snippet with
    | .ok p => .ok p.declarations
    | .error d => .error ⟨ins.location, .inExpansion ins.mnemonic d.location d.cause⟩

end Instruction

def Declaration.expand : Declaration → Except Diagnostic (List Declaration)
  | .label name location => .ok [.label name location]
  | .instruction ins => ins.expand

namespace Program

def expandFrom : List Declaration → Except Diagnostic (List Declaration)
  | [] => .ok []
  | d :: rest => do
    let front ← d.expand
    let behind ← expandFrom rest
    return front ++ behind

/-- The program without instructions that stand for others; the rest keeps its place. -/
def expand (p : Program) : Except Diagnostic Program := do
  let declarations ← expandFrom p.declarations
  return ⟨declarations⟩

end Program

end FourVin
