import FourVin.Expansion
import FourVin.Image.Draft
import FourVin.Symbols

/-!
The assembler: a source text is read, checked against the instruction set, expanded, and encoded.
The first fault of any stage is the result. Nothing is kept from one source to the next.
-/
namespace FourVin

structure Assembler where
  file : String
  layout : Layout
  deriving DecidableEq

namespace Assembler

def default : Assembler := ⟨"<input>", .legacy⟩

def expand (a : Assembler) (source : String) : Except Diagnostic Program := do
  let program ← Program.ofSource a.file source
  let _ ← Symbols.ofProgram program
  program.expand

def assemble (a : Assembler) (source : String) : Except Diagnostic Image := do
  let program ← a.expand source
  Image.ofProgram a.layout program

end Assembler

end FourVin
