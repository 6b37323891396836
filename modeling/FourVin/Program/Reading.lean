import FourVin.Token.Scan

/-!
Reading programs from tokens. The grammar is

    program     := newline* declaration+
    declaration := mnemonic (operand (',' operand)*)? newline+
                 | '$' name ':' newline+
    operand     := register | integer | hex | float | '$' name

and it is regular: what may follow depends only on the stage that the tokens so far have reached.
`Stage.next` moves from stage to stage and hands out each declaration as its line ends. The first
token without a next stage is at fault, and so is an input that ends within a declaration or before
the first one. Operand counts and types are not looked at here.
-/
namespace FourVin.Program

inductive Stage where
  /-- Before the first declaration. -/
  | lead
  /-- Behind a declaration. -/
  | between
  /-- Behind a mnemonic: an operand or the end of the line. -/
  | firstOperand (ins : Instruction)
  /-- Behind a comma: an operand. -/
  | operand (ins : Instruction)
  /-- Behind the dollar sign of an operand: its name. -/
  | operandName (ins : Instruction) (location : Location)
  /-- Behind an operand: a comma or the end of the line. -/
  | separator (ins : Instruction)
  /-- Behind the dollar sign of a label declaration: its name. -/
  | labelName (location : Location)
  | labelColon (name : String) (location : Location)
  | labelEnd (name : String) (location : Location)
  deriving DecidableEq

namespace Stage

def opening (t : Token) : Option Stage :=
  match t.kind with
  | .mnemonic word => some (.firstOperand ⟨word, [], t.location⟩)
  | .dollar => some (.labelName t.location)
  | _ => none

def withOperand (ins : Instruction) (value : Value) (location : Location) : Stage :=
  .separator { ins with operands := ins.operands ++ [⟨value, location⟩] }

def operandStart (ins : Instruction) (t : Token) : Option Stage :=
  match t.kind with
  | .register r => some (withOperand ins (.register r) t.location)
  | .integer n => some (withOperand ins (.integer n) t.location)
  | .hex n => some (withOperand ins (.integer n) t.location)
  | .float x => some (withOperand ins (.float x) t.location)
  | .dollar => some (.operandName ins t.location)
  | _ => none

/-- The stage behind one more token, with the declaration that the token completes. -/
def next (s : Stage) (t : Token) : Option (Stage × List Declaration) :=
  match s, t.kind with
  | lead, .newline => some (lead, [])
  | lead, _ => (opening t).map (·, [])
  | between, .newline => some (between, [])
  | between, _ => (opening t).map (·, [])
  | firstOperand ins, .newline => some (between, [.instruction ins])
  | firstOperand ins, _ => (operandStart ins t).map (·, [])
  | operand ins, _ => (operandStart ins t).map (·, [])
  | operandName ins location, .name word => some (withOperand ins (.label word) location, [])
  | separator ins, .newline => some (between, [.instruction ins])
  | separator ins, .comma => some (operand ins, [])
  | labelName location, .name word => some (labelColon word location, [])
  | labelColon name location, .colon => some (labelEnd name location, [])
  | labelEnd name location, .newline => some (between, [.label name location])
  | _, _ => none

end Stage

/-- The declarations that the tokens complete from stage `s` on, `eof` being where they end. -/
def declarationsFrom (s : Stage) (eof : Location) :
    List Token → Except Diagnostic (List Declaration)
  | [] => if s = .between then .ok [] else .error ⟨eof, .unexpectedEnd⟩
  | t :: rest =>
    match s.next t with
    | none => .error ⟨t.location, .unexpectedToken t.shown⟩
    | some (s', completed) => do
      let behind ← declarationsFrom s' eof rest
      return completed ++ behind

/-- Where the end of a token sequence is reported: at its last token, or where the file starts. -/
def endLocation (file : String) (tokens : List Token) : Location :=
  match tokens.getLast? with
  | some t => t.location
  | none => ⟨file, .start⟩

def ofTokens (file : String) (tokens : List Token) : Except Diagnostic Program := do
  let declarations ← declarationsFrom .lead (endLocation file tokens) tokens
  return ⟨declarations⟩

def ofSource (file source : String) : Except Diagnostic Program := do
  let tokens ← Token.ofSource file source
  ofTokens file tokens

end FourVin.Program
