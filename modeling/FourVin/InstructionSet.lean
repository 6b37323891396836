import FourVin.Value

/-!
The instruction set. Mnemonics with the same operand contract form a group. The contract gives the
number of operands, the classes of value that each position takes, the register slot of the first
operand and, for an instruction that stands for others, the template of those. Mnemonics and
opcodes are unique over all groups, so a definition can be found by either.
-/
namespace FourVin

/-- A class of operand values. The class `int` takes integers of either width. -/
inductive OperandClass where
  | register
  | int
  | int24
  | int32
  | float
  | label
  deriving DecidableEq

namespace OperandClass

def name : OperandClass → String
  | register => "register"
  | int => "int"
  | int24 => "int24"
  | int32 => "int32"
  | float => "float"
  | label => "label"

def accepts : OperandClass → ValueType → Bool
  | register, .register => true
  | int, .int24 => true
  | int, .int32 => true
  | int24, .int24 => true
  | int32, .int32 => true
  | float, .float => true
  | label, .label => true
  | _, _ => false

def describe (classes : List OperandClass) : String := " | ".intercalate (classes.map name)

end OperandClass

structure Contract where
  arity : Nat
  first : List OperandClass
  second : List OperandClass
  /-- The only operand goes to the second register slot. -/
  skipsFirstSlot : Bool
  /-- The text that an instruction stands for, with `%0`, `%1`, ... for its operands. -/
  template : Option String

def Contract.allowed (c : Contract) (position : Nat) : List OperandClass :=
  match position with
  | 0 => c.first
  | 1 => c.second
  | _ => []

structure Group where
  mnemonics : List (String × UInt8)
  contract : Contract

structure Definition where
  mnemonic : String
  opcode : UInt8
  group : Group

namespace Definition

def contract (d : Definition) : Contract := d.group.contract

def arity (d : Definition) : Nat := d.contract.arity

def template (d : Definition) : Option String := d.contract.template

def slot (d : Definition) (position : Nat) : Nat :=
  if d.contract.skipsFirstSlot then position + 1 else position

end Definition

namespace InstructionSet

def binary (second : List OperandClass) : Contract := ⟨2, [.register], second, false, none⟩

def integerOperation : Contract := binary [.register, .int]

def floatOperation : Contract := binary [.register, .float]

def groups : List Group :=
  [⟨[("NOP", 0x00), ("STOP", 0xFF)], ⟨0, [], [], false, none⟩⟩,
   ⟨[("JMP", 0x40), ("JE", 0x41), ("JNE", 0x42), ("JG", 0x43), ("JS", 0x44)],
     ⟨1, [.register, .int24, .label], [], true, none⟩⟩,
   ⟨[("MOV", 0x02), ("STORE", 0x03)], binary [.register, .int, .float, .label]⟩,
   ⟨[("LOAD", 0x04)], binary [.register, .int24]⟩,
   ⟨[("PUSH", 0x05)],
     ⟨1, [.register, .int, .float, .label], [], false, some "SUB %RSP, 1\nSTORE %RSP, %0\n"⟩⟩,
   ⟨[("POP", 0x06)], ⟨1, [.register], [], false, some "LOAD %0, %RSP\nADD %RSP, 1\n"⟩⟩,
   ⟨[("ADD", 0x10), ("SUB", 0x11), ("MUL", 0x12), ("DIV", 0x13), ("NEG", 0x14), ("SHL", 0x15),
     ("SHR", 0x16), ("ITOF", 0x26)], integerOperation⟩,
   ⟨[("FADD", 0x20), ("FSUB", 0x21), ("FMUL", 0x22), ("FDIV", 0x23), ("FNEG", 0x24),
     ("FTOI", 0x25)], floatOperation⟩,
   ⟨[("AND", 0x30), ("OR", 0x31), ("NOT", 0x32)], integerOperation⟩,
   ⟨[("CMP", 0x18), ("UCMP", 0x19)], integerOperation⟩,
   ⟨[("FCMP", 0x1A)], floatOperation⟩,
   ⟨[("SSET", 0x80)], integerOperation⟩,
   ⟨[("SOUT", 0x81)], ⟨1, [.register, .int24], [], true, none⟩⟩]

def definitions : List Definition :=
  groups.flatMap fun g => g.mnemonics.map fun m => ⟨m.1, m.2, g⟩

/-- The definition of a mnemonic; letter case matters. -/
def lookup (mnemonic : String) : Option Definition :=
  definitions.find? fun d => d.mnemonic = mnemonic

def ofOpcode (opcode : UInt8) : Option Definition := definitions.find? fun d => d.opcode = opcode

def isMnemonic (word : String) : Bool := (lookup word).isSome

/-- All mnemonics in alphabetical order. -/
def mnemonics : List String := (definitions.map Definition.mnemonic).mergeSort fun a b => a ≤ b

theorem lookup_mnemonic {mnemonic : String} {d : Definition} (h : lookup mnemonic = some d) :
    d.mnemonic = mnemonic := by
  simpa using List.find?_some h

theorem ofOpcode_opcode {opcode : UInt8} {d : Definition} (h : ofOpcode opcode = some d) :
    d.opcode = opcode := by
  simpa using List.find?_some h

theorem mem_definitions_of_lookup {mnemonic : String} {d : Definition}
    (h : lookup mnemonic = some d) : d ∈ definitions := List.mem_of_find?_eq_some h

theorem mem_definitions_of_ofOpcode {opcode : UInt8} {d : Definition}
    (h : ofOpcode opcode = some d) : d ∈ definitions := List.mem_of_find?_eq_some h

/-- No two definitions share an opcode. -/
theorem nodup_opcodes : (definitions.map Definition.opcode).Nodup := by decide

end InstructionSet

end FourVin
