import FourVin.Diagnostic
import FourVin.InstructionSet
import FourVin.Word

/-!
The encoding of single instructions. A header has two zero bytes, the opcode and an options byte

    rrr sss L 0

with the register of slot 0, the register of slot 1, and a flag that a literal word follows. An
instruction without operands has its own form, which depends on the layout.
-/
namespace FourVin

inductive Layout where
  /-- Five bytes, so that what follows is off word alignment. -/
  | legacy
  /-- Four bytes, like every other header. -/
  | aligned
  deriving DecidableEq

def Layout.nullaryTail : Layout → List UInt8
  | legacy => [0, 0]
  | aligned => [0]

def Layout.nullaryLength (layout : Layout) : Nat := 3 + layout.nullaryTail.length

inductive Literal where
  | word (w : UInt32)
  | address (label : String)
  deriving DecidableEq

/-- The word that a value contributes behind the header. A float is narrowed to single precision. -/
def Value.literal? : Value → Option Literal
  | register _ => none
  | integer n => some (.word n)
  | float x => some (.word x.toSingle)
  | label name => some (.address name)

namespace Encoding

def literalFlag : UInt8 := 2

/-- The position of a register slot in the options byte, which has room for two. -/
def slotShift? : Nat → Option UInt8
  | 0 => some 5
  | 1 => some 2
  | _ => none

/-- The three bits that a register slot has in the options byte. -/
def slotBits (slot : Nat) (options : UInt8) : UInt8 :=
  (if slot = 0 then options >>> 5 else options >>> 2) &&& 7

structure Fields where
  options : UInt8
  literal : Option Literal
  deriving DecidableEq

/-- The fields with one more operand. Of several literals the last one counts. -/
def Fields.add (fields : Fields) (definition : Definition) (position : Nat) (op : Operand) :
    Except Diagnostic Fields :=
  match op.value with
  | .register r =>
    let slot := definition.slot position
    match slotShift? slot with
    | some shift => .ok { fields with options := fields.options ||| r.code <<< shift }
    | none =>
      .error ⟨op.location, .unencodable definition.mnemonic ("no register slot " ++ slot.repr)⟩
  | value => .ok ⟨fields.options ||| literalFlag, value.literal?⟩

def Fields.addFrom (fields : Fields) (definition : Definition) :
    Nat → List Operand → Except Diagnostic Fields
  | _, [] => .ok fields
  | position, op :: rest => do
    let fields ← fields.add definition position op
    fields.addFrom definition (position + 1) rest

end Encoding

structure Code where
  header : List UInt8
  literal : Option Literal
  deriving DecidableEq

namespace Code

/-- The bytes that follow the header, with zeros in place of an address. -/
def literalBytes (c : Code) : List UInt8 :=
  match c.literal with
  | none => []
  | some (.word w) => Word.toBytes w
  | some (.address _) => Word.toBytes 0

def bytes (c : Code) : List UInt8 := c.header ++ c.literalBytes

def label? (c : Code) : Option String :=
  match c.literal with
  | some (.address label) => some label
  | _ => none

end Code

def Instruction.encode (layout : Layout) (ins : Instruction) : Except Diagnostic Code :=
  match InstructionSet.lookup ins.mnemonic with
  | none => .error ⟨ins.location, .unknownMnemonic ins.mnemonic⟩
  | some definition =>
    if ins.operands.isEmpty then .ok ⟨[0, 0, definition.opcode] ++ layout.nullaryTail, none⟩
    else do
      let fields ← Encoding.Fields.addFrom ⟨0, none⟩ definition 0 ins.operands
      return ⟨[0, 0, definition.opcode, fields.options], fields.literal⟩

end FourVin
