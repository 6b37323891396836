import FourVin.Image.Encoding

/-!
Decoding of machine code. One instruction is read from the front of a byte sequence, for the layout
that it was written with; `disassemble` goes on behind each instruction until the bytes end or an
instruction cannot be read.
-/
namespace FourVin

/-- A decoded operand. What a literal word means depends on the instruction. -/
inductive RawOperand where
  | register (r : Register)
  | literal (w : UInt32)
  deriving DecidableEq

structure Decoded where
  definition : Definition
  operands : List RawOperand
  /-- The number of bytes that the instruction takes. -/
  length : Nat

namespace Decoded

def location : Location := ⟨"<binary>", .start⟩

def truncated : Diagnostic := ⟨location, .unencodable "" "truncated instruction"⟩

def unknownOpcode (opcode : UInt8) : Diagnostic :=
  ⟨location, .unknownMnemonic ("0x" ++ String.ofList (Text.hexFixed 2 opcode.toNat))⟩

def unknownRegister (definition : Definition) (fault : Register.CodeError) : Diagnostic :=
  ⟨location, .unencodable definition.mnemonic fault.message⟩

def registerField (slot : Nat) (options : UInt8) : Except Register.CodeError RawOperand :=
  (Register.ofCode (Encoding.slotBits slot options)).map .register

/-- The operands of an instruction that takes any. A literal word is always the last of them. -/
def operandsOf (definition : Definition) (options : UInt8) (literal : Option UInt32) :
    Except Register.CodeError (List RawOperand) :=
  match definition.arity, literal with
  | 1, some w => return [.literal w]
  | 1, none => return [← registerField (definition.slot 0) options]
  | _, some w => return [← registerField 0 options, .literal w]
  | _, none => return [← registerField 0 options, ← registerField 1 options]

def ofFields (definition : Definition) (options : UInt8) (literal : Option UInt32)
    (length : Nat) : Except Diagnostic Decoded :=
  match operandsOf definition options literal with
  | .error fault => .error (unknownRegister definition fault)
  | .ok operands => .ok ⟨definition, operands, length⟩

def ofBytes (layout : Layout) (bytes : List UInt8) : Except Diagnostic Decoded :=
  match bytes with
  | _ :: _ :: opcode :: options :: rest =>
    match InstructionSet.ofOpcode opcode with
    | none => .error (unknownOpcode opcode)
    | some definition =>
      if definition.arity = 0 then
        if bytes.length < layout.nullaryLength then .error truncated
        else .ok ⟨definition, [], layout.nullaryLength⟩
      else if options &&& Encoding.literalFlag = 0 then
        ofFields definition options none 4
      else
        match rest with
        | a :: b :: c :: d :: _ =>
          ofFields definition options (some (Word.ofBytes a b c d)) 8
        | _ => .error truncated
  | _ => .error truncated

theorem ofFields_of_operandsOf {definition : Definition} {options : UInt8}
    {literal : Option UInt32} {operands : List RawOperand}
    (h : operandsOf definition options literal = .ok operands) (length : Nat) :
    ofFields definition options literal length = .ok ⟨definition, operands, length⟩ := by
  rw [ofFields, h]

theorem length_of_ofFields {definition : Definition} {options : UInt8} {literal : Option UInt32}
    {length : Nat} {d : Decoded} (h : ofFields definition options literal length = .ok d) :
    d.length = length := by
  unfold ofFields at h
  split at h
  · cases h
  · cases h
    rfl

theorem length_bounds {layout : Layout} {bytes : List UInt8} {d : Decoded}
    (h : ofBytes layout bytes = .ok d) : 0 < d.length ∧ d.length ≤ bytes.length := by
  unfold ofBytes at h
  split at h
  · split at h
    · cases h
    · split at h
      · split at h
        · cases h
        · next hlen =>
          cases h
          exact ⟨by simp only [Layout.nullaryLength]; omega, Nat.not_lt.mp hlen⟩
      · split at h
        · rw [length_of_ofFields h]
          exact ⟨Nat.zero_lt_succ _, by simp only [List.length_cons]; omega⟩
        · split at h
          · rw [length_of_ofFields h]
            exact ⟨Nat.zero_lt_succ _, by simp only [List.length_cons]; omega⟩
          · cases h
  · cases h

/-- The instructions from the front of `bytes` on with their offsets, the first of them at `offset`.
An instruction that cannot be read is the last entry. -/
def disassembleFrom (layout : Layout) (offset : Nat) (bytes : List UInt8) :
    List (Nat × Except Diagnostic Decoded) :=
  if bytes.isEmpty then []
  else
    match h : ofBytes layout bytes with
    | .error d => [(offset, .error d)]
    | .ok d =>
      have := length_bounds h
      (offset, .ok d) :: disassembleFrom layout (offset + d.length) (bytes.drop d.length)
termination_by bytes.length
decreasing_by
  rw [List.length_drop]
  omega

def disassemble (layout : Layout) (bytes : List UInt8) : List (Nat × Except Diagnostic Decoded) :=
  disassembleFrom layout 0 bytes

end Decoded

end FourVin
