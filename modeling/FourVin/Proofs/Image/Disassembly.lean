import FourVin.Image.Decoding
import FourVin.Proofs.Image.Contents
import FourVin.Proofs.Symbols.WellFormed
import Mathlib.Data.List.Nodup

/-!
Admitted instructions can be encoded, and decoding gives them back. The instruction set leaves three
shapes: no operands, one operand in either slot, or a register in slot 0 and a second operand. In
each of them the options byte tells the operands apart, and the length that decoding reports is the
size of the instruction, so that decoding goes on exactly where the next instruction begins.
-/
namespace FourVin

/-- What an instruction of the set takes: nothing, one operand, or a register and an operand. -/
theorem InstructionSet.arity_cases {d : Definition} (h : d ∈ definitions) :
    d.arity = 0 ∨ d.arity = 1 ∨
      d.arity = 2 ∧ d.contract.first = [.register] ∧ d.contract.skipsFirstSlot = false := by
  have htable : ∀ d ∈ definitions, d.arity = 0 ∨ d.arity = 1 ∨
      d.arity = 2 ∧ d.contract.first = [.register] ∧ d.contract.skipsFirstSlot = false := by
    decide
  exact htable d h

namespace Definition

/-- The shapes of operand lists that the instruction set admits. -/
theorem Admits.cases {d : Definition} {values : List Value} (h : d.Admits values)
    (hd : d ∈ InstructionSet.definitions) :
    values = [] ∧ d.arity = 0 ∨ (∃ v, values = [v] ∧ d.arity = 1) ∨
      ∃ r v, values = [.register r, v] ∧ d.arity = 2 ∧ d.contract.skipsFirstSlot = false := by
  obtain ⟨hlength, hallowed⟩ := h
  rcases InstructionSet.arity_cases hd with harity | harity | ⟨harity, hfirst, hskips⟩
  · exact .inl ⟨List.length_eq_zero_iff.mp (hlength.trans harity), harity⟩
  · obtain ⟨v, rfl⟩ := List.length_eq_one_iff.mp (hlength.trans harity)
    exact .inr (.inl ⟨v, rfl, harity⟩)
  · obtain ⟨u, v, rfl⟩ := List.length_eq_two.mp (hlength.trans harity)
    have hu := hallowed 0 u rfl
    rw [Contract.allowed, hfirst] at hu
    cases u with
    | register r => exact .inr (.inr ⟨r, v, rfl, harity, hskips⟩)
    | integer n =>
      simp only [Value.type] at hu
      split at hu <;> simp [OperandClass.accepts] at hu
    | float x => simp [Value.type, OperandClass.accepts] at hu
    | label name => simp [Value.type, OperandClass.accepts] at hu

theorem Admits.fitsFrom {d : Definition} {values : List Value} (h : d.Admits values)
    (hd : d ∈ InstructionSet.definitions) : d.FitsFrom 0 values := by
  have hzero : d.slot 0 ≤ 1 := by
    unfold slot
    split <;> omega
  rcases h.cases hd with ⟨rfl, -⟩ | ⟨v, rfl, -⟩ | ⟨r, v, rfl, -, hskips⟩
  · exact d.fitsFrom_nil 0
  · exact fitsFrom_cons.mpr ⟨.inr hzero, d.fitsFrom_nil 1⟩
  · have hone : d.slot 1 ≤ 1 := by simp [slot, hskips]
    exact fitsFrom_cons.mpr ⟨.inr hzero, fitsFrom_cons.mpr ⟨.inr hone, d.fitsFrom_nil 2⟩⟩

end Definition

theorem Content.Admitted.encodable {c : Content} (h : c.Admitted) : c.Encodable := by
  cases c with
  | label name => trivial
  | instruction mnemonic values =>
    obtain ⟨d, hlookup, hadmits⟩ := h
    exact ⟨d, hlookup, hadmits.fitsFrom (InstructionSet.mem_definitions_of_lookup hlookup)⟩

theorem InstructionSet.ofOpcode_of_mem {d : Definition} (h : d ∈ definitions) :
    ofOpcode d.opcode = some d := by
  cases hfound : ofOpcode d.opcode with
  | none =>
    have hnone := List.find?_eq_none.mp hfound d h
    simp at hnone
  | some e =>
    have hmem := mem_definitions_of_ofOpcode hfound
    rw [List.inj_on_of_nodup_map nodup_opcodes hmem h (ofOpcode_opcode hfound)]

theorem Word.exists_ofBytes_eq (w : UInt32) :
    ∃ a b c d, toBytes w = [a, b, c, d] ∧ ofBytes a b c d = w := by
  refine ⟨_, _, _, _, rfl, ?_⟩
  exact (List.cons.inj (ofByteList_toBytes_append w [])).1

/-- What decoding makes of a value, with labels at given addresses. -/
def Value.raw (addressOf : String → UInt32) : Value → RawOperand
  | register r => .register r
  | integer n => .literal n
  | float x => .literal x.toSingle
  | label name => .literal (addressOf name)

theorem Value.exists_raw_eq_literal (addressOf : String → UInt32) {v : Value}
    (h : v.isLiteral = true) : ∃ w, v.raw addressOf = .literal w := by
  cases v with
  | register r => cases h
  | _ => exact ⟨_, rfl⟩

namespace Content

theorem bytes_of_registers (layout : Layout) (addressOf : String → UInt32) {mnemonic : String}
    {d : Definition} {values : List Value} (hlookup : InstructionSet.lookup mnemonic = some d)
    (hlast : Value.lastLiteral? values = none) :
    (instruction mnemonic values).bytes layout addressOf = d.header layout values := by
  rw [bytes, code_of_lookup layout values hlookup, Code.resolved, Definition.code, hlast]
  simp

theorem bytes_of_literal (layout : Layout) (addressOf : String → UInt32) {mnemonic : String}
    {d : Definition} {values : List Value} {v : Value} {w : UInt32}
    (hlookup : InstructionSet.lookup mnemonic = some d)
    (hlast : Value.lastLiteral? values = some v) (hraw : v.raw addressOf = .literal w) :
    (instruction mnemonic values).bytes layout addressOf =
      d.header layout values ++ Word.toBytes w := by
  rw [bytes, code_of_lookup layout values hlookup, Code.resolved, Definition.code, hlast]
  cases v <;> cases hraw <;> rfl

end Content

namespace Decoded

theorem ofBytes_nullary (layout : Layout) {d : Definition} (hd : d ∈ InstructionSet.definitions)
    (harity : d.arity = 0) (rest : List UInt8) :
    ofBytes layout (d.header layout [] ++ rest) =
      .ok ⟨d, [], (d.header layout []).length⟩ := by
  cases layout with
  | legacy =>
    have hlength : ¬ rest.length + 1 + 1 + 1 + 1 + 1 < 5 := by omega
    simp [Definition.header, ofBytes, InstructionSet.ofOpcode_of_mem hd, harity,
      Layout.nullaryLength, Layout.nullaryTail, hlength]
  | aligned =>
    have hlength : ¬ rest.length + 1 + 1 + 1 + 1 < 4 := by omega
    simp [Definition.header, ofBytes, InstructionSet.ofOpcode_of_mem hd, harity,
      Layout.nullaryLength, Layout.nullaryTail, hlength]

def packed (r s : Register) (literal : Bool) : UInt8 :=
  r.code <<< 5 ||| s.code <<< 2 ||| (if literal then 2 else 0)

/-- The fields of a packed options byte. -/
theorem packed_fields (r s : Register) (literal : Bool) :
    Encoding.slotBits 0 (packed r s literal) = r.code ∧
      Encoding.slotBits 1 (packed r s literal) = s.code ∧
      (packed r s literal &&& Encoding.literalFlag = 0 ↔ literal = false) := by
  have htable : ∀ r ∈ Register.all, ∀ s ∈ Register.all, ∀ literal,
      Encoding.slotBits 0 (packed r s literal) = r.code ∧
        Encoding.slotBits 1 (packed r s literal) = s.code ∧
        (packed r s literal &&& Encoding.literalFlag = 0 ↔ literal = false) := by
    decide
  exact htable r (Register.mem_all r) s (Register.mem_all s) literal

theorem registerField_of_slotBits {slot : Nat} {options : UInt8} {r : Register}
    (h : Encoding.slotBits slot options = r.code) :
    registerField slot options = .ok (.register r) := by
  rw [registerField, h, Register.ofCode_code]
  rfl

theorem registerField_packed (r s : Register) (literal : Bool) :
    registerField 0 (packed r s literal) = .ok (.register r) ∧
      registerField 1 (packed r s literal) = .ok (.register s) := by
  obtain ⟨hr, hs, -⟩ := packed_fields r s literal
  exact ⟨registerField_of_slotBits hr, registerField_of_slotBits hs⟩

section

variable {d : Definition} {options : UInt8} {op other : RawOperand}

theorem operandsOf_literal (harity : d.arity = 1) (options : UInt8) (w : UInt32) :
    operandsOf d options (some w) = .ok [.literal w] := by
  simp only [operandsOf, harity]
  rfl

theorem operandsOf_register (harity : d.arity = 1)
    (hop : registerField (d.slot 0) options = .ok op) : operandsOf d options none = .ok [op] := by
  simp only [operandsOf, harity, hop]
  rfl

theorem operandsOf_register_literal (harity : d.arity = 2)
    (hop : registerField 0 options = .ok op) (w : UInt32) :
    operandsOf d options (some w) = .ok [op, .literal w] := by
  simp only [operandsOf, harity, hop]
  rfl

theorem operandsOf_register_register (harity : d.arity = 2)
    (hop : registerField 0 options = .ok op) (hother : registerField 1 options = .ok other) :
    operandsOf d options none = .ok [op, other] := by
  simp only [operandsOf, harity, hop, hother]
  rfl

end

section

variable (layout : Layout) (addressOf : String → UInt32) {mnemonic : String} {d : Definition}
  {values : List Value} {r s : Register}

theorem ofBytes_registers (hlookup : InstructionSet.lookup mnemonic = some d)
    (harity : d.arity ≠ 0) (hne : values ≠ []) (hlast : Value.lastLiteral? values = none)
    (hoptions : d.optionsFrom 0 values = packed r s false) (rest : List UInt8) :
    ofBytes layout ((Content.instruction mnemonic values).bytes layout addressOf ++ rest) =
      ofFields d (packed r s false) none 4 := by
  have hd := InstructionSet.mem_definitions_of_lookup hlookup
  have hflag := (packed_fields r s false).2.2.mpr rfl
  rw [Content.bytes_of_registers layout addressOf hlookup hlast, d.header_of_ne_nil layout hne,
    hoptions]
  simp [ofBytes, InstructionSet.ofOpcode_of_mem hd, harity, hflag]

theorem ofBytes_literal (hlookup : InstructionSet.lookup mnemonic = some d)
    (harity : d.arity ≠ 0) (hne : values ≠ []) {v : Value} {w : UInt32}
    (hlast : Value.lastLiteral? values = some v) (hraw : v.raw addressOf = .literal w)
    (hoptions : d.optionsFrom 0 values = packed r s true) (rest : List UInt8) :
    ofBytes layout ((Content.instruction mnemonic values).bytes layout addressOf ++ rest) =
      ofFields d (packed r s true) (some w) 8 := by
  have hd := InstructionSet.mem_definitions_of_lookup hlookup
  have hflag : packed r s true &&& Encoding.literalFlag ≠ 0 := by
    intro hzero
    cases (packed_fields r s true).2.2.mp hzero
  obtain ⟨a, b, c, e, hbytes, hword⟩ := Word.exists_ofBytes_eq w
  rw [Content.bytes_of_literal layout addressOf hlookup hlast hraw,
    d.header_of_ne_nil layout hne, hoptions, hbytes]
  simp [ofBytes, InstructionSet.ofOpcode_of_mem hd, harity, hflag, hword]

theorem ofBytes_unary (hlookup : InstructionSet.lookup mnemonic = some d) (harity : d.arity = 1)
    (v : Value) (rest : List UInt8) :
    ofBytes layout ((Content.instruction mnemonic [v]).bytes layout addressOf ++ rest) =
      .ok ⟨d, [v.raw addressOf], (Content.instruction mnemonic [v]).size layout⟩ := by
  have hne : d.arity ≠ 0 := by omega
  by_cases hv : v.isLiteral = true
  · obtain ⟨w, hw⟩ := Value.exists_raw_eq_literal addressOf hv
    have hlast : Value.lastLiteral? [v] = some v := by simp [Value.lastLiteral?, hv]
    have hoptions : d.optionsFrom 0 [v] = packed .ra .ra true := by
      rw [d.optionsFrom_literal_cons 0 [] hv, Definition.optionsFrom_nil]
      rfl
    rw [ofBytes_literal layout addressOf hlookup hne (by simp) hlast hw hoptions,
      Content.size_of_literal layout hlast, hw]
    exact ofFields_of_operandsOf (operandsOf_literal harity _ w) _
  · obtain ⟨r, rfl⟩ := Value.exists_register_of_not_isLiteral hv
    have hslot : d.slot 0 = 0 ∨ d.slot 0 = 1 := by
      unfold Definition.slot
      split <;> simp
    rcases hslot with hslot | hslot
    · have hoptions : d.optionsFrom 0 [.register r] = packed r .ra false := by
        rw [d.optionsFrom_register_cons 0 r [] (by omega), Definition.optionsFrom_nil]
        simp [hslot, packed, Register.code]
      rw [ofBytes_registers layout addressOf hlookup hne (by simp) rfl hoptions,
        Content.size_of_registers layout (by simp) rfl]
      have hfield : registerField (d.slot 0) (packed r .ra false) = .ok (.register r) := by
        rw [hslot]
        exact (registerField_packed r .ra false).1
      exact ofFields_of_operandsOf (operandsOf_register harity hfield) _
    · have hoptions : d.optionsFrom 0 [.register r] = packed .ra r false := by
        rw [d.optionsFrom_register_cons 0 r [] (by omega), Definition.optionsFrom_nil]
        simp [hslot, packed, Register.code]
      rw [ofBytes_registers layout addressOf hlookup hne (by simp) rfl hoptions,
        Content.size_of_registers layout (by simp) rfl]
      have hfield : registerField (d.slot 0) (packed .ra r false) = .ok (.register r) := by
        rw [hslot]
        exact (registerField_packed .ra r false).2
      exact ofFields_of_operandsOf (operandsOf_register harity hfield) _

theorem ofBytes_binary (hlookup : InstructionSet.lookup mnemonic = some d) (harity : d.arity = 2)
    (hskips : d.contract.skipsFirstSlot = false) (r : Register) (v : Value) (rest : List UInt8) :
    ofBytes layout
        ((Content.instruction mnemonic [.register r, v]).bytes layout addressOf ++ rest) =
      .ok ⟨d, [.register r, v.raw addressOf],
        (Content.instruction mnemonic [.register r, v]).size layout⟩ := by
  have hne : d.arity ≠ 0 := by omega
  have hslot : d.slot 0 = 0 := by simp [Definition.slot, hskips]
  have hslot' : d.slot 1 = 1 := by simp [Definition.slot, hskips]
  by_cases hv : v.isLiteral = true
  · obtain ⟨w, hw⟩ := Value.exists_raw_eq_literal addressOf hv
    have hlast : Value.lastLiteral? [.register r, v] = some v := by
      have hr : (Value.register r).isLiteral = false := rfl
      simp [Value.lastLiteral?, hv, hr]
    have hoptions : d.optionsFrom 0 [.register r, v] = packed r .ra true := by
      rw [d.optionsFrom_register_cons 0 r [v] (by omega), d.optionsFrom_literal_cons 1 [] hv,
        Definition.optionsFrom_nil]
      simp [hslot, packed, Register.code]
    rw [ofBytes_literal layout addressOf hlookup hne (by simp) hlast hw hoptions,
      Content.size_of_literal layout hlast, hw]
    have hfield := (registerField_packed r .ra true).1
    exact ofFields_of_operandsOf (operandsOf_register_literal harity hfield w) _
  · obtain ⟨s, rfl⟩ := Value.exists_register_of_not_isLiteral hv
    have hoptions : d.optionsFrom 0 [.register r, .register s] = packed r s false := by
      rw [d.optionsFrom_register_cons 0 r _ (by omega),
        d.optionsFrom_register_cons 1 s [] (by omega), Definition.optionsFrom_nil]
      simp [hslot, hslot', packed]
    rw [ofBytes_registers layout addressOf hlookup hne (by simp) rfl hoptions,
      Content.size_of_registers layout (by simp) rfl]
    obtain ⟨hfield, hfield'⟩ := registerField_packed r s false
    exact ofFields_of_operandsOf (operandsOf_register_register harity hfield hfield') _

/-- Decoding the bytes of an instruction gives its definition, operands and size, in each of the
shapes that the instruction set leaves. -/
theorem ofBytes_bytes_of_shape (hlookup : InstructionSet.lookup mnemonic = some d)
    (hshape : values = [] ∧ d.arity = 0 ∨ (∃ v, values = [v] ∧ d.arity = 1) ∨
      ∃ r v, values = [.register r, v] ∧ d.arity = 2 ∧ d.contract.skipsFirstSlot = false)
    (rest : List UInt8) :
    ofBytes layout ((Content.instruction mnemonic values).bytes layout addressOf ++ rest) =
      .ok ⟨d, values.map (Value.raw addressOf),
        (Content.instruction mnemonic values).size layout⟩ := by
  have hd := InstructionSet.mem_definitions_of_lookup hlookup
  rcases hshape with ⟨rfl, harity⟩ | ⟨v, rfl, harity⟩ | ⟨r, v, rfl, harity, hskips⟩
  · rw [Content.bytes_of_registers layout addressOf hlookup rfl, ofBytes_nullary layout hd harity]
    cases layout <;> rfl
  · exact ofBytes_unary layout addressOf hlookup harity v rest
  · exact ofBytes_binary layout addressOf hlookup harity hskips r v rest

end

theorem ofBytes_bytes (layout : Layout) (addressOf : String → UInt32) {mnemonic : String}
    {d : Definition} {values : List Value} (hlookup : InstructionSet.lookup mnemonic = some d)
    (hadmits : d.Admits values) (rest : List UInt8) :
    ofBytes layout ((Content.instruction mnemonic values).bytes layout addressOf ++ rest) =
      .ok ⟨d, values.map (Value.raw addressOf),
        (Content.instruction mnemonic values).size layout⟩ :=
  ofBytes_bytes_of_shape layout addressOf hlookup
    (hadmits.cases (InstructionSet.mem_definitions_of_lookup hlookup)) rest

theorem disassembleFrom_of_ofBytes {layout : Layout} {bytes : List UInt8} {d : Decoded}
    (offset : Nat) (h : ofBytes layout bytes = .ok d) :
    disassembleFrom layout offset bytes =
      (offset, .ok d) :: disassembleFrom layout (offset + d.length) (bytes.drop d.length) := by
  have hne : ¬ bytes.isEmpty = true := by
    intro hempty
    have hbounds := length_bounds h
    rw [List.isEmpty_iff.mp hempty, List.length_nil] at hbounds
    omega
  rw [disassembleFrom, if_neg hne]
  split
  · next e he =>
    rw [h] at he
    cases he
  · next e he =>
    rw [h] at he
    cases he
    rfl

end Decoded

namespace Content

def decoded? (layout : Layout) (addressOf : String → UInt32) : Content → Option Decoded
  | label _ => none
  | instruction mnemonic values =>
    (InstructionSet.lookup mnemonic).map fun d =>
      ⟨d, values.map (Value.raw addressOf), (instruction mnemonic values).size layout⟩

theorem disassembleFrom_flatMap_bytes (layout : Layout) (addressOf : String → UInt32)
    {contents : List Content} (h : ∀ c ∈ contents, c.Admitted) (offset : Nat) :
    (Decoded.disassembleFrom layout offset
        (contents.flatMap (bytes layout addressOf))).map Prod.snd =
      (contents.filterMap (decoded? layout addressOf)).map .ok := by
  induction contents generalizing offset with
  | nil => simp [Decoded.disassembleFrom]
  | cons c rest ih =>
    obtain ⟨hc, hrest⟩ := List.forall_mem_cons.mp h
    have hlength := length_bytes layout addressOf hc.encodable
    rw [List.flatMap_cons]
    cases c with
    | label name => exact ih hrest offset
    | instruction mnemonic values =>
      obtain ⟨d, hlookup, hadmits⟩ := hc
      have hread := Decoded.ofBytes_bytes layout addressOf hlookup hadmits
        (rest.flatMap (bytes layout addressOf))
      rw [Decoded.disassembleFrom_of_ofBytes offset hread, List.drop_left' hlength, List.map_cons,
        ih hrest]
      simp [decoded?, hlookup]

theorem sum_length_decoded? (layout : Layout) (addressOf : String → UInt32)
    {contents : List Content} (h : ∀ c ∈ contents, c.Admitted) :
    ((contents.filterMap (decoded? layout addressOf)).map Decoded.length).sum =
      extent layout contents := by
  induction contents with
  | nil => rfl
  | cons c rest ih =>
    obtain ⟨hc, hrest⟩ := List.forall_mem_cons.mp h
    rw [extent_cons, ← ih hrest]
    cases c with
    | label name =>
      rw [List.filterMap_cons_none rfl]
      exact (Nat.zero_add _).symm
    | instruction mnemonic values =>
      obtain ⟨d, hlookup, -⟩ := hc
      simp [decoded?, hlookup]

end Content

/-- Decoding gives one entry for each instruction, in order, with its mnemonic and operands. -/
theorem Program.forall₂_decoded? (layout : Layout) (addressOf : String → UInt32) {p : Program}
    (h : ∀ c ∈ p.contents, c.Admitted) :
    List.Forall₂
      (fun (ins : Instruction) (d : Decoded) => d.definition.mnemonic = ins.mnemonic ∧
        d.operands = ins.values.map (Value.raw addressOf))
      p.instructions (p.contents.filterMap (Content.decoded? layout addressOf)) := by
  obtain ⟨declarations⟩ := p
  induction declarations with
  | nil => exact .nil
  | cons declaration rest ih =>
    obtain ⟨hd, hrest⟩ := List.forall_mem_cons.mp h
    cases declaration with
    | label name location => exact ih hrest
    | instruction ins =>
      obtain ⟨d, hlookup, -⟩ := hd
      have hdecoded : (Declaration.instruction ins).content.decoded? layout addressOf =
          some ⟨d, ins.values.map (Value.raw addressOf),
            (Declaration.instruction ins).content.size layout⟩ := by
        simp [Declaration.content, Content.decoded?, hlookup]
      rw [Program.contents, List.map_cons, List.filterMap_cons_some hdecoded]
      exact .cons ⟨InstructionSet.lookup_mnemonic hlookup, rfl⟩ (ih hrest)

end FourVin
