import FourVin.Proofs.Image.Disassembly

/-!
What decoding needs of the bytes. An instruction tells its own length: the opcode says whether it
takes operands, and the options byte whether a literal word follows. Decoding reads that many bytes
and looks at no other, so it fails on an opcode that no definition has and where bytes are missing,
and nowhere else; three bits always name a register. Decoding one instruction behind the other
therefore ends, at the end of the bytes or at the first of these faults.
-/
namespace FourVin

namespace Register

/-- Three bits are the code of a register. -/
theorem exists_code_eq_and_seven (bits : UInt8) : ∃ r : Register, r.code = bits &&& 7 := by
  have htable : ∀ n < 8, ∃ r ∈ all, r.code = UInt8.ofNat n := by decide
  have hlt : (bits &&& 7).toNat < 8 := by
    rw [UInt8.toNat_and]
    exact Nat.lt_succ_of_le Nat.and_le_right
  obtain ⟨r, -, hr⟩ := htable _ hlt
  exact ⟨r, by rwa [UInt8.ofNat_toNat] at hr⟩

end Register

namespace Definition

def encodedLength (d : Definition) (layout : Layout) (options : UInt8) : Nat :=
  if d.arity = 0 then
    match layout with
    | .legacy => 5
    | .aligned => 4
  else if options &&& Encoding.literalFlag = 0 then 4 else 8

variable {d : Definition} {options : UInt8} (layout : Layout)

theorem encodedLength_of_nullary (h : d.arity = 0) (options : UInt8) :
    d.encodedLength layout options = layout.nullaryLength := by
  cases layout <;> simp [encodedLength, h, Layout.nullaryLength, Layout.nullaryTail]

theorem encodedLength_of_registers (harity : d.arity ≠ 0)
    (hflag : options &&& Encoding.literalFlag = 0) : d.encodedLength layout options = 4 := by
  simp [encodedLength, harity, hflag]

theorem encodedLength_of_literal (harity : d.arity ≠ 0)
    (hflag : options &&& Encoding.literalFlag ≠ 0) : d.encodedLength layout options = 8 := by
  simp [encodedLength, harity, hflag]

end Definition

namespace Decoded

/-- A register slot never fails to name a register. -/
theorem exists_registerField (slot : Nat) (options : UInt8) :
    ∃ r : Register, r.code = Encoding.slotBits slot options ∧
      registerField slot options = .ok (.register r) := by
  obtain ⟨r, hr⟩ := Register.exists_code_eq_and_seven
    (if slot = 0 then options >>> 5 else options >>> 2)
  exact ⟨r, hr, registerField_of_slotBits hr.symm⟩

theorem exists_operandsOf {d : Definition} (hmem : d ∈ InstructionSet.definitions)
    (harity : d.arity ≠ 0) (options : UInt8) (literal : Option UInt32) :
    ∃ operands, operandsOf d options literal = .ok operands := by
  rcases InstructionSet.arity_cases hmem with hzero | hone | ⟨htwo, -⟩
  · exact absurd hzero harity
  · obtain ⟨r, -, hr⟩ := exists_registerField (d.slot 0) options
    cases literal with
    | none => exact ⟨_, operandsOf_register hone hr⟩
    | some w => exact ⟨_, operandsOf_literal hone options w⟩
  · obtain ⟨r, -, hr⟩ := exists_registerField 0 options
    obtain ⟨s, -, hs⟩ := exists_registerField 1 options
    cases literal with
    | none => exact ⟨_, operandsOf_register_register htwo hr hs⟩
    | some w => exact ⟨_, operandsOf_register_literal htwo hr w⟩

inductive Leads (layout : Layout) : List UInt8 → Decoded → Prop
  | nullary {x y options : UInt8} {definition : Definition} {rest : List UInt8} :
      definition ∈ InstructionSet.definitions → definition.arity = 0 →
      layout.nullaryLength ≤ rest.length + 4 →
      Leads layout (x :: y :: definition.opcode :: options :: rest)
        ⟨definition, [], layout.nullaryLength⟩
  | registers {x y options : UInt8} {definition : Definition} {operands : List RawOperand}
      {rest : List UInt8} :
      definition ∈ InstructionSet.definitions → definition.arity ≠ 0 →
      options &&& Encoding.literalFlag = 0 → operandsOf definition options none = .ok operands →
      Leads layout (x :: y :: definition.opcode :: options :: rest) ⟨definition, operands, 4⟩
  | literal {x y options : UInt8} {definition : Definition} {operands : List RawOperand}
      {w : UInt32} {rest : List UInt8} :
      definition ∈ InstructionSet.definitions → definition.arity ≠ 0 →
      options &&& Encoding.literalFlag ≠ 0 →
      operandsOf definition options (some w) = .ok operands →
      Leads layout (x :: y :: definition.opcode :: options :: (Word.toBytes w ++ rest))
        ⟨definition, operands, 8⟩

inductive Ends (layout : Layout) (bytes : List UInt8) : Except Diagnostic Decoded → Prop
  | read {d : Decoded} : Leads layout bytes d → Ends layout bytes (.ok d)
  | unknown {opcode : UInt8} : 4 ≤ bytes.length → bytes[2]? = some opcode →
      InstructionSet.ofOpcode opcode = none → Ends layout bytes (.error (unknownOpcode opcode))
  | noHeader : bytes.length < 4 → Ends layout bytes (.error truncated)
  | cut {opcode options : UInt8} {definition : Definition} : bytes[2]? = some opcode →
      bytes[3]? = some options → InstructionSet.ofOpcode opcode = some definition →
      bytes.length < definition.encodedLength layout options →
      Ends layout bytes (.error truncated)

theorem ends_ofBytes (layout : Layout) (bytes : List UInt8) :
    Ends layout bytes (ofBytes layout bytes) := by
  unfold ofBytes
  split
  · next x y opcode options rest =>
    cases hdefinition : InstructionSet.ofOpcode opcode with
    | none => exact .unknown (by simp) rfl hdefinition
    | some definition =>
      have hmem := InstructionSet.mem_definitions_of_ofOpcode hdefinition
      obtain rfl := InstructionSet.ofOpcode_opcode hdefinition
      dsimp only
      split
      · next harity =>
        split
        · next hlength =>
          refine .cut rfl rfl hdefinition ?_
          rw [definition.encodedLength_of_nullary layout harity]
          exact hlength
        · next hlength => exact .read (.nullary hmem harity (Nat.not_lt.mp hlength))
      · next harity =>
        split
        · next hflag =>
          obtain ⟨operands, hoperands⟩ := exists_operandsOf hmem harity options none
          rw [ofFields_of_operandsOf hoperands]
          exact .read (.registers hmem harity hflag hoperands)
        · next hflag =>
          split
          · next a b c e tail =>
            have hword : a :: b :: c :: e :: tail =
                Word.toBytes (Word.ofBytes a b c e) ++ tail := by
              rw [Word.toBytes_ofBytes]
              rfl
            obtain ⟨operands, hoperands⟩ :=
              exists_operandsOf hmem harity options (some (Word.ofBytes a b c e))
            rw [hword, ofFields_of_operandsOf hoperands]
            exact .read (.literal hmem harity hflag hoperands)
          · next hshort =>
            refine .cut rfl rfl hdefinition ?_
            have hrest := Word.length_lt_four hshort
            rw [definition.encodedLength_of_literal layout harity hflag]
            simp only [List.length_cons]
            omega
  · next hshort => exact .noHeader (Word.length_lt_four hshort)

section

variable {layout : Layout} {bytes : List UInt8} {d : Decoded}

theorem Leads.ofBytes_eq (h : Leads layout bytes d) : ofBytes layout bytes = .ok d := by
  cases h with
  | nullary hmem harity hlength =>
    have hlength := Nat.not_lt.mpr hlength
    simp [ofBytes, InstructionSet.ofOpcode_of_mem hmem, harity, hlength]
  | registers hmem harity hflag hoperands =>
    have hfields := ofFields_of_operandsOf hoperands 4
    simp [ofBytes, InstructionSet.ofOpcode_of_mem hmem, harity, hflag, hfields]
  | @literal _ _ _ _ _ w rest hmem harity hflag hoperands =>
    have hfields := ofFields_of_operandsOf hoperands 8
    obtain ⟨a, b, c, e, hbytes, hword⟩ := Word.exists_ofBytes_eq w
    simp [ofBytes, InstructionSet.ofOpcode_of_mem hmem, harity, hflag, hbytes, hword, hfields]

theorem ofBytes_eq_ok_iff : ofBytes layout bytes = .ok d ↔ Leads layout bytes d := by
  constructor
  · intro h
    have hends := ends_ofBytes layout bytes
    rw [h] at hends
    cases hends with
    | read hleads => exact hleads
  · exact Leads.ofBytes_eq

/-- The length of a decoded instruction is told by its first four bytes. -/
theorem Leads.length_eq (h : Leads layout bytes d) :
    ∃ opcode options, bytes[2]? = some opcode ∧ bytes[3]? = some options ∧
      InstructionSet.ofOpcode opcode = some d.definition ∧
      d.length = d.definition.encodedLength layout options := by
  cases h with
  | nullary hmem harity hlength =>
    exact ⟨_, _, rfl, rfl, InstructionSet.ofOpcode_of_mem hmem,
      (Definition.encodedLength_of_nullary layout harity _).symm⟩
  | registers hmem harity hflag _ =>
    exact ⟨_, _, rfl, rfl, InstructionSet.ofOpcode_of_mem hmem,
      (Definition.encodedLength_of_registers layout harity hflag).symm⟩
  | literal hmem harity hflag _ =>
    exact ⟨_, _, rfl, rfl, InstructionSet.ofOpcode_of_mem hmem,
      (Definition.encodedLength_of_literal layout harity hflag).symm⟩

/-- Bytes behind an instruction do not matter. -/
theorem Leads.take_append (h : Leads layout bytes d) (behind : List UInt8) :
    Leads layout (bytes.take d.length ++ behind) d := by
  cases h with
  | @nullary x y options definition rest hmem harity hlength =>
    have htake : (x :: y :: definition.opcode :: options :: rest).take layout.nullaryLength =
        x :: y :: definition.opcode :: options :: rest.take (layout.nullaryLength - 4) := by
      cases layout <;> rfl
    simp only [htake, List.cons_append]
    refine .nullary hmem harity ?_
    rw [List.length_append, List.length_take]
    omega
  | registers hmem harity hflag hoperands => exact .registers hmem harity hflag hoperands
  | @literal x y options definition operands w rest hmem harity hflag hoperands =>
    have htake : (Word.toBytes w ++ rest).take 4 = Word.toBytes w := List.take_left' rfl
    simp only [List.take_succ_cons, htake, List.cons_append]
    exact .literal hmem harity hflag hoperands

/-- Decoding succeeds on a known opcode with enough bytes. -/
theorem exists_ofBytes_eq_ok_iff :
    (∃ d, ofBytes layout bytes = .ok d) ↔
      4 ≤ bytes.length ∧ ∃ opcode options definition, bytes[2]? = some opcode ∧
        bytes[3]? = some options ∧ InstructionSet.ofOpcode opcode = some definition ∧
        definition.encodedLength layout options ≤ bytes.length := by
  constructor
  · rintro ⟨d, h⟩
    obtain ⟨opcode, options, hopcode, hoptions, hdefinition, hlength⟩ :=
      (ofBytes_eq_ok_iff.mp h).length_eq
    have hthree := (List.getElem?_eq_some_iff.mp hoptions).1
    exact ⟨hthree, opcode, options, d.definition, hopcode, hoptions, hdefinition,
      hlength ▸ (length_bounds h).2⟩
  · rintro ⟨hfour, opcode, options, definition, hopcode, hoptions, hdefinition, hlength⟩
    have hends := ends_ofBytes layout bytes
    generalize ofBytes layout bytes = outcome at hends ⊢
    cases hends with
    | read hleads => exact ⟨_, rfl⟩
    | unknown _ hother hnone =>
      cases hopcode.symm.trans hother
      simp [hdefinition] at hnone
    | noHeader hshort => omega
    | cut hother hbyte hknown hshort =>
      cases hopcode.symm.trans hother
      cases hoptions.symm.trans hbyte
      cases hdefinition.symm.trans hknown
      omega

/-- A fault is an opcode without a definition, and otherwise that bytes are missing. -/
theorem fault_of_ofBytes {e : Diagnostic} (h : ofBytes layout bytes = .error e) :
    (∃ opcode, 4 ≤ bytes.length ∧ bytes[2]? = some opcode ∧
      InstructionSet.ofOpcode opcode = none ∧ e = unknownOpcode opcode) ∨
    (¬ ∃ opcode, 4 ≤ bytes.length ∧ bytes[2]? = some opcode ∧
      InstructionSet.ofOpcode opcode = none) ∧ e = truncated := by
  have hends := ends_ofBytes layout bytes
  rw [h] at hends
  cases hends with
  | unknown hfour hopcode hnone => exact .inl ⟨_, hfour, hopcode, hnone, rfl⟩
  | noHeader hshort =>
    refine .inr ⟨?_, rfl⟩
    rintro ⟨opcode, hfour, -⟩
    omega
  | cut hopcode hoptions hdefinition hshort =>
    refine .inr ⟨?_, rfl⟩
    rintro ⟨other, -, hother, hnone⟩
    cases hopcode.symm.trans hother
    simp [hdefinition] at hnone

theorem disassembleFrom_of_error {e : Diagnostic} (offset : Nat) (hne : bytes ≠ [])
    (h : ofBytes layout bytes = .error e) :
    disassembleFrom layout offset bytes = [(offset, .error e)] := by
  have hnonempty : ¬ bytes.isEmpty = true := by simpa using hne
  rw [disassembleFrom, if_neg hnonempty]
  split
  · next other hother =>
    rw [h] at hother
    cases hother
    rfl
  · next d hd =>
    rw [h] at hd
    cases hd

end

/-- Decoding one instruction behind the other, the first of them at `offset`: what is read at an
offset is an entry, and the entries end with the bytes or with the first fault. -/
inductive Sweeps (layout : Layout) :
    Nat → List UInt8 → List (Nat × Except Diagnostic Decoded) → Prop
  | done {offset : Nat} : Sweeps layout offset [] []
  | fault {offset : Nat} {bytes : List UInt8} {e : Diagnostic} : bytes ≠ [] →
      ofBytes layout bytes = .error e → Sweeps layout offset bytes [(offset, .error e)]
  | step {offset : Nat} {bytes : List UInt8} {d : Decoded}
      {rest : List (Nat × Except Diagnostic Decoded)} : ofBytes layout bytes = .ok d →
      Sweeps layout (offset + d.length) (bytes.drop d.length) rest →
      Sweeps layout offset bytes ((offset, .ok d) :: rest)

/-- Decoding advances with every instruction, so it ends. -/
theorem sweeps_disassembleFrom (layout : Layout) (offset : Nat) (bytes : List UInt8) :
    Sweeps layout offset bytes (disassembleFrom layout offset bytes) := by
  induction hn : bytes.length using Nat.strong_induction_on generalizing offset bytes with
  | _ n ih =>
    by_cases hne : bytes = []
    · have hnil : disassembleFrom layout offset bytes = [] := by
        simp [disassembleFrom, hne]
      rw [hnil, hne]
      exact .done
    · cases h : ofBytes layout bytes with
      | error e =>
        rw [disassembleFrom_of_error offset hne h]
        exact .fault hne h
      | ok d =>
        have hbounds := length_bounds h
        rw [disassembleFrom_of_ofBytes offset h]
        refine .step h (ih (bytes.drop d.length).length ?_ _ _ rfl)
        rw [List.length_drop]
        omega

def entriesFrom (offset : Nat) : List Decoded → List (Nat × Except Diagnostic Decoded)
  | [] => []
  | d :: rest => (offset, .ok d) :: entriesFrom (offset + d.length) rest

def extent (decoded : List Decoded) : Nat := (decoded.map length).sum

theorem extent_cons (d : Decoded) (rest : List Decoded) :
    extent (d :: rest) = d.length + extent rest := by
  simp [extent]

/-- The instructions take all bytes, or those in front of the only fault. -/
theorem Sweeps.exists_decoded {layout : Layout} {offset : Nat} {bytes : List UInt8}
    {entries : List (Nat × Except Diagnostic Decoded)} (h : Sweeps layout offset bytes entries) :
    ∃ decoded,
      (entries = entriesFrom offset decoded ∧ extent decoded = bytes.length) ∨
      ∃ e, entries = entriesFrom offset decoded ++ [(offset + extent decoded, .error e)] ∧
        extent decoded < bytes.length := by
  induction h with
  | done => exact ⟨[], .inl ⟨rfl, rfl⟩⟩
  | fault hne _ => exact ⟨[], .inr ⟨_, rfl, List.length_pos_iff.mpr hne⟩⟩
  | @step offset bytes d rest hd _ ih =>
    have hbounds := length_bounds hd
    obtain ⟨decoded, hrest⟩ := ih
    rw [List.length_drop] at hrest
    refine ⟨d :: decoded, ?_⟩
    rw [extent_cons, entriesFrom]
    rcases hrest with ⟨rfl, hextent⟩ | ⟨e, rfl, hextent⟩
    · exact .inl ⟨rfl, by omega⟩
    · refine .inr ⟨e, ?_, by omega⟩
      rw [Nat.add_assoc]
      rfl

/-- Decoding succeeds exactly where a known opcode has as many bytes as it asks for. It reads these
bytes only, its faults are an unknown opcode and missing bytes, never a register, and decoding one
instruction behind the other ends with the bytes or with a fault behind the instructions read. -/
theorem ofBytes_delimits_itself (layout : Layout) (bytes : List UInt8) :
    ((∃ d, ofBytes layout bytes = .ok d) ↔
      4 ≤ bytes.length ∧ ∃ opcode options definition, bytes[2]? = some opcode ∧
        bytes[3]? = some options ∧ InstructionSet.ofOpcode opcode = some definition ∧
        definition.encodedLength layout options ≤ bytes.length) ∧
    (∀ d, ofBytes layout bytes = .ok d →
      (∃ opcode options, bytes[2]? = some opcode ∧ bytes[3]? = some options ∧
        InstructionSet.ofOpcode opcode = some d.definition ∧
        d.length = d.definition.encodedLength layout options) ∧
      d.length ≤ bytes.length ∧
      ∀ behind, ofBytes layout (bytes.take d.length ++ behind) = .ok d) ∧
    (∀ e, ofBytes layout bytes = .error e →
      (∃ opcode, 4 ≤ bytes.length ∧ bytes[2]? = some opcode ∧
        InstructionSet.ofOpcode opcode = none ∧ e = unknownOpcode opcode) ∨
      (¬ ∃ opcode, 4 ≤ bytes.length ∧ bytes[2]? = some opcode ∧
        InstructionSet.ofOpcode opcode = none) ∧ e = truncated) ∧
    (∀ slot options, ∃ r, Register.ofCode (Encoding.slotBits slot options) = .ok r ∧
      registerField slot options = .ok (.register r)) ∧
    Sweeps layout 0 bytes (disassemble layout bytes) ∧
    ∃ decoded,
      (disassemble layout bytes = entriesFrom 0 decoded ∧ extent decoded = bytes.length) ∨
      ∃ e, disassemble layout bytes =
          entriesFrom 0 decoded ++ [(extent decoded, .error e)] ∧
        extent decoded < bytes.length := by
  have hsweeps : Sweeps layout 0 bytes (disassemble layout bytes) :=
    sweeps_disassembleFrom layout 0 bytes
  refine ⟨exists_ofBytes_eq_ok_iff, ?_, fun e => fault_of_ofBytes, ?_, hsweeps, ?_⟩
  · intro d h
    have hleads := ofBytes_eq_ok_iff.mp h
    refine ⟨hleads.length_eq, (length_bounds h).2, ?_⟩
    intro behind
    exact ofBytes_eq_ok_iff.mpr (hleads.take_append behind)
  · intro slot options
    obtain ⟨r, hr, hfield⟩ := exists_registerField slot options
    exact ⟨r, hr ▸ r.ofCode_code, hfield⟩
  · simpa only [Nat.zero_add] using hsweeps.exists_decoded

end Decoded

end FourVin
