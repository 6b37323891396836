import FourVin.Proofs.Image.Delimiting
import FourVin.Proofs.Image.Patching

/-!
Encoding what has been decoded. Machine code has bits that decoding passes over: the two bytes in
front of the opcode, the lowest bit of the options byte, the bits of register slots that no operand
is in, and all bytes behind the opcode of an instruction without operands. Encoding a decoded
instruction gives code that decodes to the same instruction, with zeros in all these bits, so it is
the code that was decoded exactly when these bits were zero there.
-/
namespace FourVin

/-- A literal word is written as an integer. -/
def RawOperand.value : RawOperand → Value
  | register r => .register r
  | literal w => .integer w

@[simp] theorem RawOperand.raw_value (addressOf : String → UInt32) (op : RawOperand) :
    op.value.raw addressOf = op := by
  cases op <;> rfl

namespace InstructionSet

/-- No two definitions share a mnemonic. -/
theorem nodup_mnemonics : (definitions.map Definition.mnemonic).Nodup := by decide +kernel

theorem lookup_of_mem {d : Definition} (h : d ∈ definitions) : lookup d.mnemonic = some d := by
  cases hfound : lookup d.mnemonic with
  | none =>
    have hnone := List.find?_eq_none.mp hfound d h
    simp at hnone
  | some e =>
    have hmem := mem_definitions_of_lookup hfound
    rw [List.inj_on_of_nodup_map nodup_mnemonics hmem h (lookup_mnemonic hfound)]

end InstructionSet

namespace Definition

theorem exists_slotCode_eq_code (d : Definition) (slot position : Nat) (values : List Value) :
    ∃ r : Register, d.slotCode slot position values = r.code := by
  induction values generalizing position with
  | nil => exact ⟨.ra, rfl⟩
  | cons v rest ih =>
    rw [slotCode]
    split
    · cases v with
      | register r => exact ⟨r, rfl⟩
      | _ => exact ⟨.ra, rfl⟩
    · exact ih (position + 1)

/-- A slot has the code of the value at its position. -/
theorem slotCode_of_getElem? (d : Definition) {slot position i : Nat} {values : List Value}
    {v : Value} (hv : values[i]? = some v) (hslot : d.slot (position + i) = slot) :
    d.slotCode slot position values = v.registerCode := by
  induction values generalizing position i with
  | nil => simp at hv
  | cons first rest ih =>
    cases i with
    | zero =>
      obtain rfl : first = v := by simpa using hv
      rw [Nat.add_zero] at hslot
      rw [slotCode, if_pos hslot]
    | succ i =>
      rw [slot_add] at hslot
      rw [slotCode, if_neg (by omega)]
      refine ih hv ?_
      rw [slot_add, slot_succ]
      omega

/-- A slot that no register is in has the code zero. -/
theorem slotCode_eq_zero (d : Definition) {slot position : Nat} {values : List Value}
    (h : ∀ i r, values[i]? = some (.register r) → d.slot (position + i) ≠ slot) :
    d.slotCode slot position values = 0 := by
  induction values generalizing position with
  | nil => rfl
  | cons first rest ih =>
    rw [slotCode]
    split
    · next hslot =>
      cases first with
      | register r => exact absurd hslot (h 0 r rfl)
      | _ => rfl
    · apply ih
      intro i r hr
      rw [Nat.add_assoc, Nat.add_comm 1 i]
      exact h (i + 1) r hr

end Definition

namespace Decoded

/-- A byte is packed from its fields and its lowest bit. -/
theorem packed_slotBits {r s : Register} {options : UInt8}
    (hr : r.code = Encoding.slotBits 0 options) (hs : s.code = Encoding.slotBits 1 options) :
    packed r s (options &&& Encoding.literalFlag ≠ 0) ||| (options &&& 1) = options := by
  have htable : ∀ n < 256,
      Encoding.slotBits 0 (UInt8.ofNat n) <<< 5 ||| Encoding.slotBits 1 (UInt8.ofNat n) <<< 2 |||
        (if decide (UInt8.ofNat n &&& Encoding.literalFlag ≠ 0) then 2 else 0) |||
        (UInt8.ofNat n &&& 1) = UInt8.ofNat n := by
    decide +kernel
  have hoptions := htable options.toNat options.toNat_lt
  rwa [UInt8.ofNat_toNat, ← hr, ← hs] at hoptions

theorem packed_and_one (r s : Register) (literal : Bool) : packed r s literal &&& 1 = 0 := by
  have htable : ∀ r ∈ Register.all, ∀ s ∈ Register.all, ∀ literal,
      packed r s literal &&& 1 = 0 := by
    decide
  exact htable r (Register.mem_all r) s (Register.mem_all s) literal

theorem packed_eq_iff {r s : Register} {literal : Bool} {options : UInt8}
    (hflag : literal = true ↔ options &&& Encoding.literalFlag ≠ 0) :
    packed r s literal = options ↔
      options &&& 1 = 0 ∧ r.code = Encoding.slotBits 0 options ∧
        s.code = Encoding.slotBits 1 options := by
  constructor
  · rintro rfl
    obtain ⟨hr, hs, -⟩ := packed_fields r s literal
    exact ⟨packed_and_one r s literal, hr.symm, hs.symm⟩
  · rintro ⟨hlast, hr, hs⟩
    have hliteral : literal = decide (options &&& Encoding.literalFlag ≠ 0) :=
      Bool.eq_iff_iff.mpr (hflag.trans decide_eq_true_iff.symm)
    have hpacked := packed_slotBits hr hs
    rwa [hlast, UInt8.or_zero, ← hliteral] at hpacked

def Carries (d : Decoded) (slot : Nat) : Prop :=
  ∃ i r, d.operands[i]? = some (.register r) ∧ d.definition.slot i = slot

/-- The register slots without an operand, by the form of the instruction. -/
def idleSlots (d : Decoded) : List Nat :=
  match d.operands with
  | [] => [0, 1]
  | [.literal _] => [0, 1]
  | [.register _] => if d.definition.contract.skipsFirstSlot then [0] else [1]
  | [.register _, .literal _] => [1]
  | _ => []

/-- The bits that decoding passes over are zero in the bytes of a decoded instruction. -/
def Clean (d : Decoded) (bytes : List UInt8) : Prop :=
  bytes[0]? = some 0 ∧ bytes[1]? = some 0 ∧
    if d.definition.arity = 0 then ∀ i, 3 ≤ i → i < d.length → bytes[i]? = some 0
    else ∃ options, bytes[3]? = some options ∧ options &&& 1 = 0 ∧
      ∀ slot ∈ d.idleSlots, Encoding.slotBits slot options = 0

def values (d : Decoded) : List Value := d.operands.map RawOperand.value

/-- The operand that has a register slot, or in its place the literal word. -/
inductive Held (options : UInt8) (slot : Nat) : Option UInt32 → RawOperand → Prop
  | literal (w : UInt32) : Held options slot (some w) (.literal w)
  | register {r : Register} : r.code = Encoding.slotBits slot options →
      Held options slot none (.register r)

/-- The instructions that the set defines, with as many operands as they take. -/
theorem operandsOf_cases {definition : Definition} (hmem : definition ∈ InstructionSet.definitions)
    (harity : definition.arity ≠ 0) {options : UInt8} {literal : Option UInt32}
    {operands : List RawOperand} (h : operandsOf definition options literal = .ok operands) :
    (definition.arity = 1 ∧ ∃ op, operands = [op] ∧
      Held options (definition.slot 0) literal op) ∨
    (definition.arity = 2 ∧ definition.contract.skipsFirstSlot = false ∧
      ∃ r op, operands = [.register r, op] ∧ r.code = Encoding.slotBits 0 options ∧
        Held options 1 literal op) := by
  rcases InstructionSet.arity_cases hmem with hzero | hone | ⟨htwo, -, hskips⟩
  · exact absurd hzero harity
  · obtain ⟨r, hr, hfield⟩ := exists_registerField (definition.slot 0) options
    refine .inl ⟨hone, ?_⟩
    cases literal with
    | none =>
      rw [operandsOf_register hone hfield] at h
      exact ⟨_, (Except.ok.inj h).symm, .register hr⟩
    | some w =>
      rw [operandsOf_literal hone] at h
      exact ⟨_, (Except.ok.inj h).symm, .literal w⟩
  · obtain ⟨r, hr, hfield⟩ := exists_registerField 0 options
    obtain ⟨s, hs, hfield'⟩ := exists_registerField 1 options
    refine .inr ⟨htwo, hskips, r, ?_⟩
    cases literal with
    | none =>
      rw [operandsOf_register_register htwo hfield hfield'] at h
      exact ⟨_, (Except.ok.inj h).symm, hr, .register hs⟩
    | some w =>
      rw [operandsOf_register_literal htwo hfield] at h
      exact ⟨_, (Except.ok.inj h).symm, hr, .literal w⟩

theorem getElem?_values {d : Decoded} {i : Nat} {r : Register} :
    d.values[i]? = some (.register r) ↔ d.operands[i]? = some (.register r) := by
  rw [values, List.getElem?_map]
  cases d.operands[i]? with
  | none => simp
  | some op => cases op <;> simp [RawOperand.value]

theorem le_one_of_mem_idleSlots (d : Decoded) {slot : Nat} (h : slot ∈ d.idleSlots) : slot ≤ 1 := by
  unfold idleSlots at h
  split at h
  case h_3 => split at h <;> simp at h <;> omega
  all_goals simp at h
  all_goals omega

theorem exists_register_cons {op : RawOperand} {rest : List RawOperand} {P : Nat → Prop} :
    (∃ i r, (op :: rest)[i]? = some (.register r) ∧ P i) ↔
      (∃ r, op = .register r) ∧ P 0 ∨ ∃ i r, rest[i]? = some (.register r) ∧ P (i + 1) := by
  constructor
  · rintro ⟨i, r, hr, hi⟩
    cases i with
    | zero => exact .inl ⟨⟨r, by simpa using hr⟩, hi⟩
    | succ i => exact .inr ⟨i, r, hr, hi⟩
  · rintro (⟨⟨r, rfl⟩, hzero⟩ | ⟨i, r, hr, hi⟩)
    · exact ⟨0, r, rfl, hzero⟩
    · exact ⟨i + 1, r, hr, hi⟩

section

variable {d : Decoded} {options : UInt8} {literal : Option UInt32}
  (hmem : d.definition ∈ InstructionSet.definitions) (harity : d.definition.arity ≠ 0)
  (hoperands : operandsOf d.definition options literal = .ok d.operands)

include hmem harity hoperands

/-- A register operand comes from the slot of its position. -/
theorem code_of_register_operand {i : Nat} {r : Register}
    (h : d.operands[i]? = some (.register r)) :
    d.definition.slot i ≤ 1 ∧ r.code = Encoding.slotBits (d.definition.slot i) options := by
  have hheld : ∀ slot, Held options slot literal (.register r) →
      r.code = Encoding.slotBits slot options := by
    intro slot hr
    cases hr with
    | register hcode => exact hcode
  rcases operandsOf_cases hmem harity hoperands with
    ⟨-, op, hform, hop⟩ | ⟨-, hskips, s, op, hform, hs, hop⟩
  · rw [hform] at h
    obtain ⟨rfl, rfl⟩ : i = 0 ∧ op = .register r := by
      cases i with
      | zero => exact ⟨rfl, by simpa using h⟩
      | succ i => simp at h
    have hslot : d.definition.slot 0 ≤ 1 := by
      unfold Definition.slot
      split <;> omega
    exact ⟨hslot, hheld _ hop⟩
  · have hslot : ∀ i, d.definition.slot i = i := by simp [Definition.slot, hskips]
    rw [hform] at h
    rw [hslot]
    cases i with
    | zero =>
      obtain rfl : s = r := by simpa using h
      exact ⟨Nat.zero_le 1, hs⟩
    | succ i =>
      cases i with
      | zero =>
        obtain rfl : op = .register r := by simpa using h
        exact ⟨Nat.le_refl 1, hheld 1 hop⟩
      | succ i => simp at h

theorem fitsFrom_values : d.definition.FitsFrom 0 d.values := by
  intro i v hv
  by_cases hliteral : v.isLiteral = true
  · exact .inl hliteral
  · obtain ⟨r, rfl⟩ := Value.exists_register_of_not_isLiteral hliteral
    rw [Nat.zero_add]
    exact .inr (code_of_register_operand hmem harity hoperands (getElem?_values.mp hv)).1

/-- Encoding puts zeros into a slot that no operand is in, and what was there into any other. -/
theorem slotCode_values_eq_iff (slot : Nat) :
    d.definition.slotCode slot 0 d.values = Encoding.slotBits slot options ↔
      (¬ d.Carries slot → Encoding.slotBits slot options = 0) := by
  by_cases hcarries : d.Carries slot
  · obtain ⟨i, r, hr, hslot⟩ := hcarries
    have hcode := (code_of_register_operand hmem harity hoperands hr).2
    rw [d.definition.slotCode_of_getElem? (getElem?_values.mpr hr) (by rwa [Nat.zero_add]),
      ← hslot, ← hcode]
    exact iff_of_true rfl fun h => absurd ⟨i, r, hr, rfl⟩ h
  · have hzero : d.definition.slotCode slot 0 d.values = 0 := by
      apply d.definition.slotCode_eq_zero
      intro i r hr hslot
      rw [Nat.zero_add] at hslot
      exact hcarries ⟨i, r, getElem?_values.mp hr, hslot⟩
    rw [hzero, eq_comm]
    simp [hcarries]

theorem values_ne_nil : d.values ≠ [] := by
  rw [values]
  rcases operandsOf_cases hmem harity hoperands with ⟨-, op, hform, -⟩ | ⟨-, -, r, op, hform, -⟩
  · simp [hform]
  · simp [hform]

theorem lastLiteral?_values : Value.lastLiteral? d.values = literal.map .integer := by
  rw [values]
  rcases operandsOf_cases hmem harity hoperands with
    ⟨-, op, hform, hop⟩ | ⟨-, -, r, op, hform, -, hop⟩
  · rw [hform]
    cases hop <;> rfl
  · rw [hform]
    cases hop <;> rfl

/-- The table of slots without an operand is right for what decoding gives. -/
theorem mem_idleSlots_iff {slot : Nat} (hslot : slot ≤ 1) :
    slot ∈ d.idleSlots ↔ ¬ d.Carries slot := by
  have hfirst : d.definition.slot 0 = if d.definition.contract.skipsFirstSlot then 1 else 0 := rfl
  have hbinary : slot = 0 ∨ slot = 1 := by omega
  rw [Carries, idleSlots]
  rcases operandsOf_cases hmem harity hoperands with
    ⟨-, op, hform, hop⟩ | ⟨-, hskips, r, op, hform, -, hop⟩
  · rw [hform, exists_register_cons]
    cases hop with
    | literal w => rcases hbinary with rfl | rfl <;> simp
    | register _ =>
      cases hskips : d.definition.contract.skipsFirstSlot with
      | true => rcases hbinary with rfl | rfl <;> simp [hskips, hfirst]
      | false => rcases hbinary with rfl | rfl <;> simp [hskips, hfirst]
  · have hplain : ∀ i, d.definition.slot i = i := by simp [Definition.slot, hskips]
    rw [hform, exists_register_cons, exists_register_cons]
    cases hop with
    | literal w => rcases hbinary with rfl | rfl <;> simp [hplain]
    | register _ => rcases hbinary with rfl | rfl <;> simp [hplain]

/-- The options byte is encoded as it was when the bits that carry nothing were zero. -/
theorem optionsFrom_values_eq_iff
    (hflag : literal.isSome = true ↔ options &&& Encoding.literalFlag ≠ 0) :
    d.definition.optionsFrom 0 d.values = options ↔
      options &&& 1 = 0 ∧ ∀ slot ∈ d.idleSlots, Encoding.slotBits slot options = 0 := by
  obtain ⟨r, hr⟩ := d.definition.exists_slotCode_eq_code 0 0 d.values
  obtain ⟨s, hs⟩ := d.definition.exists_slotCode_eq_code 1 0 d.values
  have hany : d.values.any Value.isLiteral = literal.isSome := by
    have hlast := lastLiteral?_values hmem harity hoperands
    cases literal with
    | none => exact Value.lastLiteral?_eq_none_iff.mp hlast
    | some w =>
      rw [Option.isSome_some, ← Bool.not_eq_false, ← Value.lastLiteral?_eq_none_iff, hlast]
      simp
  have hpacked : d.definition.optionsFrom 0 d.values = packed r s literal.isSome := by
    rw [Definition.optionsFrom, hr, hs, hany]
    rfl
  have hidle : ∀ slot ≤ 1, d.definition.slotCode slot 0 d.values = Encoding.slotBits slot options ↔
      (slot ∈ d.idleSlots → Encoding.slotBits slot options = 0) := by
    intro slot hslot
    rw [slotCode_values_eq_iff hmem harity hoperands,
      mem_idleSlots_iff hmem harity hoperands hslot]
  rw [hpacked, packed_eq_iff hflag, ← hr, ← hs, hidle 0 (Nat.zero_le 1), hidle 1 (Nat.le_refl 1)]
  refine and_congr_right fun _ => ⟨?_, ?_⟩
  · rintro ⟨hzero, hone⟩ slot hslot
    have hle := d.le_one_of_mem_idleSlots hslot
    obtain rfl | rfl : slot = 0 ∨ slot = 1 := by omega
    · exact hzero hslot
    · exact hone hslot
  · intro h
    exact ⟨h 0, h 1⟩

end

def literalBytes (literal : Option UInt32) : List UInt8 := literal.elim [] Word.toBytes

theorem Leads.mem_definitions {layout : Layout} {bytes : List UInt8} {d : Decoded}
    (h : Leads layout bytes d) : d.definition ∈ InstructionSet.definitions := by
  cases h <;> assumption

/-- Code without operands: all that is read of it is the opcode. -/
theorem Leads.of_nullary {layout : Layout} {bytes : List UInt8} {d : Decoded}
    (h : Leads layout bytes d) (harity : d.definition.arity = 0) :
    d.operands = [] ∧ d.length = layout.nullaryLength ∧
      ∃ x y options rest, bytes = x :: y :: d.definition.opcode :: options :: rest ∧
        layout.nullaryLength ≤ rest.length + 4 := by
  cases h with
  | nullary _ _ hlength => exact ⟨rfl, rfl, _, _, _, _, rfl, hlength⟩
  | registers _ hne _ _ => exact absurd harity hne
  | literal _ hne _ _ => exact absurd harity hne

/-- Code with operands, with or without a literal word. -/
theorem Leads.of_operands {layout : Layout} {bytes : List UInt8} {d : Decoded}
    (h : Leads layout bytes d) (harity : d.definition.arity ≠ 0) :
    ∃ x y options literal rest,
      bytes = x :: y :: d.definition.opcode :: options :: (literalBytes literal ++ rest) ∧
      operandsOf d.definition options literal = .ok d.operands ∧
      d.length = 4 + (literalBytes literal).length ∧
      (literal.isSome = true ↔ options &&& Encoding.literalFlag ≠ 0) := by
  cases h with
  | nullary _ hzero _ => exact absurd hzero harity
  | registers _ _ hflag hoperands =>
    exact ⟨_, _, _, none, _, rfl, hoperands, rfl, by simp [hflag]⟩
  | @literal x y options definition operands w rest _ _ hflag hoperands =>
    exact ⟨x, y, options, some w, rest, rfl, hoperands, rfl, by simp [hflag]⟩

end Decoded

namespace Content

/-- The code of an instruction with operands that come from decoding. -/
theorem bytes_values {d : Decoded} {options : UInt8} {literal : Option UInt32}
    (hmem : d.definition ∈ InstructionSet.definitions) (harity : d.definition.arity ≠ 0)
    (hoperands : Decoded.operandsOf d.definition options literal = .ok d.operands)
    (layout : Layout) (addressOf : String → UInt32) :
    (instruction d.definition.mnemonic d.values).bytes layout addressOf =
      [0, 0, d.definition.opcode, d.definition.optionsFrom 0 d.values] ++
        Decoded.literalBytes literal := by
  have hlookup := InstructionSet.lookup_of_mem hmem
  have hlast := Decoded.lastLiteral?_values hmem harity hoperands
  have hheader := d.definition.header_of_ne_nil layout (Decoded.values_ne_nil hmem harity hoperands)
  cases literal with
  | none =>
    rw [bytes_of_registers layout addressOf hlookup hlast, hheader]
    rfl
  | some w =>
    rw [bytes_of_literal layout addressOf hlookup hlast rfl, hheader]
    rfl

end Content

namespace Decoded

variable {layout : Layout} {bytes : List UInt8} {d : Decoded}

theorem Leads.encodable_values (h : Leads layout bytes d) :
    (Content.instruction d.definition.mnemonic d.values).Encodable := by
  have hmem := h.mem_definitions
  refine ⟨d.definition, InstructionSet.lookup_of_mem hmem, ?_⟩
  by_cases harity : d.definition.arity = 0
  · rw [values, (h.of_nullary harity).1]
    exact d.definition.fitsFrom_nil 0
  · obtain ⟨x, y, options, literal, rest, -, hoperands, -⟩ := h.of_operands harity
    exact fitsFrom_values hmem harity hoperands

theorem Leads.length_bytes_values (h : Leads layout bytes d) (addressOf : String → UInt32) :
    ((Content.instruction d.definition.mnemonic d.values).bytes layout addressOf).length =
      d.length := by
  have hmem := h.mem_definitions
  by_cases harity : d.definition.arity = 0
  · obtain ⟨hoperands, hlength, -⟩ := h.of_nullary harity
    rw [Content.length_bytes layout addressOf h.encodable_values, hlength, values, hoperands]
    cases layout <;> rfl
  · obtain ⟨x, y, options, literal, rest, -, hoperands, hlength, -⟩ := h.of_operands harity
    rw [Content.bytes_values hmem harity hoperands, hlength]
    exact List.length_append

/-- Encoding and decoding again gives the decoded instruction. -/
theorem Leads.ofBytes_bytes_values (h : Leads layout bytes d) (addressOf : String → UInt32) :
    ofBytes layout
        ((Content.instruction d.definition.mnemonic d.values).bytes layout addressOf) = .ok d := by
  have hmem := h.mem_definitions
  have hlookup := InstructionSet.lookup_of_mem hmem
  -- No value is a label, so it does not matter which addresses the labels have.
  have hd : d = ⟨d.definition, d.values.map (Value.raw addressOf),
      (Content.instruction d.definition.mnemonic d.values).size layout⟩ := by
    rw [← Content.length_bytes layout addressOf h.encodable_values, h.length_bytes_values, values,
      List.map_map]
    simp [Function.comp_def]
  have hread : ofBytes layout ((Content.instruction d.definition.mnemonic d.values).bytes layout
      addressOf ++ []) = .ok ⟨d.definition, d.values.map (Value.raw addressOf),
        (Content.instruction d.definition.mnemonic d.values).size layout⟩ := by
    refine ofBytes_bytes_of_shape layout addressOf hlookup ?_ []
    by_cases harity : d.definition.arity = 0
    · exact .inl ⟨by rw [values, (h.of_nullary harity).1]; rfl, harity⟩
    · obtain ⟨x, y, options, literal, rest, -, hoperands, -⟩ := h.of_operands harity
      rw [values]
      rcases operandsOf_cases hmem harity hoperands with
        ⟨hone, op, hform, -⟩ | ⟨htwo, hskips, r, op, hform, -⟩
      · exact .inr (.inl ⟨_, by rw [hform]; rfl, hone⟩)
      · exact .inr (.inr ⟨_, _, by rw [hform]; rfl, htwo, hskips⟩)
  rw [List.append_nil] at hread
  rw [hread, ← hd]

theorem clean_of_operands (harity : d.definition.arity ≠ 0) {x y opcode options : UInt8}
    {rest : List UInt8} :
    d.Clean (x :: y :: opcode :: options :: rest) ↔
      x = 0 ∧ y = 0 ∧ options &&& 1 = 0 ∧
        ∀ slot ∈ d.idleSlots, Encoding.slotBits slot options = 0 := by
  simp [Clean, harity]

theorem clean_of_nullary (harity : d.definition.arity = 0)
    (hlength : d.length = layout.nullaryLength) {x y opcode options : UInt8} {rest : List UInt8} :
    d.Clean (x :: y :: opcode :: options :: rest) ↔
      x = 0 ∧ y = 0 ∧ options = 0 ∧ (layout = .legacy → rest[0]? = some 0) := by
  simp only [Clean, harity, hlength, if_true, List.getElem?_cons_zero, List.getElem?_cons_succ,
    Option.some.injEq]
  refine and_congr_right fun _ => and_congr_right fun _ => ⟨?_, ?_⟩
  · intro h
    refine ⟨by simpa using h 3 (by omega) (by cases layout <;> decide), ?_⟩
    rintro rfl
    simpa using h 4 (by omega) (by decide)
  · rintro ⟨rfl, hrest⟩ i hi hlt
    cases layout with
    | aligned =>
      obtain rfl : i = 3 := by
        change i < 4 at hlt
        omega
      rfl
    | legacy =>
      obtain rfl | rfl : i = 3 ∨ i = 4 := by
        change i < 5 at hlt
        omega
      · rfl
      · exact hrest rfl

theorem Leads.bytes_values_eq_take_iff (h : Leads layout bytes d) (addressOf : String → UInt32) :
    (Content.instruction d.definition.mnemonic d.values).bytes layout addressOf =
      bytes.take d.length ↔ d.Clean bytes := by
  have hmem := h.mem_definitions
  by_cases harity : d.definition.arity = 0
  · obtain ⟨hoperands, hlength, x, y, options, rest, rfl, hrest⟩ := h.of_nullary harity
    have hcode : (Content.instruction d.definition.mnemonic d.values).bytes layout addressOf =
        d.definition.header layout [] := by
      rw [values, hoperands]
      exact Content.bytes_of_registers layout addressOf (InstructionSet.lookup_of_mem hmem) rfl
    rw [hcode, clean_of_nullary harity hlength, hlength]
    cases layout with
    | aligned =>
      simp [Definition.header, Layout.nullaryLength, Layout.nullaryTail, eq_comm]
    | legacy =>
      cases rest with
      | nil => simp [Layout.nullaryLength, Layout.nullaryTail] at hrest
      | cons z tail =>
        simp [Definition.header, Layout.nullaryLength, Layout.nullaryTail, eq_comm]
  · obtain ⟨x, y, options, literal, rest, rfl, hoperands, hlength, hflag⟩ := h.of_operands harity
    have htake : (x :: y :: d.definition.opcode :: options :: (literalBytes literal ++ rest)).take
        d.length = [x, y, d.definition.opcode, options] ++ literalBytes literal := by
      rw [hlength, Nat.add_comm]
      simp
    rw [Content.bytes_values hmem harity hoperands, htake, List.append_cancel_right_eq,
      clean_of_operands harity, ← optionsFrom_values_eq_iff hmem harity hoperands hflag]
    simp only [List.cons.injEq, true_and, and_true, @eq_comm _ (0 : UInt8)]

/-- A decoded instruction needs no address. -/
theorem label_not_mem_values (d : Decoded) (name : String) : .label name ∉ d.values := by
  intro h
  obtain ⟨op, -, hop⟩ := List.mem_map.mp h
  cases op <;> cases hop

theorem Leads.exists_image (h : Leads layout bytes d) {p : Program}
    (hp : p.contents = [.instruction d.definition.mnemonic d.values]) :
    ∃ image addressOf, Image.ofProgram layout p = .ok image ∧ image.bytes =
      (Content.instruction d.definition.mnemonic d.values).bytes layout addressOf := by
  refine ⟨_, (Content.labels layout p.contents).addressOf,
    Image.ofProgram_eq_ok_iff.mpr ⟨?_, ?_, rfl⟩, ?_⟩
  · rw [hp]
    exact List.forall_mem_singleton.mpr h.encodable_values
  · rw [hp]
    intro name hname
    obtain ⟨c, hc, hlabel⟩ := List.mem_filterMap.mp hname
    obtain ⟨mnemonic, values, rfl, hlast⟩ := Content.label?_code_eq_some hlabel
    cases List.mem_singleton.mp hc
    exact absurd (List.mem_filter.mp (List.mem_of_getLast? hlast)).1 (d.label_not_mem_values name)
  · simp only [Content.image, hp, List.flatMap_singleton]

theorem Leads.mem_idleSlots_iff (h : Leads layout bytes d) {slot : Nat} (hslot : slot ≤ 1) :
    slot ∈ d.idleSlots ↔ ¬ d.Carries slot := by
  by_cases harity : d.definition.arity = 0
  · have hbinary : slot = 0 ∨ slot = 1 := by omega
    rw [Carries, idleSlots, (h.of_nullary harity).1]
    rcases hbinary with rfl | rfl <;> simp
  · obtain ⟨x, y, options, literal, rest, -, hoperands, -⟩ := h.of_operands harity
    exact Decoded.mem_idleSlots_iff h.mem_definitions harity hoperands hslot

/-- Encoding a decoded instruction gives code of the same length that decodes to it again, and this
is the code that was decoded exactly when all bits that decoding passes over are zero in it. -/
theorem ofBytes_reencodes (h : ofBytes layout bytes = .ok d) {ins : Instruction}
    (hmnemonic : ins.mnemonic = d.definition.mnemonic)
    (hvalues : ins.values = d.operands.map RawOperand.value) :
    ∃ image, Image.ofProgram layout ⟨[.instruction ins]⟩ = .ok image ∧
      image.bytes.length = d.length ∧ ofBytes layout image.bytes = .ok d ∧
      (image.bytes = bytes.take d.length ↔ d.Clean bytes) ∧
      ∀ slot ≤ 1, slot ∈ d.idleSlots ↔ ¬ d.Carries slot := by
  have hleads := ofBytes_eq_ok_iff.mp h
  have hcontents : (Program.mk [.instruction ins]).contents =
      [.instruction d.definition.mnemonic d.values] := by
    simp [Program.contents, Declaration.content, hmnemonic, hvalues, values]
  obtain ⟨image, addressOf, himage, hbytes⟩ := hleads.exists_image hcontents
  refine ⟨image, himage, ?_, ?_, ?_, fun slot hslot => hleads.mem_idleSlots_iff hslot⟩
  · rw [hbytes, hleads.length_bytes_values]
  · rw [hbytes, hleads.ofBytes_bytes_values]
  · rw [hbytes, hleads.bytes_values_eq_take_iff]

/-- A jump through a register, with bits set that decoding passes over: encoding it again gives
other bytes. -/
theorem ofBytes_reencodes_dirtyJump :
    ∃ d image, ofBytes .legacy [0, 7, 0x40, 0xED, 9] = .ok d ∧ d.operands = [.register .rd] ∧
      d.idleSlots = [0] ∧
      Image.ofProgram .legacy
        ⟨[.instruction ⟨"JMP", [⟨.register .rd, ⟨"", .start⟩⟩], ⟨"", .start⟩⟩]⟩ = .ok image ∧
      image.bytes.length = 4 ∧ ofBytes .legacy image.bytes = .ok d ∧
      image.bytes ≠ [0, 7, 0x40, 0xED] := by
  have hread : ofBytes .legacy [0, 7, 0x40, 0xED, 9] =
      .ok ⟨⟨"JMP", 0x40, _⟩, [.register .rd], 4⟩ := rfl
  let jump : Instruction := ⟨"JMP", [⟨.register .rd, ⟨"", .start⟩⟩], ⟨"", .start⟩⟩
  have hvalues : jump.values = [RawOperand.register .rd].map RawOperand.value := rfl
  obtain ⟨image, himage, hlength, hagain, hsame, -⟩ := ofBytes_reencodes hread rfl hvalues
  refine ⟨_, image, hread, rfl, rfl, himage, hlength, hagain, ?_⟩
  intro heq
  have hclean := hsame.mp heq
  simp [Clean] at hclean

end Decoded

end FourVin
