import FourVin.Image.Encoding
import FourVin.Proofs.Outcome
import FourVin.Proofs.Program.Content

/-!
The code of one instruction in closed form. The options byte holds the codes of the registers in
slots 0 and 1 and the literal flag, whatever the order in which operands contribute them, and the
word behind the header is that of the last literal. An instruction can be encoded when its mnemonic
is known and all its registers have a slot; its code then depends on its content alone.
-/
namespace FourVin

namespace Value

def registerCode : Value → UInt8
  | register r => r.code
  | _ => 0

/-- The last of the values that is not a register. -/
def lastLiteral? (values : List Value) : Option Value := (values.filter isLiteral).getLast?

theorem lastLiteral?_cons (v : Value) (rest : List Value) :
    lastLiteral? (v :: rest) =
      (lastLiteral? rest).or (if v.isLiteral then some v else none) := by
  by_cases hv : v.isLiteral = true
  · simp only [lastLiteral?, List.filter_cons, hv, if_true, List.getLast?_cons]
    cases (rest.filter isLiteral).getLast? <;> rfl
  · simp [lastLiteral?, hv]

theorem exists_register_of_not_isLiteral {v : Value} (h : ¬ v.isLiteral = true) :
    ∃ r, v = register r := by
  cases v with
  | register r => exact ⟨r, rfl⟩
  | _ => exact absurd rfl h

theorem lastLiteral?_eq_none_iff {values : List Value} :
    lastLiteral? values = none ↔ values.any isLiteral = false := by
  simp only [lastLiteral?, List.getLast?_eq_none_iff, List.filter_eq_nil_iff, List.any_eq_false]

theorem exists_literal?_of_lastLiteral? {values : List Value} {v : Value}
    (h : lastLiteral? values = some v) : ∃ l, v.literal? = some l := by
  have hv : v.isLiteral = true := (List.mem_filter.mp (List.mem_of_getLast? h)).2
  cases v with
  | register r => cases hv
  | _ => exact ⟨_, rfl⟩

end Value

namespace Definition

/-- The code of the register that goes to a slot, zero if there is none. The first value is at the
given position. -/
def slotCode (d : Definition) (slot : Nat) : Nat → List Value → UInt8
  | _, [] => 0
  | position, v :: rest =>
    if d.slot position = slot then v.registerCode else d.slotCode slot (position + 1) rest

def optionsFrom (d : Definition) (position : Nat) (values : List Value) : UInt8 :=
  d.slotCode 0 position values <<< 5 ||| d.slotCode 1 position values <<< 2 |||
    (if values.any Value.isLiteral then 2 else 0)

def FitsFrom (d : Definition) (position : Nat) (values : List Value) : Prop :=
  ∀ i v, values[i]? = some v → v.isLiteral = true ∨ d.slot (position + i) ≤ 1

theorem slot_add (d : Definition) (position i : Nat) :
    d.slot (position + i) = d.slot position + i := by
  unfold slot
  split <;> omega

theorem slot_succ (d : Definition) (position : Nat) :
    d.slot (position + 1) = d.slot position + 1 := d.slot_add position 1

theorem slotCode_of_lt (d : Definition) {slot position : Nat} (values : List Value)
    (h : slot < d.slot position) : d.slotCode slot position values = 0 := by
  induction values generalizing position with
  | nil => rfl
  | cons v rest ih =>
    have hne : d.slot position ≠ slot := by omega
    rw [slotCode, if_neg hne]
    apply ih
    rw [slot_succ]
    omega

theorem slotCode_literal_cons (d : Definition) (slot position : Nat) {v : Value}
    (rest : List Value) (hv : v.isLiteral = true) :
    d.slotCode slot position (v :: rest) = d.slotCode slot (position + 1) rest := by
  have hcode : v.registerCode = 0 := by
    cases v with
    | register r => cases hv
    | _ => rfl
  by_cases hslot : d.slot position = slot
  · rw [slotCode, if_pos hslot, hcode, slotCode_of_lt]
    rw [slot_succ]
    omega
  · rw [slotCode, if_neg hslot]

theorem optionsFrom_literal_cons (d : Definition) (position : Nat) {v : Value}
    (rest : List Value) (hv : v.isLiteral = true) :
    d.optionsFrom position (v :: rest) = 2 ||| d.optionsFrom (position + 1) rest := by
  simp only [optionsFrom, slotCode_literal_cons d _ _ rest hv, List.any_cons, hv, Bool.true_or,
    if_true]
  generalize d.slotCode 0 (position + 1) rest <<< 5 |||
    d.slotCode 1 (position + 1) rest <<< 2 = bits
  by_cases hrest : rest.any Value.isLiteral = true
  · rw [if_pos hrest, UInt8.or_comm 2, UInt8.or_assoc, UInt8.or_self]
  · rw [if_neg hrest, UInt8.or_zero, UInt8.or_comm]

theorem optionsFrom_register_cons (d : Definition) (position : Nat) (r : Register)
    (rest : List Value) (hslot : d.slot position ≤ 1) :
    d.optionsFrom position (.register r :: rest) =
      (if d.slot position = 0 then r.code <<< 5 else r.code <<< 2) |||
        d.optionsFrom (position + 1) rest := by
  have hsucc := d.slot_succ position
  by_cases hzero : d.slot position = 0
  · have hcode : d.slotCode 0 (position + 1) rest = 0 := d.slotCode_of_lt rest (by omega)
    simp [optionsFrom, slotCode, hzero, hcode, Value.registerCode, Value.isLiteral,
      UInt8.or_assoc]
  · have hone : d.slot position = 1 := by omega
    have hcode : d.slotCode 1 (position + 1) rest = 0 := d.slotCode_of_lt rest (by omega)
    simp only [optionsFrom, slotCode, hone, hcode, Value.registerCode, List.any_cons,
      Value.isLiteral, Bool.false_or, if_true, Nat.zero_ne_one.symm, if_false,
      UInt8.zero_shiftLeft, UInt8.or_zero]
    ac_rfl

@[simp] theorem optionsFrom_nil (d : Definition) (position : Nat) :
    d.optionsFrom position [] = 0 := by
  simp [optionsFrom, slotCode]

theorem optionsFrom_cons (d : Definition) (position : Nat) {v : Value} (rest : List Value)
    (hv : v.isLiteral = true ∨ d.slot position ≤ 1) :
    d.optionsFrom position (v :: rest) =
      d.optionsFrom position [v] ||| d.optionsFrom (position + 1) rest := by
  by_cases hliteral : v.isLiteral = true
  · simp only [optionsFrom_literal_cons d position _ hliteral, optionsFrom_nil, UInt8.or_zero]
  · obtain ⟨r, rfl⟩ := Value.exists_register_of_not_isLiteral hliteral
    have hslot := hv.resolve_left hliteral
    simp only [optionsFrom_register_cons d position r _ hslot, optionsFrom_nil, UInt8.or_zero]

theorem fitsFrom_nil (d : Definition) (position : Nat) : d.FitsFrom position [] := by
  intro i v hv
  simp at hv

theorem fitsFrom_cons {d : Definition} {position : Nat} {v : Value} {rest : List Value} :
    d.FitsFrom position (v :: rest) ↔
      (v.isLiteral = true ∨ d.slot position ≤ 1) ∧ d.FitsFrom (position + 1) rest :=
  Value.forall_position_cons (P := fun i v => v.isLiteral = true ∨ d.slot i ≤ 1)

end Definition

namespace Encoding.Fields

def extend (f : Fields) (d : Definition) (position : Nat) (values : List Value) : Fields :=
  ⟨f.options ||| d.optionsFrom position values,
    ((Value.lastLiteral? values).bind Value.literal?).or f.literal⟩

@[simp] theorem extend_nil (f : Fields) (d : Definition) (position : Nat) :
    f.extend d position [] = f := by
  simp [extend, Value.lastLiteral?]

theorem extend_literal (f : Fields) (d : Definition) (position : Nat) {v : Value}
    (hv : v.isLiteral = true) :
    f.extend d position [v] = ⟨f.options ||| literalFlag, v.literal?⟩ := by
  rw [extend, d.optionsFrom_literal_cons position [] hv, Definition.optionsFrom_nil,
    UInt8.or_zero]
  cases v with
  | register r => cases hv
  | _ => rfl

theorem extend_cons (f : Fields) {d : Definition} {position : Nat} {v : Value}
    (rest : List Value) (hv : v.isLiteral = true ∨ d.slot position ≤ 1) :
    f.extend d position (v :: rest) =
      (f.extend d position [v]).extend d (position + 1) rest := by
  have hliteral : (Value.lastLiteral? (v :: rest)).bind Value.literal? =
      ((Value.lastLiteral? rest).bind Value.literal?).or
        ((Value.lastLiteral? [v]).bind Value.literal?) := by
    rw [Value.lastLiteral?_cons, Value.lastLiteral?_cons v []]
    cases hrest : Value.lastLiteral? rest with
    | none => rfl
    | some w =>
      obtain ⟨l, hl⟩ := Value.exists_literal?_of_lastLiteral? hrest
      simp [hl]
  simp only [extend, d.optionsFrom_cons position rest hv, hliteral, UInt8.or_assoc,
    Option.or_assoc]

/-- One operand is added when it is a literal or has a slot. -/
theorem add_eq_ok_iff {f g : Fields} {d : Definition} {position : Nat} {op : Operand} :
    f.add d position op = .ok g ↔
      (op.value.isLiteral = true ∨ d.slot position ≤ 1) ∧ g = f.extend d position [op.value] := by
  by_cases hliteral : op.value.isLiteral = true
  · have hadd : f.add d position op = .ok (f.extend d position [op.value]) := by
      rw [f.extend_literal d position hliteral]
      cases hop : op.value with
      | register r => simp [hop, Value.isLiteral] at hliteral
      | _ => simp [add, hop]
    simp [hadd, hliteral, eq_comm]
  · obtain ⟨r, hop⟩ := Value.exists_register_of_not_isLiteral hliteral
    match hslot : d.slot position with
    | 0 =>
      simp [add, hop, hslot, slotShift?, extend, Value.lastLiteral?, Value.isLiteral,
        Definition.optionsFrom_register_cons, eq_comm]
    | 1 =>
      simp [add, hop, hslot, slotShift?, extend, Value.lastLiteral?, Value.isLiteral,
        Definition.optionsFrom_register_cons, eq_comm]
    | slot + 2 => simp [add, hop, hslot, slotShift?, Value.isLiteral]

/-- The fields of operands in closed form. -/
theorem addFrom_eq_ok_iff {f g : Fields} {d : Definition} {position : Nat}
    {operands : List Operand} :
    f.addFrom d position operands = .ok g ↔
      d.FitsFrom position (operands.map Operand.value) ∧
        g = f.extend d position (operands.map Operand.value) := by
  induction operands generalizing f position with
  | nil =>
    rw [addFrom, List.map_nil, extend_nil, Except.ok.injEq]
    constructor
    · rintro rfl
      exact ⟨d.fitsFrom_nil position, rfl⟩
    · intro h
      obtain ⟨-, rfl⟩ := h
      rfl
  | cons op rest ih =>
    rw [addFrom, bind_eq_ok_iff, List.map_cons, Definition.fitsFrom_cons]
    constructor
    · intro h
      obtain ⟨m, hadd, hrest⟩ := h
      obtain ⟨hop, rfl⟩ := add_eq_ok_iff.mp hadd
      obtain ⟨hfits, rfl⟩ := ih.mp hrest
      exact ⟨⟨hop, hfits⟩, (extend_cons f _ hop).symm⟩
    · intro h
      obtain ⟨⟨hop, hfits⟩, rfl⟩ := h
      exact ⟨_, add_eq_ok_iff.mpr ⟨hop, rfl⟩, ih.mpr ⟨hfits, extend_cons f _ hop⟩⟩

end Encoding.Fields

namespace Definition

def header (d : Definition) : Layout → List Value → List UInt8
  | .legacy, [] => [0, 0, d.opcode, 0, 0]
  | .aligned, [] => [0, 0, d.opcode, 0]
  | _, values => [0, 0, d.opcode, d.optionsFrom 0 values]

theorem header_of_ne_nil (d : Definition) (layout : Layout) {values : List Value}
    (h : values ≠ []) :
    d.header layout values = [0, 0, d.opcode, d.optionsFrom 0 values] := by
  cases values with
  | nil => exact absurd rfl h
  | cons v rest => cases layout <;> rfl

def code (d : Definition) (layout : Layout) (values : List Value) : Code :=
  ⟨d.header layout values, (Value.lastLiteral? values).bind Value.literal?⟩

end Definition

/-- An instruction can be encoded when all its registers have slots. -/
theorem Instruction.encode_eq_ok_iff {ins : Instruction} {layout : Layout} {code : Code} :
    ins.encode layout = .ok code ↔
      ∃ d, InstructionSet.lookup ins.mnemonic = some d ∧ d.FitsFrom 0 ins.values ∧
        code = d.code layout ins.values := by
  unfold encode
  cases InstructionSet.lookup ins.mnemonic with
  | none => simp
  | some d =>
    simp only [Option.some.injEq, exists_eq_left']
    unfold values
    cases ins.operands with
    | nil =>
      have hcode : d.code layout [] = ⟨[0, 0, d.opcode] ++ layout.nullaryTail, none⟩ := by
        cases layout <;> rfl
      constructor
      · intro h
        cases h
        exact ⟨d.fitsFrom_nil 0, hcode.symm⟩
      · intro h
        obtain ⟨-, rfl⟩ := h
        exact congrArg Except.ok hcode.symm
    | cons op rest =>
      have hcode : d.code layout ((op :: rest).map Operand.value) =
          ⟨[0, 0, d.opcode, (Encoding.Fields.extend ⟨0, none⟩ d 0
              ((op :: rest).map Operand.value)).options],
            (Encoding.Fields.extend ⟨0, none⟩ d 0 ((op :: rest).map Operand.value)).literal⟩ := by
        simp [Definition.code, Definition.header, Encoding.Fields.extend]
      rw [List.isEmpty_cons, if_neg Bool.false_ne_true, bind_eq_ok_iff]
      constructor
      · intro h
        obtain ⟨fields, hfields, hend⟩ := h
        obtain ⟨hfits, rfl⟩ := Encoding.Fields.addFrom_eq_ok_iff.mp hfields
        cases hend
        exact ⟨hfits, hcode.symm⟩
      · intro h
        obtain ⟨hfits, rfl⟩ := h
        refine ⟨_, Encoding.Fields.addFrom_eq_ok_iff.mpr ⟨hfits, rfl⟩, ?_⟩
        exact congrArg Except.ok hcode.symm

end FourVin
