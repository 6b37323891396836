import FourVin.Proofs.FirstFault
import FourVin.Proofs.Image.Patching

/-!
When a program has no image. The instructions are encoded in order, and the first one that cannot be
encoded is reported: its mnemonic is unknown, or one of its registers has no slot. Neither the
number of operands nor the types of literals matter here. Only when all instructions are encoded are
addresses filled in, and the first instruction whose address is that of an undeclared label is
reported. Of several literals the last one counts, so a label in front of another literal need not
be declared.
-/
namespace FourVin

def Definition.Misfits (d : Definition) (position : Nat) (op : Operand) : Prop :=
  op.value.isLiteral = false ∧ 1 < d.slot position

namespace Instruction

/-- Why an instruction cannot be encoded: its mnemonic, else its first register without a slot. -/
inductive EncodingFault (ins : Instruction) : Diagnostic → Prop
  | mnemonic : InstructionSet.lookup ins.mnemonic = none →
      EncodingFault ins ⟨ins.location, .unknownMnemonic ins.mnemonic⟩
  | slot {d : Definition} {before : List Operand} {op : Operand} :
      InstructionSet.lookup ins.mnemonic = some d →
      IsFirst (fun before => d.Misfits before.length) ins.operands before op →
      EncodingFault ins ⟨op.location, .unencodable ins.mnemonic
        ("no register slot " ++ (d.slot before.length).repr)⟩

def awaits? (ins : Instruction) : Option (String × Location) :=
  match Value.lastLiteral? ins.values with
  | some (.label name) => some (name, ins.location)
  | _ => none

/-- The instruction needs the address of a label that the program does not declare. -/
def LacksAddress (p : Program) (ins : Instruction) : Prop :=
  ∃ name, Value.lastLiteral? ins.values = some (.label name) ∧ .label name ∉ p.contents

end Instruction

def Hole.awaits (hole : Hole) : String × Location := (hole.label, hole.location)

namespace Encoding.Fields

theorem add_eq_error_iff {f : Fields} {d : Definition} {position : Nat} {op : Operand}
    {e : Diagnostic} :
    f.add d position op = .error e ↔ d.Misfits position op ∧
      e = ⟨op.location, .unencodable d.mnemonic
        ("no register slot " ++ (d.slot position).repr)⟩ := by
  unfold add Definition.Misfits
  cases op.value with
  | register r =>
    match d.slot position with
    | 0 => simp [slotShift?]
    | 1 => simp [slotShift?]
    | slot + 2 => simp [slotShift?, Value.isLiteral, eq_comm]
  | _ => simp [Value.isLiteral]

theorem addFrom_eq_error_iff {f : Fields} {d : Definition} {position : Nat}
    {operands : List Operand} {e : Diagnostic} :
    f.addFrom d position operands = .error e ↔
      ∃ before op, IsFirst (fun before => d.Misfits (position + before.length)) operands
          before op ∧
        e = ⟨op.location, .unencodable d.mnemonic
          ("no register slot " ++ (d.slot (position + before.length)).repr)⟩ := by
  refine walk_iff_isFirst (P := d.Misfits) (R := fun position op => e = ⟨op.location,
      .unencodable d.mnemonic ("no register slot " ++ (d.slot position).repr)⟩)
    (W := fun (f : Fields) position operands => f.addFrom d position operands = .error e)
    ?_ ?_ ?_ f position
  · intro f position h
    cases h
  · intro f position op rest hop
    rw [addFrom, add_eq_error_iff.mpr ⟨hop, rfl⟩, error_bind, Except.error.injEq, eq_comm]
  · intro f position op rest hop
    cases hadd : f.add d position op with
    | error other => exact absurd (add_eq_error_iff.mp hadd).1 hop
    | ok g => exact ⟨g, by rw [addFrom, hadd, ok_bind]⟩

end Encoding.Fields

namespace Instruction

theorem encode_eq_error_iff (ins : Instruction) (layout : Layout) {e : Diagnostic} :
    ins.encode layout = .error e ↔ ins.EncodingFault e := by
  unfold encode
  cases hlookup : InstructionSet.lookup ins.mnemonic with
  | none =>
    constructor
    · intro h
      cases h
      exact .mnemonic hlookup
    · rintro (_ | ⟨hd, -⟩)
      · rfl
      · simp [hlookup] at hd
  | some d =>
    have hmnemonic := InstructionSet.lookup_mnemonic hlookup
    dsimp only
    split
    · next hempty =>
      constructor
      · intro h
        cases h
      · rintro (hnone | ⟨-, hfirst⟩)
        · simp [hlookup] at hnone
        · rw [List.isEmpty_iff.mp hempty] at hfirst
          exact absurd hfirst not_isFirst_nil
    · rw [bind_pure_eq_error_iff, Encoding.Fields.addFrom_eq_error_iff, hmnemonic]
      simp only [Nat.zero_add]
      constructor
      · rintro ⟨before, op, hfirst, rfl⟩
        exact .slot hlookup hfirst
      · rintro (hnone | ⟨hd, hfirst⟩)
        · simp [hlookup] at hnone
        · cases hlookup.symm.trans hd
          exact ⟨_, _, hfirst, rfl⟩

theorem exists_encodingFault_iff {ins : Instruction} :
    (∃ e, ins.EncodingFault e) ↔ ¬ ins.content.Encodable := by
  have hencodable : ins.content.Encodable ↔ ∃ code, ins.encode .aligned = .ok code := by
    simp [encode_eq_ok_iff, content, Content.Encodable]
  simp only [hencodable, ← ins.encode_eq_error_iff .aligned]
  cases ins.encode .aligned <;> simp

theorem awaits?_eq_some_iff {ins : Instruction} {u : String × Location} :
    ins.awaits? = some u ↔
      Value.lastLiteral? ins.values = some (.label u.1) ∧ u.2 = ins.location := by
  unfold awaits?
  cases Value.lastLiteral? ins.values with
  | none => simp
  | some v => cases v <;> simp [Prod.ext_iff, eq_comm]

theorem lacksAddress_iff {p : Program} {ins : Instruction} :
    ins.LacksAddress p ↔ ∃ u, ins.awaits? = some u ∧ .label u.1 ∉ p.contents := by
  simp [LacksAddress, awaits?_eq_some_iff]

/-- The hole that an instruction leaves waits for the label that the instruction needs. -/
theorem awaits_hole? {ins : Instruction} (h : ins.content.Encodable) (layout : Layout)
    (d : Draft) :
    (d.hole? ins (ins.content.code layout)).map Hole.awaits = ins.awaits? := by
  obtain ⟨definition, hlookup, -⟩ := h
  rw [content, Content.code_of_lookup layout _ hlookup, Definition.code, Draft.hole?, Code.label?,
    awaits?]
  cases Value.lastLiteral? ins.values with
  | none => rfl
  | some v => cases v <;> rfl

end Instruction

def Declaration.instruction? : Declaration → Option Instruction
  | label _ _ => none
  | instruction ins => some ins

theorem Declaration.instruction?_eq_some_iff {d : Declaration} {ins : Instruction} :
    d.instruction? = some ins ↔ d = .instruction ins := by
  cases d <;> simp [instruction?]

namespace Draft

theorem add_eq_error_iff {layout : Layout} {d : Draft} {added : Declaration} {e : Diagnostic} :
    d.add layout added = .error e ↔ ∃ ins, added = .instruction ins ∧ ins.EncodingFault e := by
  cases added with
  | label name location => simp [add]
  | instruction ins =>
    rw [add, bind_pure_eq_error_iff, Instruction.encode_eq_error_iff]
    simp

/-- A draft cannot be built when an instruction cannot be encoded, and the first one is reported. -/
theorem ofProgram_eq_error_iff {layout : Layout} {p : Program} {e : Diagnostic} :
    ofProgram layout p = .error e ↔
      ∃ before ins, IsFirst (fun _ ins => ¬ ins.content.Encodable) p.instructions before ins ∧
        ins.EncodingFault e := by
  have hbad : ∀ added : Declaration,
      (∃ e ins, added = .instruction ins ∧ Instruction.EncodingFault ins e) ↔
        ∃ ins, added = .instruction ins ∧ ¬ ins.content.Encodable := by
    intro added
    simp only [← Instruction.exists_encodingFault_iff]
    constructor
    · rintro ⟨e, ins, hins, hfault⟩
      exact ⟨ins, hins, e, hfault⟩
    · rintro ⟨ins, hins, e, hfault⟩
      exact ⟨e, ins, hins, hfault⟩
  have hinstructions : p.instructions = p.declarations.filterMap Declaration.instruction? := rfl
  rw [hinstructions, exists_isFirst_filterMap_iff, ofProgram, foldlM_eq_error_iff
    (fun _ added e => ∃ ins, added = .instruction ins ∧ ins.EncodingFault e)
    fun _ _ _ _ _ => add_eq_error_iff]
  simp only [hbad, Declaration.instruction?_eq_some_iff, exists_and_left]

theorem exists_ofProgram_eq_ok_iff (layout : Layout) (p : Program) :
    (∃ d, ofProgram layout p = .ok d) ↔ ∀ ins ∈ p.instructions, ins.content.Encodable := by
  simp only [ofProgram_eq_ok_iff, exists_and_left, exists_eq, and_true,
    Program.mem_instructions_iff]
  constructor
  · intro h ins hins
    exact h _ hins
  · intro h added hadded
    cases added with
    | label name location => trivial
    | instruction ins => exact h ins hadded

/-- The holes of a draft wait for the labels that its instructions need, in order. -/
theorem holes_foldl_extend {layout : Layout} {d : Draft} {ds : List Declaration}
    (h : ∀ added ∈ ds, added.content.Encodable) :
    (ds.foldl (Draft.extend layout) d).holes.toList.map Hole.awaits =
      d.holes.toList.map Hole.awaits ++
        (Program.mk ds).instructions.filterMap Instruction.awaits? := by
  induction ds generalizing d with
  | nil => simp [Program.instructions]
  | cons added rest ih =>
    obtain ⟨hadded, hrest⟩ := List.forall_mem_cons.mp h
    rw [List.foldl_cons, ih hrest]
    cases added with
    | label name location => rfl
    | instruction ins =>
      have hhole := congrArg Option.toList (ins.awaits_hole? hadded layout d)
      have hcons : (Program.mk (.instruction ins :: rest)).instructions.filterMap
          Instruction.awaits? = ins.awaits?.toList ++
            (Program.mk rest).instructions.filterMap Instruction.awaits? := by
        rw [Program.instructions_instruction, List.filterMap_cons]
        cases ins.awaits? <;> rfl
      rw [Draft.extend, toList_holes_addCode, hcons, ← hhole, List.map_append, Option.toList_map,
        List.append_assoc]
      rfl

theorem fill_eq_error_iff {labels : LabelTable UInt32} {d : Draft} {hole : Hole}
    {e : Diagnostic} :
    fill labels d hole = .error e ↔
      ¬ labels.contains hole.label = true ∧ e = ⟨hole.location, .unresolvedLabel hole.label⟩ := by
  unfold fill LabelTable.contains
  cases labels.find? hole.label with
  | none => simp [eq_comm]
  | some address => simp

/-- The first hole that waits for a missing label is reported. -/
theorem resolve_eq_error_iff {d : Draft} {e : Diagnostic} :
    d.resolve = .error e ↔
      ∃ before u, IsFirst (fun _ u => ¬ d.labels.contains u.1 = true)
          (d.holes.toList.map Hole.awaits) before u ∧
        e = ⟨u.2, .unresolvedLabel u.1⟩ := by
  rw [resolve, foldlM_eq_error_iff (fun _ hole e =>
      ¬ d.labels.contains hole.label = true ∧ e = ⟨hole.location, .unresolvedLabel hole.label⟩)
    fun _ _ _ _ _ => fill_eq_error_iff]
  rw [← List.filterMap_eq_map, exists_isFirst_filterMap_iff]
  simp only [exists_and_left, exists_eq, and_true, Function.comp_apply, Option.some.injEq,
    exists_eq_left', Hole.awaits]
  constructor
  · rintro ⟨before, hole, hfirst, -, he⟩
    exact ⟨before, hole, hfirst, he⟩
  · rintro ⟨before, hole, hfirst, he⟩
    exact ⟨before, hole, hfirst, hfirst.bad, he⟩

/-- The draft of a program cannot be finished when an instruction lacks an address, and the first
such instruction is reported. -/
theorem finish_eq_error_iff {layout : Layout} {p : Program} {d : Draft}
    (h : ofProgram layout p = .ok d) {e : Diagnostic} :
    d.finish = .error e ↔
      ∃ before ins, IsFirst (fun _ ins => ins.LacksAddress p) p.instructions before ins ∧
        ∃ name, Value.lastLiteral? ins.values = some (.label name) ∧
          e = ⟨ins.location, .unresolvedLabel name⟩ := by
  obtain ⟨hencodable, hd⟩ := ofProgram_eq_ok_iff.mp h
  have hholes : d.holes.toList.map Hole.awaits =
      p.instructions.filterMap Instruction.awaits? := by
    rw [hd, holes_foldl_extend hencodable]
    rfl
  have hlabels : ∀ name, ¬ d.labels.contains name = true ↔ .label name ∉ p.contents := by
    intro name
    rw [(holds_of_ofProgram h).labels]
    exact not_congr Content.contains_labels_iff
  rw [finish, bind_pure_eq_error_iff, resolve_eq_error_iff, hholes, exists_isFirst_filterMap_iff]
  simp only [hlabels, ← Instruction.lacksAddress_iff]
  simp only [Instruction.awaits?_eq_some_iff]
  constructor
  · rintro ⟨before, ins, ⟨name, location⟩, hfirst, ⟨hlast, rfl⟩, rfl⟩
    exact ⟨before, ins, hfirst, name, hlast, rfl⟩
  · rintro ⟨before, ins, hfirst, name, hlast, rfl⟩
    exact ⟨before, ins, (name, ins.location), hfirst, ⟨hlast, rfl⟩, rfl⟩

theorem exists_finish_eq_ok_iff {layout : Layout} {p : Program} {d : Draft}
    (h : ofProgram layout p = .ok d) :
    (∃ image, d.finish = .ok image) ↔ ∀ ins ∈ p.instructions, ¬ ins.LacksAddress p := by
  rw [← clear_const_iff]
  refine exists_ok_iff_clear ?_ fun _ => finish_eq_error_iff h
  rintro _ ins ⟨name, hlast, -⟩
  exact ⟨_, name, hlast, rfl⟩

end Draft

/-- A program has an image exactly when all its instructions can be encoded and none of them needs
the address of an undeclared label. Otherwise the first instruction that cannot be encoded is
reported, and when there is none, the first one that lacks an address. -/
theorem Image.ofProgram_succeeds_or_first_fault (layout : Layout) (p : Program) :
    ((∃ image, Image.ofProgram layout p = .ok image) ↔
      (∀ ins ∈ p.instructions, ins.content.Encodable) ∧
        ∀ ins ∈ p.instructions, ¬ ins.LacksAddress p) ∧
    ∀ e, Image.ofProgram layout p = .error e ↔
      (∃ before ins, IsFirst (fun _ ins => ¬ ins.content.Encodable) p.instructions before ins ∧
        ins.EncodingFault e) ∨
      ((∀ ins ∈ p.instructions, ins.content.Encodable) ∧
        ∃ before ins, IsFirst (fun _ ins => ins.LacksAddress p) p.instructions before ins ∧
          ∃ name, Value.lastLiteral? ins.values = some (.label name) ∧
            e = ⟨ins.location, .unresolvedLabel name⟩) := by
  rw [← Draft.exists_ofProgram_eq_ok_iff layout p]
  constructor
  · simp only [Image.ofProgram, bind_eq_ok_iff]
    constructor
    · rintro ⟨image, d, hd, hfinish⟩
      exact ⟨⟨d, hd⟩, (Draft.exists_finish_eq_ok_iff hd).mp ⟨image, hfinish⟩⟩
    · rintro ⟨⟨d, hd⟩, hnone⟩
      obtain ⟨image, hfinish⟩ := (Draft.exists_finish_eq_ok_iff hd).mpr hnone
      exact ⟨image, d, hd, hfinish⟩
  · intro e
    rw [Image.ofProgram, bind_eq_error_iff, Draft.ofProgram_eq_error_iff]
    refine or_congr_right ?_
    constructor
    · rintro ⟨d, hd, hfinish⟩
      exact ⟨⟨d, hd⟩, (Draft.finish_eq_error_iff hd).mp hfinish⟩
    · rintro ⟨⟨d, hd⟩, hlacks⟩
      exact ⟨d, hd, (Draft.finish_eq_error_iff hd).mpr hlacks⟩

/-- A label in front of another literal need not be declared, and of two labels that must be the
first is reported. -/
example :
    let here (line : Nat) : Location := ⟨"", ⟨line, 1⟩⟩
    Image.ofProgram .aligned
      ⟨[.instruction ⟨"CMP", [⟨.label "a", here 1⟩, ⟨.integer 1, here 1⟩], here 1⟩,
        .instruction ⟨"JMP", [⟨.label "b", here 2⟩], here 2⟩,
        .instruction ⟨"JMP", [⟨.label "c", here 3⟩], here 3⟩]⟩ =
      .error ⟨here 2, .unresolvedLabel "b"⟩ := rfl

end FourVin
