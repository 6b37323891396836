import FourVin.Proofs.FirstFault
import FourVin.Proofs.Symbols.WellFormed

/-!
What the checks say of a program. A program that is well formed has symbols, and they are exactly
the labels that it declares and the label operands that it has. Of any other program the first
faulty declaration is reported, and a label that is declared nowhere only when no declaration is
faulty. A declaration can be judged from those before it: a label must be new, and an instruction
must be one that its definition admits.
-/
namespace FourVin

def Contract.Rejects (c : Contract) (position : Nat) (op : Operand) : Prop :=
  ∀ allowed ∈ c.allowed position, allowed.accepts op.value.type = false

/-- What is wrong with an instruction: its mnemonic, else the number of its operands, else the
first operand whose type is not taken. -/
inductive Instruction.Fault (ins : Instruction) : Diagnostic → Prop
  | mnemonic : InstructionSet.lookup ins.mnemonic = none →
      Fault ins ⟨ins.location, .unknownMnemonic ins.mnemonic⟩
  | count {d : Definition} : InstructionSet.lookup ins.mnemonic = some d →
      ins.operands.length ≠ d.arity →
      Fault ins ⟨ins.location, .operandCount ins.mnemonic d.arity ins.operands.length⟩
  | operand {d : Definition} {before : List Operand} {op : Operand} :
      InstructionSet.lookup ins.mnemonic = some d → ins.operands.length = d.arity →
      IsFirst (fun before => d.contract.Rejects before.length) ins.operands before op →
      Fault ins ⟨op.location,
        .operandType (OperandClass.describe (d.contract.allowed before.length)) op.value.type⟩

namespace Declaration

/-- The declaration is bad behind those before it: a label that is declared again, or an
instruction that is not admitted. -/
def Faulty (before : List Declaration) : Declaration → Prop
  | label name _ => .label name ∈ before.map content
  | instruction ins => ¬ ins.content.Admitted

/-- What is wrong with a declaration behind those before it. A label that is declared again is
reported with the place of its first declaration. -/
inductive Fault (before : List Declaration) : Declaration → Diagnostic → Prop
  | duplicate {name : String} {location first : Location} {front : List Declaration} :
      IsFirst (fun _ d => d.content = .label name) before front (.label name first) →
      Fault before (label name location) ⟨location, .duplicateLabel name first⟩
  | instruction {ins : Instruction} {e : Diagnostic} : ins.Fault e →
      Fault before (instruction ins) e

end Declaration

def Program.labelOperands (p : Program) : List (String × Location) :=
  (p.instructions.flatMap Instruction.operands).filterMap fun op =>
    op.value.label?.map fun name => (name, op.location)

namespace Instruction

theorem checkOperands_eq_error_iff {contract : Contract} {position : Nat}
    {operands : List Operand} {e : Diagnostic} :
    checkOperands contract position operands = .error e ↔
      ∃ before op, IsFirst (fun before => contract.Rejects (position + before.length)) operands
          before op ∧
        e = ⟨op.location, .operandType
          (OperandClass.describe (contract.allowed (position + before.length))) op.value.type⟩ := by
  have hrejects : ∀ position op, contract.Rejects position op ↔
      ¬ (contract.allowed position).any (·.accepts op.value.type) = true := by
    intro position op
    simp [Contract.Rejects]
  refine walk_iff_isFirst (P := contract.Rejects) (R := fun position op => e = ⟨op.location,
      .operandType (OperandClass.describe (contract.allowed position)) op.value.type⟩)
    (W := fun (_ : Unit) position operands =>
      checkOperands contract position operands = .error e)
    ?_ ?_ ?_ () position
  · intro _ position h
    cases h
  · intro _ position op rest hop
    simp [checkOperands, (hrejects position op).mp hop, eq_comm]
  · intro _ position op rest hop
    rw [hrejects, not_not] at hop
    exact ⟨(), by simp [checkOperands, hop]⟩

theorem check_eq_error_iff {ins : Instruction} {e : Diagnostic} :
    ins.check = .error e ↔ ins.Fault e := by
  unfold check
  cases hlookup : InstructionSet.lookup ins.mnemonic with
  | none =>
    constructor
    · intro h
      cases h
      exact .mnemonic hlookup
    · rintro (_ | ⟨hd, -⟩ | ⟨hd, -, -⟩)
      · rfl
      · simp [hlookup] at hd
      · simp [hlookup] at hd
  | some d =>
    dsimp only
    split
    · next harity =>
      rw [checkOperands_eq_error_iff]
      simp only [Nat.zero_add]
      constructor
      · rintro ⟨before, op, hfirst, rfl⟩
        exact .operand hlookup harity hfirst
      · rintro (hnone | ⟨hd, hcount⟩ | ⟨hd, -, hfirst⟩)
        · simp [hlookup] at hnone
        · cases hlookup.symm.trans hd
          exact absurd harity hcount
        · cases hlookup.symm.trans hd
          exact ⟨_, _, hfirst, rfl⟩
    · next harity =>
      constructor
      · intro h
        cases h
        exact .count hlookup harity
      · rintro (hnone | ⟨hd, -⟩ | ⟨hd, hcount, -⟩)
        · simp [hlookup] at hnone
        · cases hlookup.symm.trans hd
          rfl
        · cases hlookup.symm.trans hd
          exact absurd hcount harity

theorem exists_fault_iff {ins : Instruction} : (∃ e, ins.Fault e) ↔ ¬ ins.content.Admitted := by
  have hadmitted : ins.content.Admitted ↔ ins.check = .ok () := (check_eq_ok_iff ins).symm
  simp only [hadmitted, ← check_eq_error_iff]
  cases ins.check <;> simp

theorem labelUses_eq (ins : Instruction) :
    ins.labelUses = ins.operands.filterMap fun op =>
      op.value.label?.map fun name => (name, op.location) := by
  apply List.filterMap_congr
  intro op _
  cases op.value <;> rfl

end Instruction

namespace Symbols

theorem usedIn_declarations (p : Program) : usedIn p.declarations = p.labelOperands := by
  obtain ⟨ds⟩ := p
  induction ds with
  | nil => rfl
  | cons d rest ih =>
    cases d with
    | label name location => exact ih
    | instruction ins =>
      have hcons : (Program.mk (.instruction ins :: rest)).labelOperands =
          ins.labelUses ++ (Program.mk rest).labelOperands := by
        simp [Program.labelOperands, ins.labelUses_eq]
      rw [hcons, ← ih]
      rfl

/-- Looking up a label finds its first declaration. -/
theorem lookup_declaredIn_eq_some_iff {ds : List Declaration} {name : String}
    {location : Location} :
    (declaredIn ds).lookup name = some location ↔
      ∃ front, IsFirst (fun _ d => d.content = .label name) ds front (.label name location) := by
  induction ds with
  | nil => simp [declaredIn, not_isFirst_nil]
  | cons d rest ih =>
    simp only [isFirst_cons]
    by_cases hd : d.content = .label name
    · cases d with
      | label other place =>
        cases hd
        have hlookup : (declaredIn (.label name place :: rest)).lookup name = some place := by
          rw [declaredIn_cons]
          exact List.lookup_cons_self
        simp [hlookup, Declaration.content, eq_comm]
      | instruction ins => cases hd
    · have hlookup : (declaredIn (d :: rest)).lookup name = (declaredIn rest).lookup name := by
        cases d with
        | label other place =>
          have hne : name ≠ other := by
            rintro rfl
            exact hd rfl
          rw [declaredIn_cons]
          simp [declaredIn, List.lookup_cons, beq_false_of_ne hne]
        | instruction ins => rfl
      rw [hlookup, ih]
      simp [hd]

/-- Adding a declaration to the symbols of those before it fails when it is bad behind them. -/
theorem add_eq_error_iff {before : List Declaration} {s : Symbols} {d : Declaration}
    {e : Diagnostic} (h : before.foldlM add empty = .ok s) :
    s.add d = .error e ↔ d.Fault before e := by
  obtain ⟨-, -, rfl⟩ := (foldlM_add_eq_ok_iff (s := empty) List.nodup_nil).mp h
  cases d with
  | label name location =>
    have hfind : (empty.extend before).labels.find? name = (declaredIn before).lookup name := rfl
    rw [add, hfind]
    constructor
    · intro hadd
      split at hadd
      · next first hlookup =>
        cases hadd
        obtain ⟨front, hfirst⟩ := lookup_declaredIn_eq_some_iff.mp hlookup
        exact .duplicate hfirst
      · cases hadd
    · rintro ⟨hfirst⟩
      rw [lookup_declaredIn_eq_some_iff.mpr ⟨_, hfirst⟩]
  | instruction ins =>
    rw [add, bind_pure_eq_error_iff, Instruction.check_eq_error_iff]
    constructor
    · exact .instruction
    · rintro (_ | hfault)
      exact hfault

end Symbols

theorem Declaration.exists_fault_iff {before : List Declaration} {d : Declaration} :
    (∃ e, d.Fault before e) ↔ d.Faulty before := by
  cases d with
  | label name location =>
    constructor
    · rintro ⟨_, ⟨hfirst⟩⟩
      obtain ⟨after, rfl⟩ := hfirst.split
      simp [Faulty, content]
    · intro h
      have hbad : ¬ Clear (fun _ d => d.content = .label name) before := by
        rw [clear_const_iff]
        intro hclear
        obtain ⟨d, hd, hcontent⟩ := List.mem_map.mp h
        exact hclear d hd hcontent
      obtain ⟨front, d, hfirst⟩ := exists_isFirst_iff.mpr hbad
      have hd : d.content = .label name := hfirst.bad
      cases d with
      | label other first =>
        cases hd
        exact ⟨_, .duplicate hfirst⟩
      | instruction ins => cases hd
  | instruction ins =>
    rw [Faulty, ← Instruction.exists_fault_iff]
    constructor
    · rintro ⟨e, _ | hfault⟩
      exact ⟨e, hfault⟩
    · rintro ⟨e, hfault⟩
      exact ⟨e, .instruction hfault⟩

namespace Symbols

theorem foldlM_add_eq_error_iff {ds : List Declaration} {e : Diagnostic} :
    ds.foldlM add empty = .error e ↔
      ∃ before d, IsFirst Declaration.Faulty ds before d ∧ d.Fault before e := by
  rw [foldlM_eq_error_iff _ fun _ _ _ _ => add_eq_error_iff]
  simp only [Declaration.exists_fault_iff]

theorem exists_foldlM_add_iff {ds : List Declaration} :
    (∃ s, ds.foldlM add empty = .ok s) ↔ Clear Declaration.Faulty ds := by
  rw [exists_foldlM_eq_ok_iff _ fun _ _ _ _ => add_eq_error_iff]
  simp only [Declaration.exists_fault_iff]

theorem contains_extend_iff (p : Program) (name : String) :
    (empty.extend p.declarations).labels.contains name = true ↔ .label name ∈ p.contents := by
  rw [LabelTable.contains_iff, names_extend, names_declaredIn, ← Content.mem_declared_iff]
  rfl

/-- Where no label is declared twice, a lookup finds the declaration. -/
theorem find?_extend_eq_some_iff {p : Program}
    (h : (p.contents.filterMap Content.declared?).Nodup) {name : String} {location : Location} :
    (empty.extend p.declarations).labels.find? name = some location ↔
      .label name location ∈ p.declarations := by
  have hfind : (empty.extend p.declarations).labels.find? name =
      (declaredIn p.declarations).lookup name := rfl
  rw [hfind, lookup_declaredIn_eq_some_iff]
  constructor
  · rintro ⟨front, hfirst⟩
    obtain ⟨after, hsplit⟩ := hfirst.split
    rw [hsplit]
    simp
  · intro hmem
    obtain ⟨front, after, hsplit⟩ := List.append_of_mem hmem
    refine ⟨front, ⟨after, hsplit⟩, clear_const_iff.mpr ?_, rfl⟩
    intro d hd hcontent
    rw [Program.contents, hsplit, List.map_append, List.filterMap_append, List.nodup_append] at h
    have hfront : name ∈ (front.map Declaration.content).filterMap Content.declared? :=
      Content.mem_declared_iff.mpr (hcontent ▸ List.mem_map_of_mem hd)
    exact h.2.2 name hfront name (List.mem_cons_self ..) rfl

/-- The checks accept the well-formed programs and no others. The symbols of such a program are the
labels that it declares, each with the location of its declaration, and its label operands. -/
theorem ofProgram_accepts_wellFormed (p : Program) :
    ((∃ s, ofProgram p = .ok s) ↔ Content.WellFormed p.contents) ∧
      ∀ s, ofProgram p = .ok s →
        s.labels.names.Nodup ∧
        (∀ name location,
          s.labels.find? name = some location ↔ .label name location ∈ p.declarations) ∧
        s.uses = p.labelOperands := by
  refine ⟨exists_ofProgram_iff p, ?_⟩
  intro s h
  obtain ⟨hwellFormed, rfl⟩ := ofProgram_eq_ok_iff.mp h
  refine ⟨?_, fun name location => find?_extend_eq_some_iff hwellFormed.distinct, ?_⟩
  · rw [names_extend, names_declaredIn]
    exact hwellFormed.distinct
  · rw [← usedIn_declarations]
    rfl

end Symbols

def Program.jumpingAhead : Program :=
  let spot (line column : Nat) : Location := ⟨"jump", ⟨line, column⟩⟩
  ⟨[.label "top" (spot 1 1),
    .instruction ⟨"JE", [⟨.label "end", spot 2 4⟩], spot 2 1⟩,
    .instruction ⟨"MOV", [⟨.register .ra, spot 3 5⟩, ⟨.label "top", spot 3 10⟩], spot 3 1⟩,
    .label "end" (spot 4 1)]⟩

theorem Symbols.ofProgram_accepts_jumpingAhead :
    ∃ s, ofProgram .jumpingAhead = .ok s ∧ Content.WellFormed Program.jumpingAhead.contents ∧
      s.labels.find? "end" = some ⟨"jump", ⟨4, 1⟩⟩ ∧
      s.uses = [("end", ⟨"jump", ⟨2, 4⟩⟩), ("top", ⟨"jump", ⟨3, 10⟩⟩)] := by
  obtain ⟨haccepts, hsymbols⟩ := ofProgram_accepts_wellFormed .jumpingAhead
  have hok : ofProgram .jumpingAhead = .ok (empty.extend Program.jumpingAhead.declarations) := rfl
  obtain ⟨-, hlabels, huses⟩ := hsymbols _ hok
  exact ⟨_, hok, haccepts.mp ⟨_, hok⟩, (hlabels "end" _).mpr (by decide), huses⟩

namespace Symbols

/-- The label that is reported as undeclared is that of the first operand without a declaration. -/
theorem undeclared?_extend_eq_some_iff {p : Program} {u : String × Location} :
    (empty.extend p.declarations).undeclared? = some u ↔
      ∃ before, IsFirst (fun _ u => .label u.1 ∉ p.contents) p.labelOperands before u := by
  have huses : (empty.extend p.declarations).uses = p.labelOperands := usedIn_declarations p
  have hmissing : ∀ u : String × Location,
      (!(empty.extend p.declarations).labels.contains u.1) = true ↔ .label u.1 ∉ p.contents := by
    intro u
    rw [Bool.not_eq_true', ← contains_extend_iff, Bool.not_eq_true]
  rw [undeclared?, find?_eq_some_iff_isFirst, huses]
  simp only [hmissing]

/-- The checks report the first faulty declaration. A label that is declared nowhere is reported
only where no declaration is faulty, and then at its first use. -/
theorem ofProgram_reports_first_fault (p : Program) (e : Diagnostic) :
    ofProgram p = .error e ↔
      (∃ before d, IsFirst Declaration.Faulty p.declarations before d ∧ d.Fault before e) ∨
      (Clear Declaration.Faulty p.declarations ∧
        ∃ before name location,
          IsFirst (fun _ u => .label u.1 ∉ p.contents) p.labelOperands before (name, location) ∧
          e = ⟨location, .undeclaredLabel name⟩) := by
  rw [ofProgram, bind_eq_error_iff, foldlM_add_eq_error_iff]
  refine or_congr_right ?_
  constructor
  · rintro ⟨s, hfold, hend⟩
    have hclear := exists_foldlM_add_iff.mp ⟨s, hfold⟩
    obtain ⟨-, -, rfl⟩ := (foldlM_add_eq_ok_iff (s := empty) List.nodup_nil).mp hfold
    split at hend
    · next name location hundeclared =>
      cases hend
      obtain ⟨before, hfirst⟩ := undeclared?_extend_eq_some_iff.mp hundeclared
      exact ⟨hclear, before, name, location, hfirst, rfl⟩
    · cases hend
  · rintro ⟨hclear, before, name, location, hfirst, rfl⟩
    obtain ⟨s, hfold⟩ := exists_foldlM_add_iff.mpr hclear
    have hs := (foldlM_add_eq_ok_iff (s := empty) List.nodup_nil).mp hfold
    obtain ⟨-, -, rfl⟩ := hs
    refine ⟨_, hfold, ?_⟩
    rw [undeclared?_extend_eq_some_iff.mpr ⟨before, hfirst⟩]

/-- A label that is declared again is reported before one that is not declared at all. -/
example :
    let here (line : Nat) : Location := ⟨"", ⟨line, 1⟩⟩
    ofProgram
      ⟨[.instruction ⟨"JMP", [⟨.label "nowhere", here 1⟩], here 1⟩, .label "a" (here 2),
        .label "a" (here 3), .label "a" (here 4)]⟩ =
      .error ⟨here 3, .duplicateLabel "a" (here 2)⟩ := rfl

end Symbols

end FourVin
