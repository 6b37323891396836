import FourVin.Proofs.Outcome
import FourVin.Proofs.Program.Soundness
import FourVin.Symbols

/-!
Which programs have symbols. The checks look at the content of a program only: its labels are
declared once, its instructions are admitted by their definitions, and every label that it uses is
declared somewhere. A fault that they find in a program that has been read lies in its file.
-/
namespace FourVin

/-- The values are as many as the definition takes, each of a class that its position allows. -/
def Definition.Admits (d : Definition) (values : List Value) : Prop :=
  values.length = d.arity ∧
    ∀ i v, values[i]? = some v → (d.contract.allowed i).any (·.accepts v.type) = true

def Value.label? : Value → Option String
  | label name => some name
  | _ => none

namespace Content

def Admitted : Content → Prop
  | label _ => True
  | instruction mnemonic values =>
    ∃ d, InstructionSet.lookup mnemonic = some d ∧ d.Admits values

def declared? : Content → Option String
  | label name => some name
  | instruction _ _ => none

def used : Content → List String
  | label _ => []
  | instruction _ values => values.filterMap Value.label?

theorem mem_declared_iff {contents : List Content} {name : String} :
    name ∈ contents.filterMap declared? ↔ label name ∈ contents := by
  rw [List.mem_filterMap]
  constructor
  · rintro ⟨c, hc, hdeclared⟩
    cases c with
    | label other =>
      cases hdeclared
      exact hc
    | instruction mnemonic values => cases hdeclared
  · intro h
    exact ⟨_, h, rfl⟩

structure WellFormed (contents : List Content) : Prop where
  distinct : (contents.filterMap declared?).Nodup
  admitted : ∀ c ∈ contents, c.Admitted
  resolved : ∀ name ∈ contents.flatMap used, name ∈ contents.filterMap declared?

end Content

namespace Instruction

theorem checkOperands_eq_ok_iff (contract : Contract) (position : Nat) (operands : List Operand) :
    checkOperands contract position operands = .ok () ↔
      ∀ i v, (operands.map Operand.value)[i]? = some v →
        (contract.allowed (position + i)).any (·.accepts v.type) = true := by
  induction operands generalizing position with
  | nil => simp [checkOperands]
  | cons op rest ih =>
    rw [List.map_cons, Value.forall_position_cons
      (P := fun i v => (contract.allowed i).any (·.accepts v.type) = true), ← ih (position + 1)]
    by_cases haccepts : (contract.allowed position).any (·.accepts op.value.type) = true
    · simp [checkOperands, haccepts]
    · simp [checkOperands, haccepts]

theorem check_eq_ok_iff (ins : Instruction) :
    ins.check = .ok () ↔ (Declaration.instruction ins).content.Admitted := by
  simp only [check, Declaration.content, Content.Admitted, Definition.Admits]
  cases hlookup : InstructionSet.lookup ins.mnemonic with
  | none => simp
  | some definition =>
    have hlength : ins.values.length = ins.operands.length := by simp [values]
    simp only [Option.some.injEq, exists_eq_left', hlength]
    split
    · next harity => simp [harity, checkOperands_eq_ok_iff, values]
    · next harity => simp [harity]

theorem names_labelUses (ins : Instruction) :
    ins.labelUses.map Prod.fst = ins.values.filterMap Value.label? := by
  unfold labelUses values
  induction ins.operands with
  | nil => rfl
  | cons op rest ih =>
    cases hvalue : op.value <;> simp [List.filterMap_cons, hvalue, Value.label?, ih]

end Instruction

namespace Symbols

def declaredIn (ds : List Declaration) : List (String × Location) :=
  ds.filterMap fun
    | .label name location => some (name, location)
    | .instruction _ => none

def usedIn (ds : List Declaration) : List (String × Location) :=
  ds.flatMap fun
    | .label _ _ => []
    | .instruction ins => ins.labelUses

theorem declaredIn_cons (d : Declaration) (rest : List Declaration) :
    declaredIn (d :: rest) = declaredIn [d] ++ declaredIn rest := by
  cases d <;> rfl

theorem names_declaredIn (ds : List Declaration) :
    (declaredIn ds).map Prod.fst = (ds.map Declaration.content).filterMap Content.declared? := by
  induction ds with
  | nil => rfl
  | cons d rest ih =>
    cases d with
    | label name location => exact congrArg (name :: ·) ih
    | instruction ins => exact ih

theorem names_usedIn (ds : List Declaration) :
    (usedIn ds).map Prod.fst = (ds.map Declaration.content).flatMap Content.used := by
  induction ds with
  | nil => rfl
  | cons d rest ih =>
    cases d with
    | label name location => simpa [usedIn, Content.used, Declaration.content] using ih
    | instruction ins =>
      simpa [usedIn, Content.used, Declaration.content, Instruction.names_labelUses] using ih

def extend (s : Symbols) (ds : List Declaration) : Symbols :=
  ⟨⟨s.labels.entries ++ declaredIn ds⟩, s.uses ++ usedIn ds⟩

@[simp] theorem extend_nil (s : Symbols) : s.extend [] = s := by
  simp [extend, declaredIn, usedIn]

theorem extend_cons (s : Symbols) (d : Declaration) (rest : List Declaration) :
    s.extend (d :: rest) = (s.extend [d]).extend rest := by
  cases d <;> simp [extend, declaredIn, usedIn]

theorem names_extend (s : Symbols) (ds : List Declaration) :
    (s.extend ds).labels.names = s.labels.names ++ (declaredIn ds).map Prod.fst := by
  simp [extend, LabelTable.names]

/-- One declaration is added when it declares no known label and is admitted. -/
theorem add_eq_ok_iff {s t : Symbols} {d : Declaration} (hs : s.labels.names.Nodup) :
    s.add d = .ok t ↔
      (s.extend [d]).labels.names.Nodup ∧ d.content.Admitted ∧ t = s.extend [d] := by
  cases d with
  | label name location =>
    have hnames : (s.extend [.label name location]).labels.names = s.labels.names ++ [name] := by
      rw [names_extend]
      rfl
    have hnodup : (s.labels.names ++ [name]).Nodup ↔ name ∉ s.labels.names := by
      rw [List.nodup_append]
      constructor
      · intro h hmem
        exact h.2.2 name hmem name (by simp) rfl
      · intro hmem
        refine ⟨hs, by simp, ?_⟩
        rintro a ha b hb rfl
        exact hmem (List.mem_singleton.mp hb ▸ ha)
    rw [hnames, hnodup, add]
    cases hfind : s.labels.find? name with
    | none =>
      have hmem : name ∉ s.labels.names := (LabelTable.find?_eq_none_iff _ _).mp hfind
      have hextend : s.extend [.label name location] =
          { s with labels := s.labels.insert name location } := by
        simp [extend, declaredIn, usedIn, LabelTable.insert_of_not_mem _ _ _ hmem]
      simp [hmem, hextend, Declaration.content, Content.Admitted, eq_comm]
    | some first =>
      have hmem : name ∈ s.labels.names := by
        by_contra hmem
        simp [(LabelTable.find?_eq_none_iff _ _).mpr hmem] at hfind
      simp [hmem]
  | instruction ins =>
    have hextend : s.extend [.instruction ins] = { s with uses := s.uses ++ ins.labelUses } := by
      simp [extend, declaredIn, usedIn]
    rw [hextend, add, bind_eq_ok_iff]
    simp only [hs, true_and, ← Instruction.check_eq_ok_iff]
    constructor
    · intro h
      obtain ⟨_, hcheck, ht⟩ := h
      cases ht
      exact ⟨hcheck, rfl⟩
    · intro h
      obtain ⟨hcheck, rfl⟩ := h
      exact ⟨(), hcheck, rfl⟩

theorem foldlM_add_eq_ok_iff {s t : Symbols} {ds : List Declaration}
    (hs : s.labels.names.Nodup) :
    ds.foldlM add s = .ok t ↔
      (s.extend ds).labels.names.Nodup ∧ (∀ d ∈ ds, d.content.Admitted) ∧ t = s.extend ds := by
  induction ds generalizing s with
  | nil => simp [hs, pure, Except.pure, eq_comm]
  | cons d rest ih =>
    rw [List.foldlM_cons, bind_eq_ok_iff, extend_cons]
    constructor
    · intro h
      obtain ⟨u, hadd, hrest⟩ := h
      obtain ⟨hnodup, hadmitted, rfl⟩ := (add_eq_ok_iff hs).mp hadd
      obtain ⟨hnodup', hadmitted', rfl⟩ := (ih hnodup).mp hrest
      exact ⟨hnodup', List.forall_mem_cons.mpr ⟨hadmitted, hadmitted'⟩, rfl⟩
    · intro h
      obtain ⟨hnodup, hadmitted, rfl⟩ := h
      have hfront : (s.extend [d]).labels.names.Nodup := by
        rw [names_extend] at hnodup
        exact hnodup.sublist (List.sublist_append_left _ _)
      obtain ⟨hd, hrest⟩ := List.forall_mem_cons.mp hadmitted
      exact ⟨_, (add_eq_ok_iff hs).mpr ⟨hfront, hd, rfl⟩, (ih hfront).mpr ⟨hnodup, hrest, rfl⟩⟩

theorem undeclared?_eq_none_iff (s : Symbols) :
    s.undeclared? = none ↔ ∀ name ∈ s.uses.map Prod.fst, name ∈ s.labels.names := by
  simp [undeclared?, LabelTable.contains_iff]

theorem names_uses_extend (p : Program) :
    (empty.extend p.declarations).uses.map Prod.fst = p.contents.flatMap Content.used := by
  rw [extend, Program.contents, ← names_usedIn]
  rfl

/-- A program has symbols exactly when its content is well formed, and they are those that its
declarations declare and use. -/
theorem ofProgram_eq_ok_iff {p : Program} {s : Symbols} :
    ofProgram p = .ok s ↔ Content.WellFormed p.contents ∧ s = empty.extend p.declarations := by
  have hempty : empty.labels.names.Nodup := List.nodup_nil
  have hnames : (empty.extend p.declarations).labels.names =
      p.contents.filterMap Content.declared? := by
    rw [names_extend, names_declaredIn]
    rfl
  have huses := names_uses_extend p
  simp only [ofProgram, bind_eq_ok_iff, foldlM_add_eq_ok_iff hempty]
  constructor
  · intro h
    obtain ⟨t, ⟨hnodup, hadmitted, rfl⟩, hend⟩ := h
    split at hend
    · cases hend
    · next hnone =>
      cases hend
      rw [undeclared?_eq_none_iff, hnames, huses] at hnone
      exact ⟨⟨hnames ▸ hnodup, List.forall_mem_map.mpr hadmitted, hnone⟩, rfl⟩
  · intro h
    obtain ⟨⟨hdistinct, hadmitted, hresolved⟩, rfl⟩ := h
    have hnone : (empty.extend p.declarations).undeclared? = none := by
      rw [undeclared?_eq_none_iff, hnames, huses]
      exact hresolved
    refine ⟨empty.extend p.declarations,
      ⟨hnames ▸ hdistinct, List.forall_mem_map.mp hadmitted, rfl⟩, ?_⟩
    simp only [hnone]
    rfl

theorem exists_ofProgram_iff (p : Program) :
    (∃ s, ofProgram p = .ok s) ↔ Content.WellFormed p.contents := by
  simp [ofProgram_eq_ok_iff]

theorem reportable_of_checkOperands {file : String} {contract : Contract} {position : Nat}
    {operands : List Operand} {e : Diagnostic} (hfile : ∀ op ∈ operands, op.location.file = file)
    (h : Instruction.checkOperands contract position operands = .error e) : e.Reportable file := by
  induction operands generalizing position with
  | nil => cases h
  | cons op rest ih =>
    obtain ⟨hop, hrest⟩ := List.forall_mem_cons.mp hfile
    simp only [Instruction.checkOperands] at h
    split at h
    · exact ih hrest h
    · cases h
      exact ⟨hop, trivial⟩

theorem reportable_of_check {file : String} {ins : Instruction} {e : Diagnostic}
    (hins : ins.Sound file) (h : ins.check = .error e) : e.Reportable file := by
  obtain ⟨definition, hlookup⟩ := Option.isSome_iff_exists.mp hins.mnemonic
  simp only [Instruction.check, hlookup] at h
  split at h
  · exact reportable_of_checkOperands (fun op hop => (hins.operands op hop).2) h
  · cases h
    exact ⟨hins.location, trivial⟩

theorem reportable_of_add {file : String} {s : Symbols} {d : Declaration} {e : Diagnostic}
    (hd : d.Sound file) (h : s.add d = .error e) : e.Reportable file := by
  cases d with
  | label name location =>
    simp only [add] at h
    split at h
    · cases h
      exact ⟨hd.2, trivial⟩
    · cases h
  | instruction ins =>
    rcases bind_eq_error_iff.mp h with hcheck | ⟨_, _, hend⟩
    · exact reportable_of_check hd hcheck
    · cases hend

theorem file_usedIn {file : String} {ds : List Declaration} (hds : ∀ d ∈ ds, d.Sound file)
    {u : String × Location} (hu : u ∈ usedIn ds) : u.2.file = file := by
  obtain ⟨d, hd, hmem⟩ := List.mem_flatMap.mp hu
  cases d with
  | label name location => cases hmem
  | instruction ins =>
    obtain ⟨op, hop, huse⟩ := List.mem_filterMap.mp hmem
    have hlocation := ((hds _ hd).operands op hop).2
    split at huse
    · cases huse
      exact hlocation
    · cases huse

/-- A fault in the symbols of a program that has been read is reportable. -/
theorem reportable_ofProgram {file : String} {p : Program} {e : Diagnostic}
    (hp : ∀ d ∈ p.declarations, d.Sound file) (h : ofProgram p = .error e) :
    e.Reportable file := by
  rcases bind_eq_error_iff.mp h with hfold | ⟨s, hfold, hend⟩
  · obtain ⟨d, hd, t, hadd⟩ := exists_error_of_foldlM hfold
    exact reportable_of_add (hp d hd) hadd
  · obtain ⟨-, -, rfl⟩ := (foldlM_add_eq_ok_iff (s := empty) List.nodup_nil).mp hfold
    split at hend
    · next name location hu =>
      cases hend
      have hmem : (name, location) ∈ usedIn p.declarations := by
        simpa [extend, empty] using List.mem_of_find?_eq_some hu
      exact ⟨file_usedIn hp hmem, trivial⟩
    · cases hend

end Symbols

structure Content.Complete (contents : List Content) : Prop where
  nonempty : contents ≠ []
  spellable : ∀ c ∈ contents, c.Spellable
  wellFormed : WellFormed contents

theorem Program.complete_of_checked {file source : String} {p : Program} {s : Symbols}
    (hread : Program.ofSource file source = .ok p) (hcheck : Symbols.ofProgram p = .ok s) :
    Content.Complete p.contents := by
  obtain ⟨hne, hsound⟩ := Program.sound_ofSource hread
  refine ⟨?_, ?_, (Symbols.exists_ofProgram_iff p).mp ⟨s, hcheck⟩⟩
  · simpa [Program.contents] using hne
  · intro c hc
    obtain ⟨d, hd, rfl⟩ := List.mem_map.mp hc
    exact (hsound d hd).spellable

end FourVin
