import FourVin.Proofs.Symbols.WellFormed
import Mathlib.Data.Set.Function

/-!
The checks see the name of a label only to compare it with other names, and never look at
locations. So two programs that correspond to each other, the labels of one being those of the other
under a map that keeps them apart, pass the checks together or fail them with faults of one kind, at
corresponding locations. `Symbols.Corresponds` is what the two runs have in common behind every
declaration. Two programs correspond in this way when one is the other with its labels renamed, each
fault being where it was, and when they have the same content, wherever it stands.
-/
namespace FourVin

def Value.rename (f : String → String) : Value → Value
  | label name => label (f name)
  | v => v

def Content.rename (f : String → String) : Content → Content
  | label name => label (f name)
  | instruction mnemonic values => instruction mnemonic (values.map (Value.rename f))

def Content.names (c : Content) : List String := c.declared?.toList ++ c.used

namespace Value

@[simp] theorem type_rename (f : String → String) (v : Value) : (v.rename f).type = v.type := by
  cases v <;> rfl

@[simp] theorem rename_id (v : Value) : v.rename id = v := by
  cases v <;> rfl

end Value

def Operand.rename (f : String → String) (op : Operand) : Operand := ⟨op.value.rename f, op.location⟩

def Instruction.rename (f : String → String) (ins : Instruction) : Instruction :=
  ⟨ins.mnemonic, ins.operands.map (Operand.rename f), ins.location⟩

def Declaration.rename (f : String → String) : Declaration → Declaration
  | label name location => .label (f name) location
  | instruction ins => .instruction (ins.rename f)

/-- The program with its labels renamed, both where they are declared and where they are used. -/
def Program.rename (f : String → String) (p : Program) : Program :=
  ⟨p.declarations.map (Declaration.rename f)⟩

def Program.labelNames (p : Program) : List String := p.contents.flatMap Content.names

theorem Declaration.content_rename (f : String → String) (d : Declaration) :
    (d.rename f).content = d.content.rename f := by
  cases d with
  | label name location => rfl
  | instruction ins =>
    simp [rename, content, Instruction.rename, Instruction.values, Operand.rename, Content.rename]

theorem Program.contents_rename (f : String → String) (p : Program) :
    (p.rename f).contents = p.contents.map (Content.rename f) := by
  simp [rename, contents, Function.comp_def, Declaration.content_rename]

def Operand.Corresponds (f : String → String) (L : Location → Location → Prop)
    (op other : Operand) : Prop :=
  other.value = op.value.rename f ∧ L op.location other.location

/-- The declarations agree but for the names of labels, which are renamed, and for locations, which
are related. -/
inductive Declaration.Corresponds (f : String → String) (L : Location → Location → Prop) :
    Declaration → Declaration → Prop
  | label {name : String} {l m : Location} : L l m →
      Corresponds f L (.label name l) (.label (f name) m)
  | instruction {mnemonic : String} {operands others : List Operand} {l m : Location} :
      List.Forall₂ (Operand.Corresponds f L) operands others → L l m →
      Corresponds f L (.instruction ⟨mnemonic, operands, l⟩) (.instruction ⟨mnemonic, others, m⟩)

/-- A declaration with its labels renamed stands where it stood. -/
theorem Declaration.corresponds_rename (f : String → String) (d : Declaration) :
    Corresponds f Eq d (d.rename f) := by
  cases d with
  | label name location => exact .label rfl
  | instruction ins =>
    refine .instruction ?_ rfl
    rw [List.forall₂_map_right_iff, List.forall₂_same]
    exact fun op _ => ⟨rfl, rfl⟩

/-- Declarations of the same content correspond, whatever their locations. -/
theorem Declaration.corresponds_of_content {d e : Declaration} (h : d.content = e.content) :
    Corresponds id (fun _ _ => True) d e := by
  cases d with
  | label name l =>
    cases e with
    | label other m =>
      cases h
      exact .label trivial
    | instruction ins => cases h
  | instruction ins =>
    cases e with
    | label other m => cases h
    | instruction other =>
      obtain ⟨mnemonic, operands, l⟩ := ins
      obtain ⟨mnemonic', others, m⟩ := other
      obtain ⟨rfl, hvalues⟩ := Content.instruction.inj h
      refine .instruction ?_ trivial
      have hforall : List.Forall₂ Eq (operands.map Operand.value) (others.map Operand.value) :=
        List.forall₂_eq_eq_eq ▸ hvalues
      rw [List.forall₂_map_left_iff, List.forall₂_map_right_iff] at hforall
      refine hforall.imp ?_
      intro op other hvalue
      exact ⟨by rw [hvalue, Value.rename_id], trivial⟩

namespace Instruction

variable {f : String → String} {L : Location → Location → Prop} {operands others : List Operand}

theorem endAlike_checkOperands (contract : Contract) (position : Nat)
    (h : List.Forall₂ (Operand.Corresponds f L) operands others) :
    EndAlike (Diagnostic.Alike L) (fun _ _ => True) (checkOperands contract position operands)
      (checkOperands contract position others) := by
  induction h generalizing position with
  | nil => exact .ok trivial
  | @cons op other _ _ hop _ ih =>
    have htype : other.value.type = op.value.type := by rw [hop.1, Value.type_rename]
    simp only [checkOperands, htype]
    split
    · exact ih (position + 1)
    · exact .error ⟨rfl, hop.2⟩

/-- Whether an instruction keeps to the instruction set does not depend on names. -/
theorem endAlike_check {mnemonic : String} {l m : Location}
    (h : List.Forall₂ (Operand.Corresponds f L) operands others) (hl : L l m) :
    EndAlike (Diagnostic.Alike L) (fun _ _ => True) (check ⟨mnemonic, operands, l⟩)
      (check ⟨mnemonic, others, m⟩) := by
  have hlength : operands.length = others.length := h.length_eq
  unfold check
  cases InstructionSet.lookup mnemonic with
  | none => exact .error ⟨rfl, hl⟩
  | some definition =>
    simp only [hlength]
    split
    · exact endAlike_checkOperands definition.contract 0 h
    · exact .error ⟨rfl, hl⟩

theorem labelUses_corresponds {N : Set String} {mnemonic : String} {l m : Location}
    (h : List.Forall₂ (Operand.Corresponds f L) operands others)
    (hnames : ∀ name ∈ (operands.map Operand.value).filterMap Value.label?, name ∈ N) :
    List.Forall₂ (fun u v => u.1 ∈ N ∧ v.1 = f u.1 ∧ L u.2 v.2)
      (labelUses ⟨mnemonic, operands, l⟩) (labelUses ⟨mnemonic, others, m⟩) := by
  induction h with
  | nil => exact .nil
  | @cons op other _ _ hop _ ih =>
    obtain ⟨v, l⟩ := op
    obtain ⟨w, m⟩ := other
    obtain ⟨rfl, hl⟩ : w = v.rename f ∧ L l m := hop
    cases v with
    | label name =>
      obtain ⟨hname, hrest⟩ := List.forall_mem_cons.mp hnames
      exact .cons ⟨hname, rfl, hl⟩ (ih hrest)
    | _ => exact ih hnames

end Instruction

namespace Symbols

/-- What two runs of the checks have in common. The names that have been met are in `N`, where the
renaming keeps them apart. -/
structure Corresponds (f : String → String) (L : Location → Location → Prop) (N : Set String)
    (s t : Symbols) : Prop where
  names : t.labels.names = s.labels.names.map f
  known : ∀ name ∈ s.labels.names, name ∈ N
  uses : List.Forall₂ (fun u v => u.1 ∈ N ∧ v.1 = f u.1 ∧ L u.2 v.2) s.uses t.uses

variable {f : String → String} {L : Location → Location → Prop} {N : Set String} {s t : Symbols}

theorem Corresponds.contains_iff (h : Corresponds f L N s t) (hf : Set.InjOn f N) {name : String}
    (hname : name ∈ N) : t.labels.contains (f name) = s.labels.contains name := by
  rw [Bool.eq_iff_iff, LabelTable.contains_iff, LabelTable.contains_iff, h.names, List.mem_map]
  constructor
  · rintro ⟨other, hother, heq⟩
    exact hf (h.known other hother) hname heq ▸ hother
  · intro hmem
    exact ⟨name, hmem, rfl⟩

theorem Corresponds.addLabel (h : Corresponds f L N s t) {name : String} (hname : name ∈ N)
    (hs : name ∉ s.labels.names) (ht : f name ∉ t.labels.names) (l m : Location) :
    Corresponds f L N { s with labels := s.labels.insert name l }
      { t with labels := t.labels.insert (f name) m } := by
  refine ⟨?_, ?_, h.uses⟩
  · simp only [LabelTable.names_insert_of_not_mem _ _ _ hs,
      LabelTable.names_insert_of_not_mem _ _ _ ht, h.names, List.map_append, List.map_singleton]
  · simp only [LabelTable.names_insert_of_not_mem _ _ _ hs, List.forall_mem_append,
      List.forall_mem_singleton]
    exact ⟨h.known, hname⟩

/-- One declaration more is added to both or to neither. -/
theorem Corresponds.add (h : Corresponds f L N s t) (hf : Set.InjOn f N) {d e : Declaration}
    (hde : d.Corresponds f L e) (hnames : ∀ name ∈ d.content.names, name ∈ N) :
    EndAlike (Diagnostic.Alike L) (Corresponds f L N) (s.add d) (t.add e) := by
  cases hde with
  | @label name l m hl =>
    have hname : name ∈ N := hnames name (by simp [Content.names, Declaration.content,
      Content.declared?])
    -- Names in `N` are kept apart, so the label is declared in both runs or in neither.
    have hcontains := h.contains_iff hf hname
    unfold LabelTable.contains at hcontains
    unfold Symbols.add
    cases hs : s.labels.find? name with
    | some first =>
      obtain ⟨first', ht⟩ := Option.isSome_iff_exists.mp (hcontains.trans (by rw [hs]; rfl))
      simp only [hs, ht]
      exact .error ⟨rfl, hl⟩
    | none =>
      have ht : t.labels.find? (f name) = none := by simpa [hs] using hcontains
      simp only [hs, ht]
      exact .ok (h.addLabel hname ((LabelTable.find?_eq_none_iff _ _).mp hs)
        ((LabelTable.find?_eq_none_iff _ _).mp ht) l m)
  | instruction hoperands hl =>
    refine (Instruction.endAlike_check hoperands hl).bind fun _ _ _ => .ok ?_
    refine ⟨h.names, h.known,
      List.rel_append h.uses (Instruction.labelUses_corresponds hoperands ?_)⟩
    simpa [Content.names, Declaration.content, Content.declared?, Content.used, Instruction.values]
      using hnames

/-- A label that is used and not declared is found in both or in neither. -/
theorem Corresponds.undeclared? (h : Corresponds f L N s t) (hf : Set.InjOn f N) :
    (s.undeclared? = none ∧ t.undeclared? = none) ∨
      ∃ u v, s.undeclared? = some u ∧ t.undeclared? = some v ∧ L u.2 v.2 := by
  have hcontains : ∀ name ∈ N, t.labels.contains (f name) = s.labels.contains name :=
    fun _ hname => h.contains_iff hf hname
  have huses := h.uses
  unfold Symbols.undeclared?
  generalize s.uses = us, t.uses = vs at huses ⊢
  induction huses with
  | nil => exact .inl ⟨rfl, rfl⟩
  | @cons u v _ _ huv _ ih =>
    obtain ⟨hu, hv, hl⟩ := huv
    rw [List.find?_cons, List.find?_cons, hv, hcontains u.1 hu]
    cases s.labels.contains u.1 with
    | false => exact .inr ⟨u, v, rfl, rfl, hl⟩
    | true => exact ih

/-- Corresponding programs have corresponding symbols, or faults of one kind at corresponding
locations. -/
theorem endAlike_ofProgram (hf : Set.InjOn f N) {p q : Program}
    (h : List.Forall₂ (fun d e => d.Corresponds f L e ∧ ∀ name ∈ d.content.names, name ∈ N)
      p.declarations q.declarations) :
    EndAlike (Diagnostic.Alike L) (Corresponds f L N) (ofProgram p) (ofProgram q) := by
  have hempty : Corresponds f L N empty empty :=
    ⟨rfl, by simp [empty, LabelTable.empty, LabelTable.names], .nil⟩
  have hfold : EndAlike (Diagnostic.Alike L) (Corresponds f L N)
      (p.declarations.foldlM add empty) (q.declarations.foldlM add empty) :=
    EndAlike.foldlM (fun s t d e hst hde => hst.add hf hde.1 hde.2) h hempty
  refine hfold.bind fun s t hst => ?_
  rcases hst.undeclared? hf with ⟨hs, ht⟩ | ⟨u, v, hs, ht, hl⟩
  · simp only [hs, ht]
    exact .ok hst
  · simp only [hs, ht]
    exact .error ⟨rfl, hl⟩

/-- Renaming labels keeps a program in the checks, and its fault where it is. -/
theorem endAlike_ofProgram_rename {p : Program} (hf : Set.InjOn f {name | name ∈ p.labelNames}) :
    EndAlike (Diagnostic.Alike Eq) (fun _ _ => True) (ofProgram p) (ofProgram (p.rename f)) := by
  have hcorresponds : List.Forall₂ (fun d e => d.Corresponds f Eq e ∧
      ∀ name ∈ d.content.names, name ∈ {name | name ∈ p.labelNames})
      p.declarations (p.rename f).declarations := by
    rw [Program.rename, List.forall₂_map_right_iff, List.forall₂_same]
    intro d hd
    refine ⟨d.corresponds_rename f, ?_⟩
    intro name hname
    exact List.mem_flatMap.mpr ⟨d.content, List.mem_map_of_mem hd, hname⟩
  exact (endAlike_ofProgram hf hcorresponds).imp (fun _ _ hfault => hfault) fun _ _ _ => trivial

/-- Whether a program passes the checks, and the kind of its fault, depend on its content alone. -/
theorem endAlike_ofProgram_of_contents {p q : Program} (h : p.contents = q.contents) :
    EndAlike (Diagnostic.Alike fun _ _ => True) (fun _ _ => True) (ofProgram p) (ofProgram q) := by
  have hcontents : List.Forall₂ Eq p.contents q.contents := List.forall₂_eq_eq_eq ▸ h
  rw [Program.contents, Program.contents, List.forall₂_map_left_iff,
    List.forall₂_map_right_iff] at hcontents
  have hcorresponds : List.Forall₂ (fun d e => Declaration.Corresponds id (fun _ _ => True) d e ∧
      ∀ name ∈ d.content.names, name ∈ Set.univ) p.declarations q.declarations :=
    hcontents.imp fun d e hde =>
      ⟨Declaration.corresponds_of_content hde, fun name _ => Set.mem_univ name⟩
  exact (endAlike_ofProgram (Set.injOn_id _) hcorresponds).imp (fun _ _ hfault => hfault)
    fun _ _ _ => trivial

end Symbols

end FourVin
