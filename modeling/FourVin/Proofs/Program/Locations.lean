import FourVin.Proofs.Program.ViablePrefix
import FourVin.Proofs.Symbols.Verdict
import FourVin.Proofs.Token.Faults
import Mathlib.Data.List.Flatten

/-!
Where programs and faults stand in a source. The locations in a program are those of some of its
tokens, in the order of the tokens, and each token stands at a place of the source. A fault of
scanning is at a place of its own, a fault of reading at a token or at the beginning, and a fault of
checking at one of the locations in the program. So every fault lies in the source.
-/
namespace FourVin

def Declaration.locations : Declaration → List Location
  | label _ location => [location]
  | instruction ins => ins.location :: ins.operands.map Operand.location

/-- The locations of the declarations and operands, in the order in which these are written. -/
def Program.locations (p : Program) : List Location := p.declarations.flatMap Declaration.locations

def Location.In (file source : String) (l : Location) : Prop :=
  ∃ front back, source.toList = front ++ back ∧ l = ⟨file, .behind (String.ofList front)⟩

namespace Grammar

theorem OperandPhrase.locations_sublist (a : OperandPhrase) :
    [a.operand.location].Sublist (a.tokens.map Token.location) := by
  cases a with
  | label name dollar t => exact (List.nil_sublist [t.1.location]).cons_cons dollar.1.location
  | _ => exact List.Sublist.refl _

theorem FurtherOperand.locations_sublist (f : FurtherOperand) :
    [f.operand.location].Sublist (f.tokens.map Token.location) :=
  f.phrase.locations_sublist.cons f.comma.1.location

theorem OperandList.locations_sublist (l : OperandList) :
    (l.operands.map Operand.location).Sublist (l.tokens.map Token.location) := by
  cases l with
  | empty => exact List.Sublist.refl _
  | nonempty first further =>
    have hfurther : ((further.map FurtherOperand.operand).map Operand.location).Sublist
        ((further.flatMap FurtherOperand.tokens).map Token.location) := by
      rw [List.map_map, List.map_eq_flatMap, List.map_flatMap]
      exact .flatMap_right further fun f _ => f.locations_sublist
    rw [operands, tokens, List.map_append]
    exact first.locations_sublist.append hfurther

theorem Line.locations_sublist (l : Line) :
    l.declaration.locations.Sublist (l.tokens.map Token.location) := by
  cases l with
  | instruction mnemonic t operands lineEnd =>
    rw [tokens, List.map_cons, List.map_append]
    exact (operands.locations_sublist.trans (List.sublist_append_left _ _)).cons_cons _
  | label name dollar t colon lineEnd => exact (List.nil_sublist _).cons_cons _

/-- The locations in the program of a sentence are those of some of its tokens, in order. -/
theorem Sentence.locations_sublist (x : Sentence) :
    x.program.locations.Sublist (x.tokens.map Token.location) := by
  have hlines : x.program.locations.Sublist
      (((x.first :: x.further).flatMap Line.tokens).map Token.location) := by
    rw [Program.locations, program, List.flatMap_map, List.map_flatMap]
    exact .flatMap_right _ fun l _ => l.locations_sublist
  rw [tokens, List.map_append]
  exact hlines.trans (List.sublist_append_right _ _)

end Grammar

theorem Instruction.Fault.location_mem {ins : Instruction} {e : Diagnostic} (h : ins.Fault e) :
    e.location ∈ (Declaration.instruction ins).locations := by
  cases h with
  | mnemonic _ => exact List.mem_cons_self ..
  | count _ _ => exact List.mem_cons_self ..
  | operand _ _ hfirst =>
    obtain ⟨after, hsplit⟩ := hfirst.split
    rw [Declaration.locations, hsplit]
    simp

theorem Declaration.Fault.location_mem {before : List Declaration} {d : Declaration}
    {e : Diagnostic} (h : d.Fault before e) : e.location ∈ d.locations := by
  cases h with
  | duplicate _ => exact List.mem_singleton_self _
  | instruction hfault => exact hfault.location_mem

theorem Program.location_mem_of_labelOperands {p : Program} {u : String × Location}
    (h : u ∈ p.labelOperands) : u.2 ∈ p.locations := by
  obtain ⟨op, hop, hu⟩ := List.mem_filterMap.mp h
  obtain ⟨ins, hins, hmem⟩ := List.mem_flatMap.mp hop
  obtain ⟨name, -, rfl⟩ := Option.map_eq_some_iff.mp hu
  refine List.mem_flatMap.mpr ⟨.instruction ins, Program.mem_instructions_iff.mp hins, ?_⟩
  exact List.mem_cons_of_mem _ (List.mem_map_of_mem hmem)

/-- How the checks can fail: at a faulty declaration, or at an operand with a label that is
declared nowhere. -/
theorem Symbols.fault_of_ofProgram {p : Program} {e : Diagnostic} (h : ofProgram p = .error e) :
    (∃ before d after, p.declarations = before ++ d :: after ∧ d.Fault before e) ∨
      ∃ name location, (name, location) ∈ p.labelOperands ∧
        e = ⟨location, .undeclaredLabel name⟩ := by
  rcases bind_eq_error_iff.mp h with hfold | ⟨s, hfold, hend⟩
  · obtain ⟨before, d, hfirst, hfault⟩ := foldlM_add_eq_error_iff.mp hfold
    obtain ⟨after, hsplit⟩ := hfirst.split
    exact .inl ⟨before, d, after, hsplit, hfault⟩
  · obtain ⟨-, -, rfl⟩ := (foldlM_add_eq_ok_iff (s := empty) List.nodup_nil).mp hfold
    split at hend
    · next name location hundeclared =>
      cases hend
      obtain ⟨before, hfirst⟩ := undeclared?_extend_eq_some_iff.mp hundeclared
      obtain ⟨after, hsplit⟩ := hfirst.split
      exact .inr ⟨name, location, by rw [hsplit]; simp, rfl⟩
    · cases hend

theorem Symbols.location_mem_of_ofProgram {p : Program} {e : Diagnostic}
    (h : ofProgram p = .error e) : e.location ∈ p.locations := by
  rcases fault_of_ofProgram h with ⟨before, d, after, hsplit, hfault⟩ | ⟨name, location, hmem, rfl⟩
  · refine List.mem_flatMap.mpr ⟨d, ?_, hfault.location_mem⟩
    rw [hsplit]
    simp
  · exact Program.location_mem_of_labelOperands hmem

namespace Program

variable {file source : String}

theorem location_in_of_token {tokens : List Token} (h : Token.ofSource file source = .ok tokens) :
    ∀ t ∈ tokens, t.location.In file source := by
  intro t ht
  obtain ⟨front, input, hsource, hcut⟩ := Token.cut_of_ofSource h t ht
  cases hcut with
  | cut _ _ => exact ⟨front, input, hsource, by rw [Position.advance_start]⟩

/-- Every location in a program that has been read is that of a place in the source. -/
theorem locations_in {p : Program} (h : ofSource file source = .ok p) :
    ∀ l ∈ p.locations, l.In file source := by
  intro l hl
  obtain ⟨tokens, htokens, hread⟩ := bind_eq_ok_iff.mp h
  obtain ⟨x, rfl, rfl⟩ := exists_sentence_of_ofTokens hread
  obtain ⟨t, ht, rfl⟩ := List.mem_map.mp (x.locations_sublist.subset hl)
  exact location_in_of_token htokens t ht

theorem endLocation_in {tokens : List Token} (h : Token.ofSource file source = .ok tokens) :
    (endLocation file tokens).In file source := by
  unfold endLocation
  split
  · next t ht => exact location_in_of_token h t (List.mem_of_getLast? ht)
  · exact ⟨[], source.toList, rfl, rfl⟩

/-- How reading can fail: at a fault of the scan, at a token that cannot follow, or at the end. -/
theorem fault_of_ofSource {d : Diagnostic} (h : ofSource file source = .error d) :
    Token.ofSource file source = .error d ∨
      ∃ tokens, Token.ofSource file source = .ok tokens ∧
        ((∃ t ∈ tokens, d = ⟨t.location, .unexpectedToken t.shown⟩) ∨
          d = ⟨endLocation file tokens, .unexpectedEnd⟩) := by
  rcases bind_eq_error_iff.mp h with hscan | ⟨tokens, htokens, hread⟩
  · exact .inl hscan
  · refine .inr ⟨tokens, htokens, ?_⟩
    rw [ofTokens, bind_pure_eq_error_iff, declarationsFrom_eq_error_iff] at hread
    rcases hread with ⟨t, ⟨before, after, s, rfl, -, -⟩, rfl⟩ | ⟨s, -, -, rfl⟩
    · exact .inl ⟨t, by simp, rfl⟩
    · exact .inr rfl

theorem location_in_of_ofSource {d : Diagnostic} (h : ofSource file source = .error d) :
    d.location.In file source := by
  rcases fault_of_ofSource h with hscan | ⟨tokens, htokens, ⟨t, ht, rfl⟩ | rfl⟩
  · obtain ⟨front, input, hsource, hlocation, -⟩ := Token.fault_of_ofSource hscan
    exact ⟨front, input, hsource, hlocation⟩
  · exact location_in_of_token htokens t ht
  · exact endLocation_in htokens

end Program

end FourVin
