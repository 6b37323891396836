import FourVin.Proofs.Program.Locations
import FourVin.Proofs.Token.FloatLiterals
import FourVin.Proofs.Token.Order

/-!
Float literals as operands. A place in the source is known from its position, and an operand is
located at its first token. So a literal that stands at the location of an operand is the value of
that operand.
-/
namespace FourVin

namespace Grammar

/-- An operand is located at its first token, which gives the value of a float. -/
theorem OperandPhrase.exists_first_token (a : OperandPhrase) :
    ∃ t ∈ a.tokens, t.location = a.operand.location ∧
      ∀ x, t.kind = .float x → a.operand.value = .float x := by
  cases a with
  | register r t => exact ⟨t.1, by simp [tokens], rfl, by simp [t.2]⟩
  | integer n t => exact ⟨t.1, by simp [tokens], rfl, by simp [t.2]⟩
  | hex n t => exact ⟨t.1, by simp [tokens], rfl, by simp [t.2]⟩
  | float x t => exact ⟨t.1, by simp [tokens], rfl, by simp [t.2, operand]⟩
  | label name dollar t => exact ⟨dollar.1, by simp [tokens], rfl, by simp [dollar.2]⟩

theorem OperandList.exists_phrase {l : OperandList} {op : Operand} (h : op ∈ l.operands) :
    ∃ a : OperandPhrase, a.operand = op ∧ ∀ t ∈ a.tokens, t ∈ l.tokens := by
  cases l with
  | empty => cases h
  | nonempty first further =>
    rcases List.mem_cons.mp h with rfl | hfurther
    · exact ⟨first, rfl, fun t ht => List.mem_append_left _ ht⟩
    · obtain ⟨f, hf, rfl⟩ := List.mem_map.mp hfurther
      refine ⟨f.phrase, rfl, fun t ht => List.mem_append_right _ ?_⟩
      exact List.mem_flatMap.mpr ⟨f, hf, List.mem_cons_of_mem _ ht⟩

/-- Every operand of a sentence is that of a phrase in it. -/
theorem Sentence.exists_phrase {x : Sentence} {ins : Instruction} {op : Operand}
    (hins : ins ∈ x.program.instructions) (hop : op ∈ ins.operands) :
    ∃ a : OperandPhrase, a.operand = op ∧ ∀ t ∈ a.tokens, t ∈ x.tokens := by
  obtain ⟨line, hline, hdeclaration⟩ := List.mem_map.mp (Program.mem_instructions_iff.mp hins)
  cases line with
  | label name dollar t colon lineEnd => cases hdeclaration
  | instruction mnemonic t operands lineEnd =>
    cases hdeclaration
    obtain ⟨a, ha, htokens⟩ := operands.exists_phrase hop
    refine ⟨a, ha, fun u hu => List.mem_append_right _ (List.mem_flatMap.mpr ⟨_, hline, ?_⟩)⟩
    exact List.mem_cons_of_mem _ (List.mem_append_left _ (htokens u hu))

end Grammar

namespace FloatLiteral

variable {l : FloatLiteral} {file source : String}

/-- The literal stands at the location in the source, and what follows does not go on with it. -/
def StandsAt (l : FloatLiteral) (file source : String) (location : Location) : Prop :=
  ∃ front rest, source.toList = front ++ (l.text ++ rest) ∧ Stops rest ∧
    location = ⟨file, .behind (String.ofList front)⟩

theorem kind_of_cutFrom {t : Token} {front rest : List Char} (hrest : Stops rest)
    (h : t.CutFrom file front (l.text ++ rest)) : t.kind = .float l.double := by
  cases h with
  | cut hfirst hkind =>
    rw [Rule.first?_float rest l.describes_text] at hfirst
    cases hfirst
    rw [l.lexeme_text hrest, kind_text] at hkind
    split at hkind
    · cases hkind
    · cases hkind
      rfl

/-- The token where a literal stands is that of the literal. -/
theorem kind_of_standsAt {tokens : List Token} (h : Token.ofSource file source = .ok tokens)
    {t : Token} (ht : t ∈ tokens) (hstands : l.StandsAt file source t.location) :
    t.kind = .float l.double := by
  obtain ⟨front, rest, hsource, hrest, hlocation⟩ := hstands
  obtain ⟨other, input, hother, hcut⟩ := Token.cut_of_ofSource h t ht
  have hposition : t.location = ⟨file, .behind (String.ofList other)⟩ := by
    cases hcut with
    | cut _ _ => rw [Position.advance_start]
  obtain rfl : front = other := by
    apply Position.eq_of_behind_eq ⟨_, hsource.symm⟩ ⟨_, hother.symm⟩
    rw [hlocation] at hposition
    exact congrArg Location.position hposition
  obtain rfl : l.text ++ rest = input := List.append_cancel_left (hsource.symm.trans hother)
  exact kind_of_cutFrom hrest hcut

theorem value_of_standsAt {p : Program} (h : Program.ofSource file source = .ok p)
    {ins : Instruction} {op : Operand} (hins : ins ∈ p.instructions) (hop : op ∈ ins.operands)
    (hstands : l.StandsAt file source op.location) : op.value = .float l.double := by
  obtain ⟨tokens, htokens, hread⟩ := bind_eq_ok_iff.mp h
  obtain ⟨x, rfl, rfl⟩ := Program.exists_sentence_of_ofTokens hread
  obtain ⟨a, rfl, hphrase⟩ := Grammar.Sentence.exists_phrase hins hop
  obtain ⟨t, ht, hlocation, hvalue⟩ := a.exists_first_token
  rw [← hlocation] at hstands
  exact hvalue _ (kind_of_standsAt htokens (hphrase t ht) hstands)

end FloatLiteral

end FourVin
