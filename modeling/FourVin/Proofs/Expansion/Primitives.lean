import FourVin.Expansion
import FourVin.Proofs.Program.WrittenForm
import FourVin.Proofs.Symbols.WellFormed
import Mathlib.Data.List.Basic

/-!
What expansion does to the content of a program. Two instructions stand for others: `PUSH` for a
decrement of the stack pointer and a store, `POP` for a load and an increment. Their templates,
filled with values, are the written forms of these, so that the snippet of a checked instruction
always reads back. Expansion keeps a program spellable and well formed, and what it yields stands
for itself.
-/
namespace FourVin

/-- Only `PUSH` and `POP` stand for others, and both take one operand. -/
theorem InstructionSet.template_cases {mnemonic : String} {d : Definition}
    (h : lookup mnemonic = some d) :
    d.template = none ∧ mnemonic ≠ "PUSH" ∧ mnemonic ≠ "POP" ∨
      d.template = some "SUB %RSP, 1\nSTORE %RSP, %0\n" ∧ mnemonic = "PUSH" ∧ d.arity = 1 ∨
      d.template = some "LOAD %0, %RSP\nADD %RSP, 1\n" ∧ mnemonic = "POP" ∧ d.arity = 1 := by
  have htable : ∀ d ∈ definitions,
      d.template = none ∧ d.mnemonic ≠ "PUSH" ∧ d.mnemonic ≠ "POP" ∨
      d.template = some "SUB %RSP, 1\nSTORE %RSP, %0\n" ∧ d.mnemonic = "PUSH" ∧ d.arity = 1 ∨
      d.template = some "LOAD %0, %RSP\nADD %RSP, 1\n" ∧ d.mnemonic = "POP" ∧ d.arity = 1 := by
    decide
  have hd := htable d (mem_definitions_of_lookup h)
  rwa [lookup_mnemonic h] at hd

namespace Content

def pushed (v : Value) : List Content :=
  [instruction "SUB" [.register .rsp, .integer 1], instruction "STORE" [.register .rsp, v]]

def popped (v : Value) : List Content :=
  [instruction "LOAD" [v, .register .rsp], instruction "ADD" [.register .rsp, .integer 1]]

theorem mem_pushed {c : Content} {v : Value} :
    c ∈ pushed v ↔ c = instruction "SUB" [.register .rsp, .integer 1] ∨
      c = instruction "STORE" [.register .rsp, v] := by
  simp [pushed]

theorem mem_popped {c : Content} {v : Value} :
    c ∈ popped v ↔ c = instruction "LOAD" [v, .register .rsp] ∨
      c = instruction "ADD" [.register .rsp, .integer 1] := by
  simp [popped]

/-- `PUSH` and `POP` stand for two instructions each. -/
def standsFor? : Content → Option (List Content)
  | instruction mnemonic [v] =>
    if mnemonic = "PUSH" then some (pushed v)
    else if mnemonic = "POP" then some (popped v)
    else none
  | _ => none

theorem standsFor?_cases (c : Content) :
    (∃ v, c = instruction "PUSH" [v] ∧ c.standsFor? = some (pushed v)) ∨
      (∃ v, c = instruction "POP" [v] ∧ c.standsFor? = some (popped v)) ∨
      c.standsFor? = none := by
  unfold standsFor?
  split
  · next mnemonic v =>
    by_cases hpush : mnemonic = "PUSH"
    · subst hpush
      exact .inl ⟨v, rfl, rfl⟩
    · by_cases hpop : mnemonic = "POP"
      · subst hpop
        exact .inr (.inl ⟨v, rfl, rfl⟩)
      · simp [hpush, hpop]
  · exact .inr (.inr rfl)

def primitives (c : Content) : List Content := c.standsFor?.getD [c]

theorem primitives_cases (c : Content) :
    (∃ v, c = instruction "PUSH" [v] ∧ c.primitives = pushed v) ∨
      (∃ v, c = instruction "POP" [v] ∧ c.primitives = popped v) ∨ c.primitives = [c] := by
  unfold primitives
  rcases standsFor?_cases c with ⟨v, rfl, heq⟩ | ⟨v, rfl, heq⟩ | heq
  · exact .inl ⟨v, rfl, rfl⟩
  · exact .inr (.inl ⟨v, rfl, rfl⟩)
  · simp [heq]

theorem primitives_ne_nil (c : Content) : c.primitives ≠ [] := by
  rcases primitives_cases c with ⟨v, -, heq⟩ | ⟨v, -, heq⟩ | heq
  · simp [heq, pushed]
  · simp [heq, popped]
  · simp [heq]

theorem toList_text_rsp : (Value.register .rsp).text.toList = ['%', 'R', 'S', 'P'] := rfl

theorem toList_text_one : (Value.integer 1).text.toList = ['1'] := rfl

theorem fill_push (v : Value) :
    Template.fill "SUB %RSP, 1\nSTORE %RSP, %0\n" [v.text] = listText (pushed v) := by
  apply String.toList_inj.mp
  simp [Template.fill, Template.fillFrom, Template.placeholder, Text.replace, Text.replaceFrom,
    listText, pushed, text, valuesText, toList_text_rsp, toList_text_one]

theorem fill_pop (v : Value) :
    Template.fill "LOAD %0, %RSP\nADD %RSP, 1\n" [v.text] = listText (popped v) := by
  apply String.toList_inj.mp
  simp [Template.fill, Template.fillFrom, Template.placeholder, Text.replace, Text.replaceFrom,
    listText, popped, text, valuesText, toList_text_rsp, toList_text_one]

theorem spellable_pair {mnemonic : String} {v w : Value}
    (hmnemonic : InstructionSet.isMnemonic mnemonic = true) (hv : v.Spellable)
    (hw : w.Spellable) : (instruction mnemonic [v, w]).Spellable := by
  refine ⟨hmnemonic, ?_⟩
  intro u hu
  rcases List.mem_cons.mp hu with rfl | hu
  · exact hv
  · exact List.mem_singleton.mp hu ▸ hw

theorem spellable_of_mem_primitives {c d : Content} (hc : c.Spellable) (hd : d ∈ c.primitives) :
    d.Spellable := by
  rcases primitives_cases c with ⟨v, rfl, heq⟩ | ⟨v, rfl, heq⟩ | heq
  · have hv : v.Spellable := hc.2 v (by simp)
    rw [heq] at hd
    rcases mem_pushed.mp hd with rfl | rfl
    · exact spellable_pair rfl trivial trivial
    · exact spellable_pair rfl trivial hv
  · have hv : v.Spellable := hc.2 v (by simp)
    rw [heq] at hd
    rcases mem_popped.mp hd with rfl | rfl
    · exact spellable_pair rfl hv trivial
    · exact spellable_pair rfl trivial trivial
  · rw [heq, List.mem_singleton] at hd
    exact hd ▸ hc

theorem primitives_of_mem_primitives {c d : Content} (hd : d ∈ c.primitives) :
    d.primitives = [d] := by
  rcases primitives_cases c with ⟨v, rfl, heq⟩ | ⟨v, rfl, heq⟩ | heq
  · rw [heq] at hd
    rcases mem_pushed.mp hd with rfl | rfl <;> rfl
  · rw [heq] at hd
    rcases mem_popped.mp hd with rfl | rfl <;> rfl
  · obtain rfl : d = c := by simpa [heq] using hd
    exact heq

/-- What an admitted content stands for has no templates. -/
theorem template_of_mem_primitives {c : Content} {mnemonic : String} {values : List Value}
    (hc : c.Admitted) (h : instruction mnemonic values ∈ c.primitives) :
    ∃ d, InstructionSet.lookup mnemonic = some d ∧ d.template = none := by
  rcases primitives_cases c with ⟨v, rfl, heq⟩ | ⟨v, rfl, heq⟩ | heq
  · rw [heq] at h
    rcases mem_pushed.mp h with heq | heq
    · cases heq
      exact ⟨_, rfl, rfl⟩
    · cases heq
      exact ⟨_, rfl, rfl⟩
  · rw [heq] at h
    rcases mem_popped.mp h with heq | heq
    · cases heq
      exact ⟨_, rfl, rfl⟩
    · cases heq
      exact ⟨_, rfl, rfl⟩
  · rw [heq, List.mem_singleton] at h
    subst h
    obtain ⟨d, hlookup, hlength, -⟩ := hc
    refine ⟨d, hlookup, ?_⟩
    -- A content with a template would stand for two.
    rcases InstructionSet.template_cases hlookup with
      ⟨hnone, -⟩ | ⟨-, rfl, harity⟩ | ⟨-, rfl, harity⟩
    · exact hnone
    · obtain ⟨v, rfl⟩ := List.length_eq_one_iff.mp (hlength.trans harity)
      simp [primitives, standsFor?, pushed] at heq
    · obtain ⟨v, rfl⟩ := List.length_eq_one_iff.mp (hlength.trans harity)
      simp [primitives, standsFor?, popped] at heq

theorem admits_pair {d : Definition} {v w : Value} (harity : d.arity = 2)
    (hv : (d.contract.allowed 0).any (·.accepts v.type) = true)
    (hw : (d.contract.allowed 1).any (·.accepts w.type) = true) : d.Admits [v, w] := by
  refine ⟨harity.symm, ?_⟩
  intro i u hu
  match i with
  | 0 =>
    obtain rfl : v = u := by simpa using hu
    exact hv
  | 1 =>
    obtain rfl : w = u := by simpa using hu
    exact hw
  | i + 2 => simp at hu

theorem admitted_of_mem_primitives {c d : Content} (hc : c.Admitted) (hd : d ∈ c.primitives) :
    d.Admitted := by
  rcases primitives_cases c with ⟨v, rfl, heq⟩ | ⟨v, rfl, heq⟩ | heq
  · rw [heq] at hd
    obtain ⟨definition, hlookup, -, hadmits⟩ := hc
    cases hlookup
    have hv := hadmits 0 v rfl
    rcases mem_pushed.mp hd with rfl | rfl
    · exact ⟨_, rfl, admits_pair rfl rfl rfl⟩
    · exact ⟨_, rfl, admits_pair rfl rfl hv⟩
  · rw [heq] at hd
    obtain ⟨definition, hlookup, -, hadmits⟩ := hc
    cases hlookup
    have hv := hadmits 0 v rfl
    rcases mem_popped.mp hd with rfl | rfl
    · exact ⟨_, rfl, admits_pair rfl hv rfl⟩
    · exact ⟨_, rfl, admits_pair rfl rfl rfl⟩
  · rw [heq, List.mem_singleton] at hd
    exact hd ▸ hc

theorem declared?_primitives (c : Content) :
    c.primitives.filterMap declared? = c.declared?.toList := by
  rcases primitives_cases c with ⟨v, rfl, heq⟩ | ⟨v, rfl, heq⟩ | heq
  · rw [heq]
    rfl
  · rw [heq]
    rfl
  · rw [heq]
    cases c <;> rfl

theorem used_primitives (c : Content) : c.primitives.flatMap used = c.used := by
  rcases primitives_cases c with ⟨v, rfl, heq⟩ | ⟨v, rfl, heq⟩ | heq
  · rw [heq]
    cases v <;> rfl
  · rw [heq]
    cases v <;> rfl
  · simp [heq]

/-- Expansion uses the same labels, in the same order. -/
theorem used_flatMap_primitives (contents : List Content) :
    (contents.flatMap primitives).flatMap used = contents.flatMap used := by
  rw [List.flatMap_assoc]
  simp only [used_primitives]

theorem WellFormed.primitives {contents : List Content} (h : WellFormed contents) :
    WellFormed (contents.flatMap primitives) := by
  have hdeclared : (contents.flatMap Content.primitives).filterMap declared? =
      contents.filterMap declared? := by
    rw [List.filterMap_flatMap, List.filterMap_eq_flatMap_toList]
    simp only [declared?_primitives]
  refine ⟨hdeclared ▸ h.distinct, ?_, hdeclared ▸ used_flatMap_primitives contents ▸ h.resolved⟩
  intro d hd
  obtain ⟨c, hc, hmem⟩ := List.mem_flatMap.mp hd
  exact admitted_of_mem_primitives (h.admitted c hc) hmem

theorem Complete.primitives {contents : List Content} (h : Complete contents) :
    Complete (contents.flatMap primitives) where
  nonempty := by
    obtain ⟨c, rest, rfl⟩ := List.exists_cons_of_ne_nil h.nonempty
    simp [primitives_ne_nil]
  spellable := by
    intro d hd
    obtain ⟨c, hc, hmem⟩ := List.mem_flatMap.mp hd
    exact spellable_of_mem_primitives (h.spellable c hc) hmem
  wellFormed := h.wellFormed.primitives

theorem primitives_flatMap_primitives (contents : List Content) :
    (contents.flatMap primitives).flatMap primitives = contents.flatMap primitives := by
  rw [List.flatMap_assoc]
  congr 1
  funext c
  calc c.primitives.flatMap primitives = c.primitives.flatMap fun d => [d] :=
        List.flatMap_congr fun d hd => primitives_of_mem_primitives hd
    _ = c.primitives := List.flatMap_singleton' _

end Content

end FourVin
