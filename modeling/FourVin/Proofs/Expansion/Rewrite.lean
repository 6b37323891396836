import FourVin.Proofs.Expansion.Primitives
import Mathlib.Data.List.Forall2

/-!
Expansion as a rewrite of declarations. Each `PUSH v` becomes `SUB %RSP, 1` and `STORE %RSP, v`,
each `POP r` becomes `LOAD r, %RSP` and `ADD %RSP, 1`, and all else is kept where it is. Expansion
goes through text and does the same: what it writes has other locations, but nothing that is kept
changes, so the symbols of a program survive, and a second expansion finds nothing to do.
-/
namespace FourVin

inductive Replacement where
  /-- The declaration itself, with its locations. -/
  | kept (d : Declaration)
  /-- A declaration whose locations are left open. -/
  | written (c : Content)

namespace Replacement

def content : Replacement → Content
  | kept d => d.content
  | written c => c

def Is : Replacement → Declaration → Prop
  | kept d, e => e = d
  | written c, e => e.content = c

def declared? : Replacement → Option (String × Location)
  | kept (.label name location) => some (name, location)
  | _ => none

end Replacement

def Declaration.rewrite (d : Declaration) : List Replacement :=
  match d.content.standsFor? with
  | some contents => contents.map .written
  | none => [.kept d]

namespace Declaration

theorem rewrite_eq_kept {ins : Instruction} (hpush : ins.mnemonic ≠ "PUSH")
    (hpop : ins.mnemonic ≠ "POP") :
    (Declaration.instruction ins).rewrite = [.kept (.instruction ins)] := by
  unfold rewrite
  rcases (Declaration.instruction ins).content.standsFor?_cases with
    ⟨v, hcontent, -⟩ | ⟨v, hcontent, -⟩ | heq
  · exact absurd (Content.instruction.inj hcontent).1 hpush
  · exact absurd (Content.instruction.inj hcontent).1 hpop
  · rw [heq]

/-- A declaration is kept, or two instructions are written in its place. -/
theorem rewrite_cases (d : Declaration) :
    d.rewrite = [.kept d] ∨ ∃ v, d.rewrite = (Content.pushed v).map .written ∨
      d.rewrite = (Content.popped v).map .written := by
  unfold rewrite
  rcases d.content.standsFor?_cases with ⟨v, -, heq⟩ | ⟨v, -, heq⟩ | heq
  · exact .inr ⟨v, .inl (by rw [heq])⟩
  · exact .inr ⟨v, .inr (by rw [heq])⟩
  · exact .inl (by rw [heq])

/-- What is written are instructions, and no others than these four. -/
theorem exists_of_written_mem_rewrite {d : Declaration} {c : Content}
    (h : .written c ∈ d.rewrite) :
    ∃ mnemonic values, c = .instruction mnemonic values ∧
      mnemonic ∈ ["SUB", "STORE", "LOAD", "ADD"] := by
  rcases d.rewrite_cases with heq | ⟨v, heq | heq⟩
  · simp [heq] at h
  · have hc : c ∈ Content.pushed v := by simpa [heq] using h
    rcases Content.mem_pushed.mp hc with rfl | rfl
    · exact ⟨"SUB", _, rfl, by simp⟩
    · exact ⟨"STORE", _, rfl, by simp⟩
  · have hc : c ∈ Content.popped v := by simpa [heq] using h
    rcases Content.mem_popped.mp hc with rfl | rfl
    · exact ⟨"LOAD", _, rfl, by simp⟩
    · exact ⟨"ADD", _, rfl, by simp⟩

theorem content_rewrite (d : Declaration) :
    d.rewrite.map Replacement.content = d.content.primitives := by
  unfold rewrite Content.primitives
  cases d.content.standsFor? with
  | none => rfl
  | some contents =>
    rw [List.map_map]
    exact List.map_id contents

theorem declared?_rewrite (d : Declaration) :
    d.rewrite.filterMap Replacement.declared? = Symbols.declaredIn [d] := by
  cases d with
  | label name location => rfl
  | instruction ins =>
    rcases (Declaration.instruction ins).rewrite_cases with heq | ⟨v, heq | heq⟩
    · rw [heq]
      rfl
    · rw [heq]
      rfl
    · rw [heq]
      rfl

end Declaration

namespace Replacement

theorem content_of_is {r : Replacement} {d : Declaration} (h : r.Is d) : d.content = r.content := by
  cases r with
  | kept e => exact congrArg Declaration.content h
  | written c => exact h

theorem contents_of_forall₂ {rs : List Replacement} {es : List Declaration}
    (h : List.Forall₂ Is rs es) : es.map Declaration.content = rs.map content := by
  induction h with
  | nil => rfl
  | cons hr _ ih => rw [List.map_cons, List.map_cons, content_of_is hr, ih]

theorem declaredIn_of_forall₂ {rs : List Replacement} {es : List Declaration}
    (hwritten : ∀ c, written c ∈ rs → c.declared? = none) (h : List.Forall₂ Is rs es) :
    Symbols.declaredIn es = rs.filterMap declared? := by
  induction h with
  | nil => rfl
  | @cons r e rs es hr _ ih =>
    have hdeclared : Symbols.declaredIn [e] = [r].filterMap declared? := by
      cases r with
      | kept d =>
        obtain rfl : e = d := hr
        cases e <;> rfl
      | written c =>
        cases e with
        | label name location =>
          obtain rfl : Content.label name = c := hr
          cases hwritten (.label name) (by simp)
        | instruction ins => rfl
    rw [Symbols.declaredIn_cons, hdeclared,
      ih fun c hc => hwritten c (List.mem_cons_of_mem r hc), ← List.filterMap_append]
    rfl

theorem exists_of_mem {rs : List Replacement} {es : List Declaration}
    (h : List.Forall₂ Is rs es) {e : Declaration} (he : e ∈ es) : ∃ r ∈ rs, r.Is e := by
  induction h with
  | nil => cases he
  | @cons r _ rs _ hr _ ih =>
    rcases List.mem_cons.mp he with rfl | he
    · exact ⟨r, List.mem_cons_self .., hr⟩
    · obtain ⟨r', hr', his⟩ := ih he
      exact ⟨r', List.mem_cons_of_mem r hr', his⟩

/-- Declarations that are written anew are told by their contents. -/
theorem forall₂_written (es : List Declaration) :
    List.Forall₂ Is ((es.map Declaration.content).map written) es := by
  induction es with
  | nil => exact .nil
  | cons e rest ih => exact .cons rfl ih

end Replacement

namespace Instruction

theorem expand_of_template_eq_none {ins : Instruction} {d : Definition}
    (hlookup : InstructionSet.lookup ins.mnemonic = some d) (hnone : d.template = none) :
    ins.expand = .ok [.instruction ins] := by
  have hsnippet : ins.snippet? = none := by simp [snippet?, hlookup, hnone]
  simp only [expand, hsnippet]

theorem snippet?_of_template {ins : Instruction} {d : Definition} {template : String}
    (hlookup : InstructionSet.lookup ins.mnemonic = some d) (hsome : d.template = some template) :
    ins.snippet? = some (Template.fill template (ins.values.map Value.text)) := by
  have htexts : ins.operands.map Operand.text = ins.values.map Value.text := by
    simp [values, Operand.text, Function.comp_def]
  simp only [snippet?, hlookup, hsome, htexts, Option.bind_some, Option.bind_eq_bind]
  rfl

/-- A snippet that is the written form of what an instruction stands for reads as that. -/
theorem exists_expand_of_snippet {ins : Instruction} {contents : List Content}
    (hspellable : (Declaration.instruction ins).content.Spellable)
    (hstands : (Declaration.instruction ins).content.standsFor? = some contents)
    (hsnippet : ins.snippet? = some (Content.listText contents)) :
    ∃ es, ins.expand = .ok es ∧
      List.Forall₂ Replacement.Is (Declaration.instruction ins).rewrite es := by
  have hprimitives : (Declaration.instruction ins).content.primitives = contents := by
    simp [Content.primitives, hstands]
  have hread : Program.ofSource ins.snippetFile (Content.listText contents) =
      .ok ⟨Content.locateFrom ins.snippetFile .start contents⟩ := by
    rw [← hprimitives]
    exact Program.ofSource_listText ins.snippetFile (Content.primitives_ne_nil _)
      fun c hc => Content.spellable_of_mem_primitives hspellable hc
  refine ⟨Content.locateFrom ins.snippetFile .start contents, ?_, ?_⟩
  · simp only [expand, hsnippet, hread]
  · have hwritten :=
      Replacement.forall₂_written (Content.locateFrom ins.snippetFile .start contents)
    rw [Content.contents_locateFrom] at hwritten
    simpa only [Declaration.rewrite, hstands] using hwritten

/-- A checked instruction expands to its direct rewrite. -/
theorem exists_expand {ins : Instruction}
    (hspellable : (Declaration.instruction ins).content.Spellable)
    (hadmitted : (Declaration.instruction ins).content.Admitted) :
    ∃ es, ins.expand = .ok es ∧
      List.Forall₂ Replacement.Is (Declaration.instruction ins).rewrite es := by
  obtain ⟨mnemonic, operands, location⟩ := ins
  obtain ⟨definition, hlookup, hlength, -⟩ := hadmitted
  have hoperands : definition.arity = 1 → ∃ op, operands = [op] := by
    intro harity
    apply List.length_eq_one_iff.mp
    simpa [values, harity] using hlength
  rcases InstructionSet.template_cases hlookup with
    ⟨hnone, hpush, hpop⟩ | ⟨hsome, rfl, harity⟩ | ⟨hsome, rfl, harity⟩
  · refine ⟨_, expand_of_template_eq_none hlookup hnone, ?_⟩
    rw [Declaration.rewrite_eq_kept hpush hpop]
    exact .cons rfl .nil
  · obtain ⟨op, rfl⟩ := hoperands harity
    apply exists_expand_of_snippet hspellable rfl
    rw [snippet?_of_template hlookup hsome]
    exact congrArg some (Content.fill_push op.value)
  · obtain ⟨op, rfl⟩ := hoperands harity
    apply exists_expand_of_snippet hspellable rfl
    rw [snippet?_of_template hlookup hsome]
    exact congrArg some (Content.fill_pop op.value)

end Instruction

namespace Program

theorem exists_expandFrom {ds : List Declaration}
    (hspellable : ∀ d ∈ ds, d.content.Spellable) (hadmitted : ∀ d ∈ ds, d.content.Admitted) :
    ∃ es, expandFrom ds = .ok es ∧
      List.Forall₂ Replacement.Is (ds.flatMap Declaration.rewrite) es := by
  induction ds with
  | nil => exact ⟨[], rfl, .nil⟩
  | cons d rest ih =>
    obtain ⟨hspellable, hrest⟩ := List.forall_mem_cons.mp hspellable
    obtain ⟨hadmitted, hrest'⟩ := List.forall_mem_cons.mp hadmitted
    obtain ⟨behind, hbehind, his⟩ := ih hrest hrest'
    obtain ⟨front, hfront, his'⟩ : ∃ front, d.expand = .ok front ∧
        List.Forall₂ Replacement.Is d.rewrite front := by
      cases d with
      | label name location => exact ⟨_, rfl, .cons rfl .nil⟩
      | instruction ins => exact Instruction.exists_expand hspellable hadmitted
    refine ⟨front ++ behind, ?_, ?_⟩
    · rw [expandFrom, hfront, ok_bind, hbehind, ok_bind]
      rfl
    · rw [List.flatMap_cons]
      exact List.rel_append his' his

/-- A complete program expands to its direct rewrite. -/
theorem exists_expand_rewrite {p : Program} (h : Content.Complete p.contents) :
    ∃ q, p.expand = .ok q ∧
      List.Forall₂ Replacement.Is (p.declarations.flatMap Declaration.rewrite) q.declarations := by
  obtain ⟨es, hes, his⟩ := exists_expandFrom (List.forall_mem_map.mp h.spellable)
    (List.forall_mem_map.mp h.wellFormed.admitted)
  refine ⟨⟨es⟩, ?_, his⟩
  rw [expand, hes, ok_bind]
  rfl

theorem contents_of_rewrite {p q : Program}
    (h : List.Forall₂ Replacement.Is (p.declarations.flatMap Declaration.rewrite)
      q.declarations) : q.contents = p.contents.flatMap Content.primitives := by
  rw [contents, Replacement.contents_of_forall₂ h, List.map_flatMap, contents, List.flatMap_map]
  simp only [Declaration.content_rewrite]

theorem declaredIn_of_rewrite {p q : Program}
    (h : List.Forall₂ Replacement.Is (p.declarations.flatMap Declaration.rewrite)
      q.declarations) : Symbols.declaredIn q.declarations = Symbols.declaredIn p.declarations := by
  have hwritten : ∀ c, .written c ∈ p.declarations.flatMap Declaration.rewrite →
      c.declared? = none := by
    intro c hc
    obtain ⟨d, -, hmem⟩ := List.mem_flatMap.mp hc
    obtain ⟨mnemonic, values, rfl, -⟩ := Declaration.exists_of_written_mem_rewrite hmem
    rfl
  rw [Replacement.declaredIn_of_forall₂ hwritten h, List.filterMap_flatMap]
  simp only [Declaration.declared?_rewrite]
  unfold Symbols.declaredIn
  rw [← List.filterMap_flatMap, List.flatMap_singleton']

/-- An instruction that expansion does not write is one of the program. -/
theorem mem_instructions_of_rewrite {p q : Program} {ins : Instruction}
    (h : List.Forall₂ Replacement.Is (p.declarations.flatMap Declaration.rewrite) q.declarations)
    (hins : ins ∈ q.instructions) (hkept : ins.mnemonic ∉ ["SUB", "STORE", "LOAD", "ADD"]) :
    ins ∈ p.instructions := by
  obtain ⟨r, hr, his⟩ := Replacement.exists_of_mem h (mem_instructions_iff.mp hins)
  obtain ⟨d, hd, hmem⟩ := List.mem_flatMap.mp hr
  cases r with
  | kept e =>
    obtain rfl : .instruction ins = e := his
    rcases d.rewrite_cases with heq | ⟨v, heq | heq⟩
    · obtain rfl : .instruction ins = d := by simpa [heq] using hmem
      exact mem_instructions_iff.mpr hd
    · simp [heq] at hmem
    · simp [heq] at hmem
  | written c =>
    obtain ⟨mnemonic, values, rfl, hwritten⟩ := Declaration.exists_of_written_mem_rewrite hmem
    rw [(Content.instruction.inj his).1] at hkept
    exact absurd hwritten hkept

theorem contents_expand {p : Program} (h : Content.Complete p.contents) :
    ∃ q, p.expand = .ok q ∧ q.contents = p.contents.flatMap Content.primitives := by
  obtain ⟨q, hexpand, his⟩ := exists_expand_rewrite h
  exact ⟨q, hexpand, contents_of_rewrite his⟩

/-- Expansion through text is the direct rewrite: it replaces `PUSH` and `POP` by instructions with
the very values of their operands, and keeps everything else as it is and where it is. -/
theorem expand_is_rewrite {file source : String} {p : Program} {s : Symbols}
    (hread : Program.ofSource file source = .ok p) (hcheck : Symbols.ofProgram p = .ok s) :
    ∃ q, p.expand = .ok q ∧
      List.Forall₂ Replacement.Is (p.declarations.flatMap Declaration.rewrite) q.declarations :=
  exists_expand_rewrite (complete_of_checked hread hcheck)

/-- A source that pushes a label and a float, pops into a register and has labels on both sides. -/
def stackSource : String :=
  "$top:\n\tPUSH $end\n\tPUSH 2.5\n\tPOP %RC\n\tJMP $top\n$end:\n\tSTOP\n"

def stackExpanded : String :=
  "$top:\nSUB %RSP, 1\nSTORE %RSP, $end\nSUB %RSP, 1\nSTORE %RSP, 2.5\nLOAD %RC, %RSP\n" ++
    "ADD %RSP, 1\nJMP $top\n$end:\nSTOP\n"

theorem exists_expand_stackSource :
    ∃ p s q, ofSource "stack" stackSource = .ok p ∧ Symbols.ofProgram p = .ok s ∧
      p.expand = .ok q ∧ q.text = stackExpanded := by
  have htext : (do
      let p ← ofSource "stack" stackSource
      let _ ← Symbols.ofProgram p
      let q ← p.expand
      return q.text) = Except.ok stackExpanded := by
    decide +kernel
  obtain ⟨p, hread, hrest⟩ := bind_eq_ok_iff.mp htext
  obtain ⟨s, hcheck, hrest⟩ := bind_eq_ok_iff.mp hrest
  obtain ⟨q, hexpand, hend⟩ := bind_eq_ok_iff.mp hrest
  exact ⟨p, s, q, hread, hcheck, hexpand, Except.ok.inj hend⟩

theorem expand_is_rewrite_stackSource :
    ∃ p q, ofSource "stack" stackSource = .ok p ∧ p.expand = .ok q ∧
      List.Forall₂ Replacement.Is (p.declarations.flatMap Declaration.rewrite) q.declarations ∧
      q.text = stackExpanded := by
  obtain ⟨p, s, q, hread, hcheck, hexpand, htext⟩ := exists_expand_stackSource
  obtain ⟨r, hagain, his⟩ := expand_is_rewrite hread hcheck
  obtain rfl : q = r := Except.ok.inj (hexpand.symm.trans hagain)
  exact ⟨p, q, hread, hexpand, his, htext⟩

theorem expandFrom_eq_self {ds : List Declaration}
    (h : ∀ ins, .instruction ins ∈ ds →
      ∃ d, InstructionSet.lookup ins.mnemonic = some d ∧ d.template = none) :
    expandFrom ds = .ok ds := by
  induction ds with
  | nil => rfl
  | cons d rest ih =>
    have hd : d.expand = .ok [d] := by
      cases d with
      | label name location => rfl
      | instruction ins =>
        obtain ⟨definition, hlookup, hnone⟩ := h ins (by simp)
        exact Instruction.expand_of_template_eq_none hlookup hnone
    rw [expandFrom, hd, ok_bind, ih fun ins hins => h ins (List.mem_cons_of_mem d hins), ok_bind]
    rfl

theorem expand_eq_self {q : Program}
    (h : ∀ ins ∈ q.instructions,
      ∃ d, InstructionSet.lookup ins.mnemonic = some d ∧ d.template = none) :
    q.expand = .ok q := by
  rw [expand, expandFrom_eq_self fun ins hins => h ins (mem_instructions_iff.mpr hins), ok_bind]
  rfl

/-- The expanded program keeps to the instruction set. Its labels are declared where they were, its
label operands are the same in the same order, and no template is left in it, so that expanding it
again changes nothing. -/
theorem symbols_expand {file source : String} {p : Program} {s : Symbols}
    (hread : Program.ofSource file source = .ok p) (hcheck : Symbols.ofProgram p = .ok s) :
    ∃ q t, p.expand = .ok q ∧ Symbols.ofProgram q = .ok t ∧ t.labels = s.labels ∧
      t.uses.map Prod.fst = s.uses.map Prod.fst ∧
      (∀ ins ∈ q.instructions,
        ∃ d, InstructionSet.lookup ins.mnemonic = some d ∧ d.template = none) ∧
      q.expand = .ok q := by
  have hcomplete := complete_of_checked hread hcheck
  obtain ⟨q, hexpand, his⟩ := exists_expand_rewrite hcomplete
  have hcontents := contents_of_rewrite his
  have hwell : Content.WellFormed q.contents := hcontents ▸ hcomplete.wellFormed.primitives
  obtain ⟨-, rfl⟩ := Symbols.ofProgram_eq_ok_iff.mp hcheck
  have htemplates : ∀ ins ∈ q.instructions,
      ∃ d, InstructionSet.lookup ins.mnemonic = some d ∧ d.template = none := by
    intro ins hins
    have hmem := mem_contents_of_mem_instructions hins
    rw [hcontents] at hmem
    obtain ⟨c, hc, hprimitive⟩ := List.mem_flatMap.mp hmem
    exact Content.template_of_mem_primitives (hcomplete.wellFormed.admitted c hc) hprimitive
  refine ⟨q, _, hexpand, Symbols.ofProgram_eq_ok_iff.mpr ⟨hwell, rfl⟩, ?_, ?_, htemplates,
    expand_eq_self htemplates⟩
  · rw [Symbols.extend, declaredIn_of_rewrite his]
    rfl
  · rw [Symbols.names_uses_extend, Symbols.names_uses_extend, hcontents,
      Content.used_flatMap_primitives]

theorem symbols_expand_stackSource :
    ∃ p s q t, ofSource "stack" stackSource = .ok p ∧ Symbols.ofProgram p = .ok s ∧
      p.expand = .ok q ∧ q.text = stackExpanded ∧ Symbols.ofProgram q = .ok t ∧
      t.labels = s.labels ∧ t.uses.map Prod.fst = s.uses.map Prod.fst ∧ q.expand = .ok q := by
  obtain ⟨p, s, q, hread, hcheck, hexpand, htext⟩ := exists_expand_stackSource
  obtain ⟨r, t, hagain, hsymbols, hlabels, huses, -, hself⟩ := symbols_expand hread hcheck
  obtain rfl : q = r := Except.ok.inj (hexpand.symm.trans hagain)
  exact ⟨p, s, q, t, hread, hcheck, hexpand, htext, hsymbols, hlabels, huses, hself⟩

end Program

end FourVin
