import FourVin.Assembler
import FourVin.Proofs.Expansion.Rewrite
import FourVin.Proofs.Image.Disassembly
import FourVin.Proofs.Image.Patching

/-!
Programs that pass the checks always assemble. What has been read and checked is complete: it can be
spelled, and its content is well formed. Expansion keeps this, and a complete program has an image,
so the faults of an assembler are those of reading and checking.
-/
namespace FourVin

namespace Content

/-- The labels that contents use are among those of their image. -/
theorem WellFormed.contains_labels {contents : List Content} (h : WellFormed contents)
    (layout : Layout) {mnemonic : String} {values : List Value} {name : String}
    (hc : instruction mnemonic values ∈ contents) (hname : .label name ∈ values) :
    (labels layout contents).contains name = true := by
  have hused : name ∈ contents.flatMap used :=
    List.mem_flatMap.mpr ⟨_, hc, List.mem_filterMap.mpr ⟨_, hname, rfl⟩⟩
  rw [contains_labels_iff]
  exact mem_declared_iff.mp (h.resolved name hused)

theorem WellFormed.resolved_labels {contents : List Content} (h : WellFormed contents)
    (layout : Layout) : Resolved layout (labels layout contents) contents := by
  intro name hname
  obtain ⟨c, hc, hlabel⟩ := List.mem_filterMap.mp hname
  obtain ⟨mnemonic, values, rfl, hlast⟩ := label?_code_eq_some hlabel
  have hmem := List.mem_of_getLast? hlast
  exact h.contains_labels layout hc (List.mem_filter.mp hmem).1

end Content

theorem Image.ofProgram_of_wellFormed {p : Program} (h : Content.WellFormed p.contents)
    (layout : Layout) : Image.ofProgram layout p = .ok (Content.image layout p.contents) :=
  Image.ofProgram_eq_ok_iff.mpr
    ⟨fun c hc => (h.admitted c hc).encodable, h.resolved_labels layout, rfl⟩

namespace Assembler

/-- What has been read and checked is expanded and encoded without a fault. -/
theorem assemble_of_checked (a : Assembler) {source : String} {p : Program} {s : Symbols}
    (hread : Program.ofSource a.file source = .ok p) (hcheck : Symbols.ofProgram p = .ok s) :
    ∃ q, a.expand source = .ok q ∧ q.contents = p.contents.flatMap Content.primitives ∧
      Content.Complete q.contents ∧
      a.assemble source = .ok (Content.image a.layout q.contents) := by
  have hcomplete := Program.complete_of_checked hread hcheck
  obtain ⟨q, hexpand, hcontents⟩ := Program.contents_expand hcomplete
  have hq : Content.Complete q.contents := hcontents ▸ hcomplete.primitives
  have hstage : a.expand source = .ok q := by
    rw [expand, hread, ok_bind, hcheck, ok_bind, hexpand]
  refine ⟨q, hstage, hcontents, hq, ?_⟩
  rw [assemble, hstage, ok_bind, Image.ofProgram_of_wellFormed hq.wellFormed]

theorem checked_of_assemble {a : Assembler} {source : String} {image : Image}
    (h : a.assemble source = .ok image) :
    ∃ p s, Program.ofSource a.file source = .ok p ∧ Symbols.ofProgram p = .ok s := by
  obtain ⟨q, hexpand, -⟩ := bind_eq_ok_iff.mp h
  obtain ⟨p, hread, hrest⟩ := bind_eq_ok_iff.mp hexpand
  obtain ⟨s, hcheck, -⟩ := bind_eq_ok_iff.mp hrest
  exact ⟨p, s, hread, hcheck⟩

/-- An image is that of the expanded program, in which nothing is left to expand. -/
theorem exists_expand_of_assemble {a : Assembler} {source : String} {image : Image}
    (h : a.assemble source = .ok image) :
    ∃ q, a.expand source = .ok q ∧ q.contents.flatMap Content.primitives = q.contents ∧
      Content.Complete q.contents ∧ image = Content.image a.layout q.contents := by
  obtain ⟨p, s, hread, hcheck⟩ := checked_of_assemble h
  obtain ⟨q, hexpand, hcontents, hcomplete, hassemble⟩ := a.assemble_of_checked hread hcheck
  refine ⟨q, hexpand, ?_, hcomplete, ?_⟩
  · rw [hcontents, Content.primitives_flatMap_primitives]
  · rw [hassemble] at h
    cases h
    rfl

theorem assemble_eq_error_of_read {a : Assembler} {source : String} {d : Diagnostic}
    (h : Program.ofSource a.file source = .error d) : a.assemble source = .error d := by
  rw [assemble, expand, h, error_bind, error_bind]

theorem assemble_eq_error_of_check {a : Assembler} {source : String} {p : Program}
    {d : Diagnostic} (hread : Program.ofSource a.file source = .ok p)
    (hcheck : Symbols.ofProgram p = .error d) : a.assemble source = .error d := by
  rw [assemble, expand, hread, ok_bind, hcheck, error_bind, error_bind]

/-- A fault of assembling is one of reading or of checking. -/
theorem fault_of_assemble {a : Assembler} {source : String} {d : Diagnostic}
    (h : a.assemble source = .error d) :
    Program.ofSource a.file source = .error d ∨
      ∃ p, Program.ofSource a.file source = .ok p ∧ Symbols.ofProgram p = .error d := by
  cases hread : Program.ofSource a.file source with
  | error e =>
    rw [assemble_eq_error_of_read hread] at h
    cases h
    exact .inl rfl
  | ok p =>
    cases hcheck : Symbols.ofProgram p with
    | error e =>
      rw [assemble_eq_error_of_check hread hcheck] at h
      cases h
      exact .inr ⟨p, rfl, hcheck⟩
    | ok s =>
      obtain ⟨q, -, -, -, hassemble⟩ := a.assemble_of_checked hread hcheck
      rw [hassemble] at h
      cases h

/-- Assembling succeeds exactly when reading and checking do, and its faults are theirs: they lie in
the file and are none of the later stages. -/
theorem assemble_fails_only_checks (a : Assembler) (source : String) :
    ((∃ image, a.assemble source = .ok image) ↔
        ∃ p s, Program.ofSource a.file source = .ok p ∧ Symbols.ofProgram p = .ok s) ∧
      ∀ d, a.assemble source = .error d ↔
        (Program.ofSource a.file source = .error d ∨
          ∃ p, Program.ofSource a.file source = .ok p ∧ Symbols.ofProgram p = .error d) ∧
        d.Reportable a.file := by
  refine ⟨⟨?_, ?_⟩, ?_⟩
  · intro h
    obtain ⟨image, himage⟩ := h
    exact checked_of_assemble himage
  · intro h
    obtain ⟨p, s, hread, hcheck⟩ := h
    obtain ⟨q, -, -, -, hassemble⟩ := a.assemble_of_checked hread hcheck
    exact ⟨_, hassemble⟩
  · intro d
    constructor
    · intro h
      have hfault := fault_of_assemble h
      refine ⟨hfault, ?_⟩
      rcases hfault with hread | ⟨p, hread, hcheck⟩
      · exact Program.reportable_ofSource hread
      · exact Symbols.reportable_ofProgram (Program.sound_ofSource hread).2 hcheck
    · intro h
      rcases h.1 with hread | ⟨p, hread, hcheck⟩
      · exact assemble_eq_error_of_read hread
      · exact assemble_eq_error_of_check hread hcheck

end Assembler

end FourVin
