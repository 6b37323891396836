import FourVin.Proofs.Binary.Narrowing
import FourVin.Proofs.Program.Locations
import FourVin.Proofs.Token.Order

/-!
What a program that has been read guarantees to the stages behind: its mnemonics and labels are of
the right form, its floats fit in single precision, and its locations are in the file, in order.
None of those stages checks any of this.
-/
namespace FourVin

/-- What later stages rely on in a program that has been read from the file. -/
structure Program.Guarantees (file : String) (p : Program) : Prop where
  nonempty : p.declarations ≠ []
  mnemonic : ∀ ins ∈ p.instructions, InstructionSet.isMnemonic ins.mnemonic = true
  declared : ∀ name location, .label name location ∈ p.declarations → IsName name
  used : ∀ ins ∈ p.instructions, ∀ op ∈ ins.operands, ∀ name, op.value = .label name → IsName name
  float : ∀ ins ∈ p.instructions, ∀ op ∈ ins.operands, ∀ x, op.value = .float x →
    x.isFinite = true ∧ x.negative = false ∧ (Single.mk x.toSingle).isFinite = true
  located : ∀ l ∈ p.locations, l.file = file
  ordered : p.locations.Pairwise fun a b => a.position.Before b.position

theorem Declaration.Sound.file_locations {file : String} {d : Declaration} (h : d.Sound file) :
    ∀ l ∈ d.locations, l.file = file := by
  intro l hl
  cases d with
  | label name location =>
    rw [List.mem_singleton.mp hl]
    exact h.2
  | instruction ins =>
    rcases List.mem_cons.mp hl with rfl | hl
    · exact h.location
    · obtain ⟨op, hop, rfl⟩ := List.mem_map.mp hl
      exact (h.operands op hop).2

namespace Program

variable {file source : String} {p : Program}

/-- The locations in a program stand behind one another in the source. -/
theorem locations_ordered (h : ofSource file source = .ok p) :
    p.locations.Pairwise fun a b => a.position.Before b.position := by
  obtain ⟨tokens, htokens, hread⟩ := bind_eq_ok_iff.mp h
  obtain ⟨x, rfl, rfl⟩ := exists_sentence_of_ofTokens hread
  exact (Token.pairwise_before htokens).sublist x.locations_sublist

/-- Reading gives a program with all the guarantees. -/
theorem ofSource_guarantees (h : ofSource file source = .ok p) : p.Guarantees file := by
  obtain ⟨hne, hsound⟩ := sound_ofSource h
  have hinstruction : ∀ ins ∈ p.instructions, ins.Sound file :=
    fun ins hins => hsound _ (mem_instructions_iff.mp hins)
  exact {
    nonempty := hne
    mnemonic := fun ins hins => (hinstruction ins hins).mnemonic
    declared := fun name location hmem => (hsound _ hmem).1
    used := by
      intro ins hins op hop name hname
      have hvalue := ((hinstruction ins hins).operands op hop).1
      rwa [hname] at hvalue
    float := by
      intro ins hins op hop x hx
      have hvalue := ((hinstruction ins hins).operands op hop).1
      rw [hx] at hvalue
      exact ⟨hvalue.finite, hvalue.nonnegative, Double.Denotable.isFinite_toSingle hvalue⟩
    located := by
      intro l hl
      obtain ⟨d, hd, hmem⟩ := List.mem_flatMap.mp hl
      exact (hsound d hd).file_locations l hmem
    ordered := locations_ordered h }

def loopSource : String := "$top:\n\tMOV %RA, 2.5 // half of five\n\tJMP $top\n"

theorem ofSource_guarantees_loopSource :
    ∃ p, ofSource "loop" loopSource = .ok p ∧ p.Guarantees "loop" ∧
      p.locations.map Location.position = [⟨1, 1⟩, ⟨2, 2⟩, ⟨2, 6⟩, ⟨2, 11⟩, ⟨3, 2⟩, ⟨3, 6⟩] := by
  have hread : (do
      let p ← ofSource "loop" loopSource
      return p.locations.map Location.position) =
        Except.ok [⟨1, 1⟩, ⟨2, 2⟩, ⟨2, 6⟩, ⟨2, 11⟩, ⟨3, 2⟩, ⟨3, 6⟩] := by
    decide +kernel
  obtain ⟨p, hp, hend⟩ := bind_eq_ok_iff.mp hread
  exact ⟨p, hp, ofSource_guarantees hp, Except.ok.inj hend⟩

end Program

end FourVin
