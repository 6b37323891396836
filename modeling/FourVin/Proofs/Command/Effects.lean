import FourVin.Command.Run
import FourVin.Proofs.Command.Names
import FourVin.Proofs.Outcome

/-!
What a run of the command leaves behind, when its input and output are files of the working
directory. `Runs` lists the ways a run can go, each with the exit status and the directory
afterwards. All else is read off from them: only a run that succeeds writes, and it writes one file.
Which arguments ask for such a run, and with which settings, `Spells` tells.
-/
namespace FourVin

namespace Path

/-- A file of that name can be written. A directory holds files only, and none of them refuses to be
written, so this depends on the name alone. -/
def Writable (path : String) : Prop := IsName path ∧ path.utf8ByteSize ≤ maxNameSize

instance : DecidablePred Writable := fun path =>
  inferInstanceAs (Decidable (IsName path ∧ path.utf8ByteSize ≤ maxNameSize))

end Path

namespace Command

namespace Arguments

/-- The file is the one that the operator named, or else the one that is named like the input but
for its extension. -/
def IsOutput (a : Arguments) (name : String) : Prop :=
  match a.output with
  | some file => name = file
  | none => Path.ExtensionReplaced outputExtension a.input name

variable {a : Arguments}

theorem isOutput_outputPath (hinput : Path.IsName a.input) :
    a.outputPath = ".." ∨ a.IsOutput a.outputPath := by
  cases houtput : a.output with
  | some file =>
    right
    simp [IsOutput, outputPath, houtput]
  | none =>
    simp only [IsOutput, outputPath, houtput, Option.getD_none]
    exact Path.withExtension_of_isName outputExtension hinput

theorem isName_outputPath (hinput : Path.IsName a.input)
    (houtput : ∀ file ∈ a.output, Path.IsName file) :
    a.outputPath = ".." ∨ Path.IsName a.outputPath := by
  refine (isOutput_outputPath hinput).imp_right fun h => ?_
  unfold IsOutput at h
  split at h
  · next file hfile =>
    rw [h]
    exact houtput file hfile
  · exact h.isName hinput (by decide)

theorem writeText_outputPath (d : Directory) (hinput : Path.IsName a.input)
    (houtput : ∀ file ∈ a.output, Path.IsName file) (text : String) :
    (Path.Writable a.outputPath ∧
      d.writeText a.outputPath text = .ok (d.insert a.outputPath text.toUTF8)) ∨
    ¬ Path.Writable a.outputPath ∧ ∃ fault, d.writeText a.outputPath text = .error fault := by
  obtain hparent | hname := isName_outputPath hinput houtput
  · rw [hparent]
    exact .inr ⟨by decide, _, d.writeText_parent text⟩
  · rw [d.writeText_of_isName hname]
    split
    · next hsize => exact .inr ⟨fun h => absurd h.2 (Nat.not_le.mpr hsize), _, rfl⟩
    · next hsize => exact .inl ⟨⟨hname, Nat.not_lt.mp hsize⟩, rfl⟩

end Arguments

inductive Runs (d : Directory) (a : Arguments) : Directory → UInt32 → Prop
  | unread : (∀ source, ¬ d.HoldsText a.input source) → Runs d a d 1
  | expanded {source : String} {p : Program} : d.HoldsText a.input source →
      a.expandOnly = true → a.assembler.expand source = .ok p → Runs d a d 0
  | notExpanded {source : String} {fault : Diagnostic} : d.HoldsText a.input source →
      a.expandOnly = true → a.assembler.expand source = .error fault → Runs d a d 1
  | notAssembled {source : String} {fault : Diagnostic} : d.HoldsText a.input source →
      a.expandOnly = false → a.assembler.assemble source = .error fault → Runs d a d 1
  | notWritten {source : String} {image : Image} : d.HoldsText a.input source →
      a.expandOnly = false → a.assembler.assemble source = .ok image →
      ¬ Path.Writable a.outputPath → Runs d a d 1
  | written {source : String} {image : Image} : d.HoldsText a.input source →
      a.expandOnly = false → a.assembler.assemble source = .ok image →
      Path.Writable a.outputPath →
      Runs d a (d.insert a.outputPath (image.hex ++ "\n").toUTF8) 0

variable {d d' : Directory} {a : Arguments} {exit : UInt32}

/-- A run goes one of these ways. -/
theorem runs_runWith (hd : d.WellNamed) (hinput : Path.IsName a.input)
    (houtput : ∀ file ∈ a.output, Path.IsName file) :
    ∃ result, (runWith d a).result = some result ∧
      Runs d a (runWith d a).directory result.exit := by
  unfold runWith
  cases hread : d.readText a.input with
  | error fault =>
    refine ⟨_, rfl, .unread fun source hsource => ?_⟩
    rw [(Directory.readText_eq_ok_iff hd hinput).mpr hsource] at hread
    cases hread
  | ok source =>
    have hsource := (Directory.readText_eq_ok_iff hd hinput).mp hread
    simp only [plan, planFor]
    cases hexpand : a.expandOnly with
    | true =>
      cases hprogram : a.assembler.expand source with
      | ok p => exact ⟨_, rfl, .expanded hsource hexpand hprogram⟩
      | error fault => exact ⟨_, rfl, .notExpanded hsource hexpand hprogram⟩
    | false =>
      cases himage : a.assembler.assemble source with
      | error fault => exact ⟨_, rfl, .notAssembled hsource hexpand himage⟩
      | ok image =>
        obtain ⟨hwritable, hwrite⟩ | ⟨hwritable, fault, hwrite⟩ :=
          Arguments.writeText_outputPath d hinput houtput (image.hex ++ "\n")
        · simp only [Bool.false_eq_true, if_false, hwrite]
          exact ⟨_, rfl, .written hsource hexpand himage hwritable⟩
        · simp only [Bool.false_eq_true, if_false, hwrite]
          exact ⟨_, rfl, .notWritten hsource hexpand himage hwritable⟩

namespace Runs

/-- A run succeeds when its input can be read and expanded, or read and assembled into a file that
can be written. -/
theorem exit_eq_zero_iff (h : Runs d a d' exit) :
    exit = 0 ↔ ∃ source, d.HoldsText a.input source ∧
      if a.expandOnly then ∃ p, a.assembler.expand source = .ok p
      else (∃ image, a.assembler.assemble source = .ok image) ∧ Path.Writable a.outputPath := by
  constructor
  · intro hzero
    cases h with
    | expanded hsource hexpand hprogram =>
      exact ⟨_, hsource, by simpa [hexpand] using ⟨_, hprogram⟩⟩
    | written hsource hexpand himage hwritable =>
      exact ⟨_, hsource, by simpa [hexpand] using ⟨⟨_, himage⟩, hwritable⟩⟩
    | _ => cases hzero
  · rintro ⟨source, hsource, hsuccess⟩
    cases h with
    | expanded => rfl
    | written => rfl
    | unread hnone => exact absurd hsource (hnone source)
    | notExpanded hsource' hexpand hprogram =>
      rw [hsource.eq hsource'] at hsuccess
      simp [hexpand, hprogram] at hsuccess
    | notAssembled hsource' hexpand himage =>
      rw [hsource.eq hsource'] at hsuccess
      simp [hexpand, himage] at hsuccess
    | notWritten hsource' hexpand himage hwritable =>
      simp [hexpand, hwritable] at hsuccess

/-- A run that fails, and one that only expands, leave the directory as it is. -/
theorem directory_eq (h : Runs d a d' exit) (hkept : exit ≠ 0 ∨ a.expandOnly = true) : d' = d := by
  cases h with
  | written _ hexpand =>
    rw [hexpand] at hkept
    simp at hkept
  | _ => rfl

/-- A run that succeeds and does not only expand changes the output file and no other. -/
theorem find?_eq (h : Runs d a d' exit) (hinput : Path.IsName a.input) (hzero : exit = 0)
    (hassemble : a.expandOnly = false) :
    ∃ source image, d.HoldsText a.input source ∧ a.assembler.assemble source = .ok image ∧
      a.IsOutput a.outputPath ∧
      ∀ name, d'.find? name =
        if name = a.outputPath then some (image.hex ++ "\n").toUTF8 else d.find? name := by
  cases h with
  | expanded _ hexpand =>
    rw [hassemble] at hexpand
    cases hexpand
  | @written source image hsource _ himage hwritable =>
    have hparent : a.outputPath ≠ ".." := hwritable.1.2.2.2
    exact ⟨source, image, hsource, himage,
      (Arguments.isOutput_outputPath hinput).resolve_left hparent, d.find?_insert _ _⟩
  | _ => cases hzero

end Runs

/-- A file that takes the place of the input, without being asked for by name, has the extension of
a written image. -/
theorem Arguments.parts_of_outputPath_eq (hinput : Path.IsName a.input) (hnone : a.output = none)
    (h : a.outputPath = a.input) : ∃ front, Path.Parts a.input front outputExtension := by
  obtain hparent | houtput := isOutput_outputPath hinput
  · exact absurd (h.symm.trans hparent) hinput.2.2.2
  · simp only [IsOutput, hnone, h] at houtput
    exact houtput.parts

def loopSource : String := "NOP\n$loop:\n\tJMP $loop\n"

def loopDirectory : Directory :=
  ⟨[("loop.s", loopSource.toUTF8), ("old.4vin", "00000000\n".toUTF8)]⟩

theorem exists_assemble_loopSource :
    ∃ image, (Assembler.mk "loop.s" .aligned).assemble loopSource = .ok image ∧
      image.hex = "00000000 00004002 00000001" := by
  have hhex : (do
      let image ← (Assembler.mk "loop.s" .aligned).assemble loopSource
      return image.hex) = Except.ok "00000000 00004002 00000001" := by decide +kernel
  obtain ⟨image, himage, hend⟩ := bind_eq_ok_iff.mp hhex
  exact ⟨image, himage, Except.ok.inj hend⟩

theorem exists_expand_loopSource :
    ∃ p, (Assembler.mk "loop.s" .legacy).expand loopSource = .ok p := by
  have htext : (do
      let p ← (Assembler.mk "loop.s" .legacy).expand loopSource
      return p.text) = Except.ok "NOP\n$loop:\nJMP $loop\n" := by decide +kernel
  obtain ⟨p, hp, -⟩ := bind_eq_ok_iff.mp htext
  exact ⟨p, hp⟩

end Command

end FourVin
