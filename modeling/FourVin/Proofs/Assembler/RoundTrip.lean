import FourVin.Proofs.Assembler.Checked
import FourVin.Proofs.Program.WrittenForm

/-!
Two ways back from an image. Disassembling the bytes gives the instructions of the expanded program
again, one for one. Assembling the written form of that program gives the same image again, with its
labels and its listing: the image depends on the content of a program only, the written form reads
back as that content, and nothing in it is left to expand.
-/
namespace FourVin

/-- What decoding makes of a value, with labels at the addresses of a table that may lack them. -/
def RawOperand.ofValue? (labels : LabelTable UInt32) (v : Value) : Option RawOperand :=
  match v with
  | .label name => (labels.find? name).map fun address => v.raw fun _ => address
  | _ => some (v.raw labels.addressOf)

def Decoded.Matches (labels : LabelTable UInt32) (ins : Instruction) (d : Decoded) : Prop :=
  d.definition.mnemonic = ins.mnemonic ∧
    d.operands.map some = ins.values.map (RawOperand.ofValue? labels)

theorem RawOperand.ofValue?_eq_some {labels : LabelTable UInt32} {v : Value}
    (h : ∀ name, v = .label name → labels.contains name = true) :
    ofValue? labels v = some (v.raw labels.addressOf) := by
  cases v with
  | label name =>
    obtain ⟨address, haddress⟩ := Option.isSome_iff_exists.mp (h name rfl)
    simp [ofValue?, Value.raw, LabelTable.addressOf, haddress]
  | _ => rfl

namespace Assembler

/-- Disassembling an image gives the instructions of the expanded program, in order and to the last
byte. -/
theorem disassemble_assemble {a : Assembler} {source : String} {image : Image}
    (h : a.assemble source = .ok image) :
    ∃ p decoded, a.expand source = .ok p ∧
      (Decoded.disassemble a.layout image.bytes).map Prod.snd = decoded.map .ok ∧
      (decoded.map Decoded.length).sum = image.bytes.length ∧
      List.Forall₂ (Decoded.Matches image.labels) p.instructions decoded := by
  obtain ⟨q, hexpand, -, hcomplete, rfl⟩ := exists_expand_of_assemble h
  have hadmitted := hcomplete.wellFormed.admitted
  have hencodable : ∀ c ∈ q.contents, c.Encodable := fun c hc => (hadmitted c hc).encodable
  have hoperands : ∀ ins ∈ q.instructions,
      ins.values.map (RawOperand.ofValue? (Content.labels a.layout q.contents)) =
        (ins.values.map (Value.raw (Content.labels a.layout q.contents).addressOf)).map some := by
    intro ins hins
    rw [List.map_map]
    apply List.map_congr_left
    intro v hv
    apply RawOperand.ofValue?_eq_some
    intro name hname
    exact hcomplete.wellFormed.contains_labels a.layout
      (Program.mem_contents_of_mem_instructions hins) (hname ▸ hv)
  refine ⟨q, _, hexpand, Content.disassembleFrom_flatMap_bytes a.layout _ hadmitted 0, ?_, ?_⟩
  · rw [Content.sum_length_decoded? a.layout _ hadmitted]
    exact (Content.length_flatMap_bytes a.layout _ hencodable).symm
  · have hdecoded := Program.forall₂_decoded? a.layout
      (Content.labels a.layout q.contents).addressOf hadmitted
    refine (List.forall₂_and_left _ _ |>.mpr ⟨hoperands, hdecoded⟩).imp ?_
    intro ins d hd
    obtain ⟨hvalues, hmnemonic, hraw⟩ := hd
    exact ⟨hmnemonic, by rw [hraw, ← hvalues]; rfl⟩

/-- A source with everything that can stand between an instruction and its bytes: a comment, an
instruction that leaves the next off word alignment, labels before their declarations, literals of
all kinds, and instructions that stand for others. -/
def sample : String :=
  "NOP // off alignment\n$loop:\n\tPUSH $end\n\tPUSH 2.5\n\tPOP %RC\n\tMOV %RB, 0xFF\n" ++
    "\tCMP %RB, %RC\n\tJE %RD\n\tJMP $loop\n$end:\nSTOP\n"

theorem exists_assemble_sample :
    ∃ image, Assembler.default.assemble sample = .ok image ∧ image.bytes.length = 78 ∧
      image.labels = ⟨[("loop", 1), ("end", 18)]⟩ := by
  have hfacts : (do
      let image ← Assembler.default.assemble sample
      return (image.bytes.length, image.labels)) =
      Except.ok (78, ⟨[("loop", 1), ("end", 18)]⟩) := by
    decide +kernel
  obtain ⟨image, himage, hend⟩ := bind_eq_ok_iff.mp hfacts
  obtain ⟨hlength, hlabels⟩ := Prod.mk.inj (Except.ok.inj hend)
  exact ⟨image, himage, hlength, hlabels⟩

theorem disassemble_assemble_sample :
    ∃ image, Assembler.default.assemble sample = .ok image ∧
      ∃ p decoded, Assembler.default.expand sample = .ok p ∧
        (Decoded.disassemble .legacy image.bytes).map Prod.snd = decoded.map .ok ∧
        (decoded.map Decoded.length).sum = 78 ∧
        List.Forall₂ (Decoded.Matches image.labels) p.instructions decoded := by
  obtain ⟨image, himage, hlength, -⟩ := exists_assemble_sample
  exact ⟨image, himage, hlength ▸ disassemble_assemble himage⟩

/-- The written form of the expanded program assembles to the same image. -/
theorem assemble_text_expand {a : Assembler} {source : String} {image : Image}
    (h : a.assemble source = .ok image) :
    ∃ p, a.expand source = .ok p ∧ a.assemble p.text = .ok image := by
  obtain ⟨q, hexpand, hprimitive, hcomplete, rfl⟩ := exists_expand_of_assemble h
  refine ⟨q, hexpand, ?_⟩
  have hread := Program.ofSource_listText a.file hcomplete.nonempty hcomplete.spellable
  have hcontents : (Program.mk (Content.locateFrom a.file .start q.contents)).contents =
      q.contents := Content.contents_locateFrom ..
  obtain ⟨s, hcheck⟩ := (Symbols.exists_ofProgram_iff _).mpr (hcontents ▸ hcomplete.wellFormed)
  rw [Content.listText_contents] at hread
  obtain ⟨r, -, hagain, -, hassemble⟩ := a.assemble_of_checked hread hcheck
  rw [hassemble, hagain, hcontents, hprimitive]

def sampleExpanded : String :=
  "NOP\n$loop:\nSUB %RSP, 1\nSTORE %RSP, $end\nSUB %RSP, 1\nSTORE %RSP, 2.5\nLOAD %RC, %RSP\n" ++
    "ADD %RSP, 1\nMOV %RB, 255\nCMP %RB, %RC\nJE %RD\nJMP $loop\n$end:\nSTOP\n"

theorem assemble_text_expand_sample :
    ∃ image p, Assembler.default.assemble sample = .ok image ∧
      Assembler.default.expand sample = .ok p ∧
      Assembler.default.assemble p.text = .ok image ∧ p.text = sampleExpanded ∧
      image.bytes.length = 78 ∧ image.labels = ⟨[("loop", 1), ("end", 18)]⟩ := by
  obtain ⟨image, himage, hlength, hlabels⟩ := exists_assemble_sample
  obtain ⟨p, hexpand, hagain⟩ := assemble_text_expand himage
  have htext : (do
      let p ← Assembler.default.expand sample
      return p.text) = Except.ok sampleExpanded := by
    decide +kernel
  rw [hexpand] at htext
  exact ⟨image, p, himage, hexpand, hagain, Except.ok.inj htext, hlength, hlabels⟩

end Assembler

end FourVin
