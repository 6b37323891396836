import FourVin.Proofs.Program.Soundness
import FourVin.Proofs.Program.WrittenForm

/-!
Writing a program that has been read, and reading it again. The contents of the program are
spellable, so its written form reads back as these contents, whether they keep to the instruction
set or not. A written declaration holds no line feed but the one behind it, and so the declarations
of the program that is read back stand at the beginnings of the lines in turn.
-/
namespace FourVin

theorem newline_not_mem_of_isWord {word : String} (h : IsWord word) : '\n' ∉ word.toList := by
  obtain ⟨c, cs, hword, hc, hcs⟩ := h
  rw [hword, List.mem_cons, not_or]
  constructor
  · rintro rfl
    exact absurd hc (by decide)
  · intro hmem
    exact absurd (hcs _ hmem) (by decide)

theorem newline_not_mem_of_isDigit {text : List Char} (h : ∀ c ∈ text, c.isDigit = true) :
    '\n' ∉ text := fun hmem => absurd (h _ hmem) (by decide)

theorem newline_not_mem_toDigits (n : Nat) : '\n' ∉ Nat.toDigits 10 n :=
  newline_not_mem_of_isDigit fun _ hc => Nat.isDigit_of_mem_toDigits (by decide) (by decide) hc

theorem Value.newline_not_mem_text {v : Value} (h : v.Spellable) : '\n' ∉ v.text.toList := by
  cases v with
  | register r => cases r <;> decide
  | integer n =>
    rw [text, Nat.toList_repr]
    exact newline_not_mem_toDigits _
  | float x =>
    obtain ⟨whole, fraction, htext, -, -, hwhole, hfraction, -⟩ :=
      Double.Denotable.floatText_reads h
    rw [text, String.toList_ofList, htext, List.mem_append, List.mem_cons]
    rintro (hmem | hpoint | hmem)
    · exact newline_not_mem_of_isDigit hwhole hmem
    · exact absurd hpoint (by decide)
    · exact newline_not_mem_of_isDigit hfraction hmem
  | label name => simpa [text] using newline_not_mem_of_isWord h.1

namespace Content

theorem newline_not_mem_valuesText {separator : String} {values : List Value}
    (hseparator : '\n' ∉ separator.toList) (hvalues : ∀ v ∈ values, v.Spellable) :
    '\n' ∉ (valuesText separator values).toList := by
  induction values generalizing separator with
  | nil => simp [valuesText]
  | cons v rest ih =>
    obtain ⟨hv, hrest⟩ := List.forall_mem_cons.mp hvalues
    have hbehind : '\n' ∉ (valuesText ", " rest).toList := ih (by decide) hrest
    simp [valuesText, hseparator, Value.newline_not_mem_text hv, hbehind]

/-- A declaration is written on one line. -/
theorem newline_not_mem_text {c : Content} (h : c.Spellable) : '\n' ∉ c.text.toList := by
  cases c with
  | label name => simpa [text] using newline_not_mem_of_isWord h.1
  | instruction mnemonic values =>
    obtain ⟨hmnemonic, hvalues⟩ := h
    have hword := newline_not_mem_of_isWord (isWord_of_isMnemonic hmnemonic)
    have hbehind : '\n' ∉ (valuesText " " values).toList :=
      newline_not_mem_valuesText (by decide) hvalues
    simp [text, hword, hbehind]

theorem location_locate (file : String) (p : Position) (c : Content) :
    (c.locate file p).location = ⟨file, p⟩ := by
  cases c <;> rfl

/-- What is written from the beginning of a line on stands at the beginnings of the lines. -/
theorem location_locateFrom {file : String} {line k : Nat} {contents : List Content}
    {d : Declaration} (h : ∀ c ∈ contents, c.Spellable)
    (hd : (locateFrom file ⟨line, 1⟩ contents)[k]? = some d) :
    d.location = ⟨file, ⟨line + k, 1⟩⟩ := by
  induction contents generalizing line k with
  | nil => simp [locateFrom] at hd
  | cons c rest ih =>
    obtain ⟨hc, hrest⟩ := List.forall_mem_cons.mp h
    rw [locateFrom, Position.advance_lineFeed,
      List.count_eq_zero_of_not_mem (newline_not_mem_text hc)] at hd
    cases k with
    | zero =>
      obtain rfl : c.locate file ⟨line, 1⟩ = d := by simpa using hd
      exact location_locate file ⟨line, 1⟩ c
    | succ k =>
      rw [ih hrest hd]
      simp only [Nat.add_zero, Nat.add_assoc, Nat.add_comm 1 k]

end Content

namespace Program

/-- The written form of a program that has been read reads as the same program but for locations:
its declarations are those of the program, each on a line of its own, and so it has the same written
form. -/
theorem ofSource_text {file source : String} {p : Program} (h : ofSource file source = .ok p) :
    ∃ q, ofSource file p.text = .ok q ∧ q.contents = p.contents ∧
      (∀ (k : Nat) (d : Declaration), q.declarations[k]? = some d →
        d.location = ⟨file, ⟨k + 1, 1⟩⟩) ∧
      q.text = p.text := by
  obtain ⟨hne, hsound⟩ := sound_ofSource h
  have hspellable : ∀ c ∈ p.contents, c.Spellable :=
    List.forall_mem_map.mpr fun d hd => (hsound d hd).spellable
  have hnonempty : p.contents ≠ [] := by simpa [contents] using hne
  have hread := ofSource_listText file hnonempty hspellable
  rw [Content.listText_contents] at hread
  have hcontents : (Program.mk (Content.locateFrom file .start p.contents)).contents =
      p.contents := Content.contents_locateFrom ..
  refine ⟨_, hread, hcontents, ?_, ?_⟩
  · intro k d hd
    rw [Content.location_locateFrom hspellable hd, Nat.add_comm]
  · rw [← Content.listText_contents, hcontents, Content.listText_contents]

/-- A source that keeps to the grammar but not to the instruction set, with blank lines, a comment
and spellings that the written form does not have. -/
def looseSource : String :=
  "\n  ADD %RA ,0x10,$x, .5 // four operands\n\n$x :\n\tMOV\n \n"

theorem ofSource_text_looseSource :
    ∃ p q, ofSource "loose" looseSource = .ok p ∧ p.declarations.length = 3 ∧
      p.text = "ADD %RA, 16, $x, 0.5\n$x:\nMOV\n" ∧ ofSource "loose" p.text = .ok q ∧
      q.contents = p.contents ∧
      (∀ (k : Nat) (d : Declaration), q.declarations[k]? = some d →
        d.location = ⟨"loose", ⟨k + 1, 1⟩⟩) ∧
      q.text = p.text := by
  have hsource : (do
      let p ← ofSource "loose" looseSource
      return (p.declarations.length, p.text)) =
      Except.ok (3, "ADD %RA, 16, $x, 0.5\n$x:\nMOV\n") := by
    decide +kernel
  obtain ⟨p, hread, hend⟩ := bind_eq_ok_iff.mp hsource
  obtain ⟨hlength, htext⟩ := Prod.mk.inj (Except.ok.inj hend)
  obtain ⟨q, hagain⟩ := ofSource_text hread
  exact ⟨p, q, hread, hlength, htext, hagain⟩

end Program

end FourVin
