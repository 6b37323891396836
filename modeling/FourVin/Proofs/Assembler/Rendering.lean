import FourVin.Proofs.Assembler.Checked
import FourVin.Proofs.Program.Locations
import FourVin.Proofs.Program.RoundTrip
import FourVin.Proofs.Text.Lines

/-!
What a rendered diagnostic shows. The texts that a message quotes come from the source and hold no
line feed, so a diagnostic is shown on three lines. The second of them is the line of the source in
which the fault lies, without the white space at its ends.

The marker on the third line is as long as the column of the fault, and the column counts the white
space that the second line has lost. So the caret stands to the right of the fault by the length of
the indentation, and under the fault only where there is none.
-/
namespace FourVin

open Text

namespace Cause

/-- The texts that the message quotes are without line feeds. -/
def OneLine : Cause → Prop
  | unexpectedCharacter found => found ≠ '\n'
  | unknownRegister name => '\n' ∉ name.toList
  | integerOverflow text => '\n' ∉ text.toList
  | floatOverflow text => '\n' ∉ text.toList
  | unexpectedToken shown => '\n' ∉ shown.toList
  | unexpectedEnd => True
  | duplicateLabel name first => '\n' ∉ name.toList ∧ '\n' ∉ first.file.toList
  | undeclaredLabel name => '\n' ∉ name.toList
  | operandCount _ _ _ => True
  | operandType expected _ => '\n' ∉ expected.toList
  | inExpansion mnemonic _ cause => '\n' ∉ mnemonic.toList ∧ cause.OneLine
  | unknownMnemonic mnemonic => '\n' ∉ mnemonic.toList
  | unresolvedLabel name => '\n' ∉ name.toList
  | unencodable mnemonic reason => '\n' ∉ mnemonic.toList ∧ '\n' ∉ reason.toList

end Cause

theorem Location.newline_not_mem_text {l : Location} (h : '\n' ∉ l.file.toList) :
    '\n' ∉ l.text.toList := by
  simp [text, h, newline_not_mem_toDigits]

theorem Cause.OneLine.newline_not_mem_message {cause : Cause} (h : cause.OneLine) :
    '\n' ∉ cause.message.toList := by
  induction cause with
  | unexpectedCharacter found =>
    unfold message
    simpa using Ne.symm h
  | unexpectedEnd =>
    unfold message
    decide
  | duplicateLabel name first =>
    unfold message
    simp [h.1, Location.newline_not_mem_text h.2]
  | operandCount mnemonic expected got =>
    unfold message
    simp [newline_not_mem_toDigits]
  | operandType expected got =>
    have hexpected : '\n' ∉ expected.toList := h
    have hgot : '\n' ∉ got.name.toList := by cases got <;> decide
    unfold message
    simp [hexpected, hgot]
  | inExpansion mnemonic location cause ih =>
    unfold message
    simp [h.1, ih h.2]
  | unencodable mnemonic reason =>
    unfold message
    simp [h.1, h.2]
  | _ =>
    unfold OneLine at h
    unfold message
    simpa using h

theorem OperandClass.newline_not_mem_describe (classes : List OperandClass) :
    '\n' ∉ (describe classes).toList := by
  have hname : ∀ c : OperandClass, '\n' ∉ c.name.toList := by
    intro c
    cases c <;> decide
  unfold describe
  induction classes with
  | nil => decide
  | cons c rest ih =>
    cases rest with
    | nil => simpa using hname c
    | cons d rest => simpa [String.intercalate_cons_cons, hname c] using ih

namespace Rule

theorem oneLine_of_kind {rule : Rule} {text : List Char} {cause : Cause}
    (htext : rule.Describes text) (h : rule.kind text = .error cause) : cause.OneLine := by
  have hquoted : rule ≠ .newlines → '\n' ∉ (String.ofList text).toList := by
    rw [String.toList_ofList]
    exact htext.newline_not_mem
  cases rule with
  | newlines => cases h
  | word => cases h
  | register =>
    simp only [kind, registerKind] at h
    split at h
    · cases h
    · cases h
      exact hquoted (by decide)
  | float =>
    simp only [kind, floatKind] at h
    split at h
    · split at h
      · cases h
        exact hquoted (by decide)
      · cases h
    · cases h
      show '.' ≠ '\n'
      decide
  | hex =>
    simp only [kind, hexKind] at h
    split at h
    · cases h
    · cases h
      exact hquoted (by decide)
  | integer =>
    simp only [kind, integerKind] at h
    split at h
    · cases h
    · cases h
      exact hquoted (by decide)
  | mark => exact absurd h (markKind_ne_error htext)

/-- What a fault at the front of an input quotes from it is on one line. -/
theorem Fault.oneLine {input : List Char} {cause : Cause} (h : Fault input cause) :
    cause.OneLine := by
  cases h with
  | @unmatched c hc hnone =>
    rintro rfl
    obtain ⟨rest, rfl⟩ := List.head?_eq_some_iff.mp hc
    exact not_describes_of_first? hnone (List.prefix_append ['\n'] rest)
      (.newlines (by simp) (by simp))
  | rejected hrule hkind => exact oneLine_of_kind (describes_of_first? hrule) hkind

end Rule

theorem Token.CutFrom.newline_not_mem_shown {file : String} {front input : List Char} {t : Token}
    (h : t.CutFrom file front input) : '\n' ∉ t.shown.toList := by
  cases h with
  | @cut rule kind hrule hkind =>
    unfold Token.shown
    split
    · decide
    · next hother =>
      have hnewlines : rule ≠ .newlines := by
        rintro rfl
        cases hkind
        exact hother rfl
      simpa using (Rule.describes_of_first? hrule).newline_not_mem hnewlines

theorem Program.oneLine_of_ofSource {file source : String} {d : Diagnostic}
    (h : ofSource file source = .error d) : d.cause.OneLine := by
  rcases fault_of_ofSource h with hscan | ⟨tokens, htokens, ⟨t, ht, rfl⟩ | rfl⟩
  · obtain ⟨front, input, -, -, hfault⟩ := Token.fault_of_ofSource hscan
    exact hfault.oneLine
  · obtain ⟨front, input, -, hcut⟩ := Token.cut_of_ofSource htokens t ht
    exact hcut.newline_not_mem_shown
  · trivial

theorem Instruction.Fault.oneLine {file : String} {ins : Instruction} {e : Diagnostic}
    (hins : ins.Sound file) (h : ins.Fault e) : e.cause.OneLine := by
  cases h with
  | mnemonic _ => exact newline_not_mem_of_isWord (isWord_of_isMnemonic hins.mnemonic)
  | count _ _ => trivial
  | operand _ _ _ => exact OperandClass.newline_not_mem_describe _

theorem Value.Spellable.isName_of_label? {v : Value} {name : String} (h : v.Spellable)
    (hlabel : v.label? = some name) : IsName name := by
  cases v with
  | label other =>
    cases hlabel
    exact h
  | _ => cases hlabel

theorem Symbols.oneLine_of_ofProgram {file : String} {p : Program} {e : Diagnostic}
    (hfile : '\n' ∉ file.toList) (hp : ∀ d ∈ p.declarations, d.Sound file)
    (h : ofProgram p = .error e) : e.cause.OneLine := by
  rcases fault_of_ofProgram h with ⟨before, d, after, hsplit, hfault⟩ | ⟨name, location, hmem, rfl⟩
  · rw [hsplit] at hp
    have hd := hp d (by simp)
    cases hfault with
    | @duplicate name location first front hfirst =>
      obtain ⟨rest, rfl⟩ := hfirst.split
      have hlabel : (Declaration.label name first).Sound file := hp _ (by simp)
      refine ⟨newline_not_mem_of_isWord hd.1.1, ?_⟩
      rwa [hlabel.2]
    | instruction hins => exact hins.oneLine hd
  · obtain ⟨op, hop, hu⟩ := List.mem_filterMap.mp hmem
    obtain ⟨ins, hins, hmem⟩ := List.mem_flatMap.mp hop
    obtain ⟨used, hlabel, heq⟩ := Option.map_eq_some_iff.mp hu
    have hvalue := ((hp _ (Program.mem_instructions_iff.mp hins)).operands op hmem).1
    cases heq
    exact newline_not_mem_of_isWord (hvalue.isName_of_label? hlabel).1

namespace Diagnostic

theorem newline_not_mem_marker (d : Diagnostic) : '\n' ∉ d.marker.toList := by
  simp [marker]

/-- The caret of the marker stands in the column of the fault, behind what is put in front of a
source line. -/
theorem idxOf_caret_marker (d : Diagnostic) :
    d.marker.toList.idxOf '^' = d.location.column + 4 := by
  have hbefore : '^' ∉ (">>>>" ++ String.ofList (List.replicate d.location.column '-')).toList := by
    simp
  rw [marker, String.toList_append, List.idxOf_append_of_notMem hbefore]
  simp +arith

theorem newline_not_mem_sourceLine (d : Diagnostic) (source : String) :
    '\n' ∉ (d.sourceLine source).toList := by
  have hline := newline_not_mem_line (d.location.line - 1) source.toList
  rw [(trims_trim (line (d.location.line - 1) source.toList)).split] at hline
  rw [sourceLine, String.toList_ofList]
  intro hmem
  simp [hmem] at hline

theorem toList_sourceLine {d : Diagnostic} {source : String} {line : List Char}
    (h : (source.toList.splitOn '\n')[d.location.line - 1]? = some line) :
    (d.sourceLine source).toList = trim line := by
  rw [sourceLine, String.toList_ofList, line_eq_getElem?, h, Option.getD_some]

/-- The lines of a rendered diagnostic. -/
theorem splitOn_render (d : Diagnostic) (source : String) :
    (d.render source).toList.splitOn '\n' =
      (d.location.text ++ " " ++ d.message).toList.splitOn '\n' ++
        ["     ".toList ++ (d.sourceLine source).toList, d.marker.toList] := by
  have hshown : '\n' ∉ "     ".toList ++ (d.sourceLine source).toList := by
    simp [newline_not_mem_sourceLine]
  have hrender : (d.render source).toList =
      (d.location.text ++ " " ++ d.message).toList ++
        '\n' :: (("     ".toList ++ (d.sourceLine source).toList) ++ '\n' :: d.marker.toList) := by
    simp [render]
  rw [hrender, List.splitOn_append_cons_self, List.splitOn_append_cons_self,
    List.splitOn_eq_singleton hshown, List.splitOn_eq_singleton d.newline_not_mem_marker]
  rfl

end Diagnostic

theorem utf8ByteSize_of_ascii {text : List Char} (h : ∀ c ∈ text, c.toNat < 128) :
    (String.ofList text).utf8ByteSize = text.length := by
  induction text with
  | nil => rfl
  | cons c rest ih =>
    obtain ⟨hc, hrest⟩ := List.forall_mem_cons.mp h
    have hsize : c.utf8Size = 1 := by
      rw [Char.utf8Size_eq_one_iff, UInt32.le_iff_toNat_le]
      exact Nat.le_of_lt_succ hc
    rw [← List.singleton_append, String.ofList_append, String.utf8ByteSize_append, ih hrest]
    simp [hsize, Nat.add_comm]

namespace Position

/-- The line on which a position lies. -/
theorem getElem?_line_behind (front back : List Char) :
    ((front ++ back).splitOn '\n')[(behind (String.ofList front)).line - 1]? =
      some (front.rtakeWhile (· ≠ '\n') ++ back.takeWhile (· ≠ '\n')) := by
  rw [line_behind]
  exact getElem?_splitOn_append front back

theorem column_behind_of_ascii {front : List Char} (h : ∀ c ∈ front, c.toNat < 128) :
    (behind (String.ofList front)).column = (front.rtakeWhile (· ≠ '\n')).length + 1 := by
  rw [column_behind, utf8ByteSize_of_ascii]
  exact fun c hc => h c ((List.rtakeWhile_suffix _ _).mem hc)

end Position

/-- A location in the source lies on a line of it, at one of its characters or at its end. -/
theorem Location.In.exists_line {file source : String} {l : Location} (h : l.In file source) :
    ∃ line, (source.toList.splitOn '\n')[l.line - 1]? = some line ∧ 1 ≤ l.line ∧ 1 ≤ l.column ∧
      l.column ≤ (String.ofList line).utf8ByteSize + 1 := by
  obtain ⟨front, back, hsource, rfl⟩ := h
  have hline := Position.getElem?_line_behind front back
  rw [← hsource] at hline
  refine ⟨_, hline, ?_, ?_, ?_⟩
  · rw [Location.line, Position.line_behind]
    omega
  · rw [Location.column, Position.column_behind]
    omega
  · rw [Location.column, Position.column_behind, String.ofList_append, String.utf8ByteSize_append]
    omega

namespace Diagnostic

/-- The caret stands behind the character at the location of the diagnostic by the length of the
white space that the source line begins with. -/
theorem caret_behind_fault_by_indentation {d : Diagnostic} {source : String}
    {front back : List Char} {c : Char} (hascii : ∀ b ∈ source.toList, b.toNat < 128)
    (hsource : source.toList = front ++ c :: back) (hc : isWhiteSpace c = false)
    (hposition : d.location.position = .behind (String.ofList front)) :
    ∃ heads shown i, (d.render source).toList.splitOn '\n' = heads ++ [shown, d.marker.toList] ∧
      shown[i]? = some c ∧
      d.marker.toList.idxOf '^' =
        i + ((front.rtakeWhile (· ≠ '\n')).takeWhile isWhiteSpace).length := by
  have hnewline : c ≠ '\n' := by
    rintro rfl
    exact absurd hc (by decide)
  have hfront : ∀ b ∈ front, b.toNat < 128 := by
    intro b hb
    exact hascii b (hsource ▸ List.mem_append_left _ hb)
  have hline := Position.getElem?_line_behind front (c :: back)
  have hcolumn := Position.column_behind_of_ascii hfront
  rw [← hsource, ← hposition, List.takeWhile_cons_of_pos (by simpa using hnewline)] at hline
  rw [← hposition] at hcolumn
  generalize front.rtakeWhile (· ≠ '\n') = before at *
  generalize back.takeWhile (· ≠ '\n') = after at *
  -- The line is `before ++ c :: after`, and trimming it takes the white space off `before`.
  obtain ⟨hle, hshown⟩ :=
    (trims_trim (before ++ c :: after)).getElem?_shown (i := before.length) (by simp) hc
  rw [takeWhile_append_cons_neg hc] at hle hshown
  refine ⟨_, _, 5 + (before.length - (before.takeWhile isWhiteSpace).length),
    d.splitOn_render source, ?_, ?_⟩
  · rw [toList_sourceLine hline, List.getElem?_append_right (by simp)]
    simpa using hshown
  · rw [idxOf_caret_marker, Location.column, hcolumn]
    omega

def unknownRegisterIndented : Diagnostic := ⟨⟨"t", ⟨1, 7⟩⟩, .unknownRegister "%RX"⟩

theorem caret_behind_fault_by_indentation_unknownRegister :
    (⟨"t", .legacy⟩ : Assembler).assemble "  MOV %RX, 1\n" = .error unknownRegisterIndented ∧
      ∃ heads shown i,
        (unknownRegisterIndented.render "  MOV %RX, 1\n").toList.splitOn '\n' =
          heads ++ [shown, unknownRegisterIndented.marker.toList] ∧
        shown[i]? = some '%' ∧
        unknownRegisterIndented.marker.toList.idxOf '^' =
          i + (("  MOV ".toList.rtakeWhile (· ≠ '\n')).takeWhile isWhiteSpace).length := by
  have hsource : "  MOV %RX, 1\n".toList = "  MOV ".toList ++ '%' :: "RX, 1\n".toList := by decide
  refine ⟨by decide +kernel, ?_⟩
  exact caret_behind_fault_by_indentation (by simp) hsource (by decide) (by decide)

/-- The caret under a line that was indented by two blanks stands two places behind the percent
sign of the register that is at fault, and so under another character. -/
theorem caret_beside_indented_fault :
    (⟨"t", .legacy⟩ : Assembler).assemble "  MOV %RX, 1\n" = .error unknownRegisterIndented ∧
      "  MOV %RX, 1\n".toList[6]? = some '%' ∧
      (unknownRegisterIndented.render "  MOV %RX, 1\n").toList.splitOn '\n' =
        ["t:1:7 Unknown register: '%RX'".toList, "     MOV %RX, 1".toList,
          ">>>>-------^".toList] ∧
      "     MOV %RX, 1".toList[">>>>-------^".toList.idxOf '^']? = some 'X' := by
  decide +kernel

end Diagnostic

namespace Assembler

variable {a : Assembler} {source : String} {d : Diagnostic}

theorem location_in_of_assemble (h : a.assemble source = .error d) :
    d.location.In a.file source := by
  rcases fault_of_assemble h with hread | ⟨p, hread, hcheck⟩
  · exact Program.location_in_of_ofSource hread
  · exact Program.locations_in hread _ (Symbols.location_mem_of_ofProgram hcheck)

theorem oneLine_of_assemble (hfile : '\n' ∉ a.file.toList) (h : a.assemble source = .error d) :
    d.cause.OneLine := by
  rcases fault_of_assemble h with hread | ⟨p, hread, hcheck⟩
  · exact Program.oneLine_of_ofSource hread
  · exact Symbols.oneLine_of_ofProgram hfile (Program.sound_ofSource hread).2 hcheck

/-- The fault of a failed assembly lies in the source, and it is shown on three lines of which the
second is the line of the source in which it lies, without the white space at its ends. -/
theorem render_shows_source_line (hfile : '\n' ∉ a.file.toList)
    (h : a.assemble source = .error d) :
    d.location.file = a.file ∧
    ∃ line, (source.toList.splitOn '\n')[d.location.line - 1]? = some line ∧
      1 ≤ d.location.line ∧ 1 ≤ d.location.column ∧
      d.location.column ≤ (String.ofList line).utf8ByteSize + 1 ∧
      ∃ lead shown trail, Trims line lead shown trail ∧
        (d.render source).toList.splitOn '\n' =
          [(d.location.text ++ " " ++ d.message).toList, "     ".toList ++ shown,
            d.marker.toList] := by
  have hin := location_in_of_assemble h
  have hname : d.location.file = a.file := by
    obtain ⟨front, back, -, hlocation⟩ := hin
    rw [hlocation]
  obtain ⟨line, hline, hlineNumber, hcolumn, hcolumnEnd⟩ := hin.exists_line
  have hhead : '\n' ∉ (d.location.text ++ " " ++ d.message).toList := by
    have hlocation : '\n' ∉ d.location.text.toList :=
      Location.newline_not_mem_text (by rwa [hname])
    have hmessage : '\n' ∉ d.message.toList :=
      (oneLine_of_assemble hfile h).newline_not_mem_message
    simp [hlocation, hmessage]
  refine ⟨hname, line, hline, hlineNumber, hcolumn, hcolumnEnd, _, _, _, trims_trim line, ?_⟩
  rw [Diagnostic.splitOn_render, List.splitOn_eq_singleton hhead,
    Diagnostic.toList_sourceLine hline]
  rfl

theorem render_shows_source_line_indented :
    ∃ d, (⟨"t", .legacy⟩ : Assembler).assemble "NOP\n  MOV %RA, $end\t\n" = .error d ∧
      d.location.file = "t" ∧
      ∃ line, ("NOP\n  MOV %RA, $end\t\n".toList.splitOn '\n')[d.location.line - 1]? = some line ∧
        1 ≤ d.location.line ∧ 1 ≤ d.location.column ∧
        d.location.column ≤ (String.ofList line).utf8ByteSize + 1 ∧
        ∃ lead shown trail, Trims line lead shown trail ∧
          (d.render "NOP\n  MOV %RA, $end\t\n").toList.splitOn '\n' =
            [(d.location.text ++ " " ++ d.message).toList, "     ".toList ++ shown,
              d.marker.toList] := by
  have herror : (⟨"t", .legacy⟩ : Assembler).assemble "NOP\n  MOV %RA, $end\t\n" =
      .error ⟨⟨"t", ⟨2, 12⟩⟩, .undeclaredLabel "end"⟩ := by decide +kernel
  exact ⟨_, herror, render_shows_source_line (by decide) herror⟩

end Assembler

end FourVin
