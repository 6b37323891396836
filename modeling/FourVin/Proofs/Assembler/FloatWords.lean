import FourVin.Proofs.Assembler.Checked
import FourVin.Proofs.Image.Addresses
import FourVin.Proofs.Program.FloatOperands

/-!
The words of float literals. Expansion keeps every `MOV`, and the image has the word of its literal
behind the header. So the word of a literal depends on the value of the literal alone, and through
the two roundings it adjoins that value and grows with it.
-/
namespace FourVin

namespace Content

/-- Where an instruction begins in the image, its code follows. -/
theorem drop_bytes_image (layout : Layout) {p : Program} {i : Nat} {ins : Instruction}
    (h : ∀ c ∈ p.contents, c.Encodable) (hi : p.instructions[i]? = some ins) :
    ∃ behind, (image layout p.contents).bytes.drop
        (extent layout ((p.instructions.take i).map Instruction.content)) =
      ins.content.bytes layout (labels layout p.contents).addressOf ++ behind := by
  obtain ⟨hlt, rfl⟩ := List.getElem?_eq_some_iff.mp hi
  have hfront : ∀ c ∈ (p.instructions.take i).map Instruction.content, c.Encodable := by
    intro c hc
    obtain ⟨ins, hins, rfl⟩ := List.mem_map.mp hc
    exact h _ (Program.mem_contents_of_mem_instructions (List.mem_of_mem_take hins))
  have hdrop := @drop_extent layout (labels layout p.contents).addressOf _ hfront
    ((p.instructions.drop i).map Instruction.content)
  rw [← List.map_append, List.take_append_drop, ← flatMap_bytes_declarations,
    List.drop_eq_getElem_cons hlt, List.map_cons, List.flatMap_cons] at hdrop
  exact ⟨_, hdrop⟩

/-- The word of the last literal of an instruction follows its header in the image. -/
theorem word_at_listing (layout : Layout) {p : Program} {i : Nat} {ins : Instruction}
    (h : ∀ c ∈ p.contents, c.Encodable) (hi : p.instructions[i]? = some ins) {v : Value}
    {w : UInt32} (hlast : Value.lastLiteral? ins.values = some v)
    (hraw : v.raw (labels layout p.contents).addressOf = .literal w) :
    ∃ entry, (image layout p.contents).listing[i]? = some entry ∧
      ((image layout p.contents).bytes.drop (entry.offset + 4)).take 4 = Word.toBytes w := by
  have hlisting := getElem?_listingFrom layout (labels layout p.contents).addressOf 0 hi
  rw [← listingFrom_declarations, Nat.zero_add] at hlisting
  obtain ⟨d, hlookup, -⟩ := h _ (Program.mem_contents_of_mem_instructions (List.mem_of_getElem? hi))
  have hheader : (d.header layout ins.values).length = 4 := by
    rw [d.header_of_ne_nil layout fun hnil => by simp [hnil, Value.lastLiteral?] at hlast]
    rfl
  obtain ⟨behind, hdrop⟩ := drop_bytes_image layout h hi
  rw [Instruction.content, bytes_of_literal layout _ hlookup hlast hraw, List.append_assoc]
    at hdrop
  refine ⟨_, hlisting, ?_⟩
  rw [← List.drop_drop, hdrop, List.drop_left' hheader, List.take_left' (Word.length_toBytes w)]

end Content

namespace FloatLiteral

variable {l m : FloatLiteral}

/-- An instruction `MOV` of a source that assembles, with the literal for its second operand, and
the word behind its header in the image. -/
structure Emission (l : FloatLiteral) where
  assembler : Assembler
  source : String
  program : Program
  image : Image
  index : Nat
  ins : Instruction
  first : Operand
  second : Operand
  entry : ListingEntry
  word : UInt32
  expands : assembler.expand source = .ok program
  assembles : assembler.assemble source = .ok image
  atIndex : program.instructions[index]? = some ins
  mnemonic : ins.mnemonic = "MOV"
  operands : ins.operands = [first, second]
  stands : l.StandsAt assembler.file source second.location
  listed : image.listing[index]? = some entry
  emitted : (image.bytes.drop (entry.offset + 4)).take 4 = Word.toBytes word

namespace Emission

/-- The second operand has the value of the literal. -/
theorem value_second (e : l.Emission) :
    e.second.value = .float l.double ∧ l.double.Denotable := by
  obtain ⟨p, s, hread, hcheck⟩ := Assembler.checked_of_assemble e.assembles
  obtain ⟨q, hexpand, hrewrite⟩ :=
    Program.exists_expand_rewrite (Program.complete_of_checked hread hcheck)
  have hprogram := e.expands
  rw [Assembler.expand, hread, ok_bind, hcheck, ok_bind, hexpand] at hprogram
  obtain rfl : q = e.program := Except.ok.inj hprogram
  have hins : e.ins ∈ p.instructions := by
    apply Program.mem_instructions_of_rewrite hrewrite (List.mem_of_getElem? e.atIndex)
    rw [e.mnemonic]
    decide
  have hsecond : e.second ∈ e.ins.operands := by simp [e.operands]
  have hvalue := value_of_standsAt hread hins hsecond e.stands
  have hsound := (Program.sound_ofSource hread).2 _ (Program.mem_instructions_iff.mp hins)
  have hspellable := (hsound.operands e.second hsecond).1
  rw [hvalue] at hspellable
  exact ⟨hvalue, hspellable⟩

theorem word_eq (e : l.Emission) : e.word = l.double.toSingle := by
  obtain ⟨q, hexpand, -, hcomplete, himage⟩ := Assembler.exists_expand_of_assemble e.assembles
  obtain rfl : e.program = q := Except.ok.inj (e.expands.symm.trans hexpand)
  have hlast : Value.lastLiteral? e.ins.values = some (.float l.double) := by
    simp [Instruction.values, e.operands, e.value_second.1, Value.isLiteral, Value.lastLiteral?]
  obtain ⟨entry, hlisted, hword⟩ := Content.word_at_listing e.assembler.layout
    (fun c hc => (hcomplete.wellFormed.admitted c hc).encodable) e.atIndex hlast rfl
  rw [← himage] at hlisted hword
  obtain rfl : e.entry = entry := Option.some.inj (e.listed.symm.trans hlisted)
  exact Word.eq_of_toBytes_eq (e.emitted.symm.trans hword)

/-- The word holds the magnitude bits of the literal, rounded twice. -/
theorem toNat_word (e : l.Emission) :
    e.word.toNat = Double.narrowed (Decimal.ofText l.text).digits (Decimal.ofText l.text).scale ∧
      e.word.toNat < Format.single.infinity := by
  rw [e.word_eq]
  have hdenotable := e.value_second.2
  exact ⟨Double.toNat_toSingle_ofDecimal hdenotable.inRange, hdenotable.toNat_toSingle.2⟩

theorem adjoins (e : l.Emission) : (Single.mk e.word).Adjoins l.value := by
  rw [← l.value_ofText]
  exact Decimal.adjoins_of_narrowed e.toNat_word.1 e.toNat_word.2

theorem word_le_word (e : l.Emission) (f : m.Emission) (h : l.value ≤ m.value) :
    e.word ≤ f.word := by
  rw [← l.value_ofText, ← m.value_ofText, Decimal.value_le_value_iff] at h
  rw [UInt32.le_iff_toNat_le, e.toNat_word.1, f.toNat_word.1]
  exact Double.narrowed_mono (Decimal.scale_pos _) (Decimal.scale_pos _) h

end Emission

def move (l : FloatLiteral) (r : Register) : String :=
  "MOV " ++ r.text ++ ", " ++ String.ofList l.text ++ "\n"

def moved (l : FloatLiteral) (r : Register) (file : String) : Instruction where
  mnemonic := "MOV"
  operands :=
    [⟨.register r, ⟨file, .behind "MOV "⟩⟩,
      ⟨.float l.double, ⟨file, .behind ("MOV " ++ r.text ++ ", ")⟩⟩]
  location := ⟨file, .start⟩

def moving (l : FloatLiteral) (r : Register) (file : String) : Program :=
  ⟨[.instruction (l.moved r file)]⟩

open Program Token in
theorem ofSource_move (l : FloatLiteral) (r : Register) (file : String)
    (hrange : l.double.overflowsSingle = false) :
    Program.ofSource file (l.move r) = .ok (l.moving r file) := by
  let opened : Instruction := ⟨"MOV", [], ⟨file, .start⟩⟩
  let withFirst : Instruction :=
    ⟨"MOV", [⟨.register r, ⟨file, .behind "MOV "⟩⟩], ⟨file, .start⟩⟩
  have hopen : ∀ rest, Delimits rest →
      Passes file .lead .start "MOV".toList rest (.firstOperand opened) [] :=
    fun rest hrest => passes_token (lexes_mnemonic (by decide) hrest) rfl
  have hfirst : ∀ rest, Delimits rest → Passes file (.firstOperand opened) (.behind "MOV ")
      r.text.toList rest (.separator withFirst) [] :=
    fun rest hrest => passes_value (v := .register r) (takesOperand_firstOperand opened) trivial
      hrest file _
  have hcomma : ∀ p rest, Passes file (.separator withFirst) p [','] rest (.operand withFirst) [] :=
    fun p rest => passes_token (lexes_mark rfl) rfl
  have hsecond : Passes file (.operand withFirst) (.behind ("MOV " ++ r.text ++ ", ")) l.text
      ['\n'] (.separator (l.moved r file)) [] :=
    passes_token (l.lexes_text hrange stops_newline) rfl
  have hend : ∀ p, Passes file (.separator (l.moved r file)) p ['\n'] [] .between
      [.instruction (l.moved r file)] := fun p => passes_token (lexes_newline (by simp)) rfl
  have hfirstAt : .behind "MOV " = (Position.start.advance "MOV".toList).advance [' '] := by decide
  have hsecondAt : .behind ("MOV " ++ r.text ++ ", ") =
      (((Position.behind "MOV ").advance r.text.toList).advance [',']).advance [' '] := by
    cases r <;> decide
  rw [hsecondAt, hfirstAt] at hsecond
  rw [hfirstAt] at hfirst
  have htext : (l.move r).toList = "MOV".toList ++
      ([' '] ++ (r.text.toList ++ ([','] ++ ([' '] ++ (l.text ++ ['\n']))))) := by
    simp [move]
  apply ofSource_of_passes
  rw [htext]
  refine (hopen _ ?_).trans ((passes_space file _ _ _).trans ((hfirst _ ?_).trans
    ((hcomma _ _).trans ((passes_space file _ _ _).trans (hsecond.trans (hend _))))))
  · simp [Delimits]
  · simp [Delimits]

theorem wellFormed_moving (l : FloatLiteral) (r : Register) (file : String) :
    Content.WellFormed (l.moving r file).contents where
  distinct := List.nodup_nil
  admitted := by
    intro c hc
    obtain rfl := List.mem_singleton.mp hc
    exact ⟨_, rfl, Content.admits_pair rfl rfl rfl⟩
  resolved := fun name hname => by cases hname

/-- The one instruction emits a word. -/
theorem exists_emission_move (a : Assembler) (r : Register)
    (hrange : l.double.overflowsSingle = false) :
    ∃ e : l.Emission, e.assembler = a ∧ e.source = l.move r := by
  have hread := l.ofSource_move r a.file hrange
  have hwellFormed := l.wellFormed_moving r a.file
  obtain ⟨s, hcheck⟩ := (Symbols.exists_ofProgram_iff _).mpr hwellFormed
  have hself : (l.moving r a.file).expand = .ok (l.moving r a.file) := by
    apply Program.expand_eq_self
    intro ins hins
    obtain rfl := List.mem_singleton.mp hins
    exact ⟨_, rfl, rfl⟩
  have hexpands : a.expand (l.move r) = .ok (l.moving r a.file) := by
    rw [Assembler.expand, hread, ok_bind, hcheck, ok_bind, hself]
  have hassembles : a.assemble (l.move r) =
      .ok (Content.image a.layout (l.moving r a.file).contents) := by
    rw [Assembler.assemble, hexpands, ok_bind, Image.ofProgram_of_wellFormed hwellFormed]
  obtain ⟨entry, hlisted, hemitted⟩ := Content.word_at_listing a.layout (i := 0)
    (p := l.moving r a.file) (v := .float l.double)
    (fun c hc => (hwellFormed.admitted c hc).encodable) rfl rfl rfl
  have hstands : l.StandsAt a.file (l.move r) ⟨a.file, .behind ("MOV " ++ r.text ++ ", ")⟩ := by
    refine ⟨("MOV " ++ r.text ++ ", ").toList, ['\n'], by simp [move], stops_newline, ?_⟩
    rw [String.ofList_toList]
  exact ⟨⟨a, l.move r, _, _, 0, l.moved r a.file, _, _, entry, _, hexpands, hassembles, rfl, rfl,
    rfl, hstands, hlisted, hemitted⟩, rfl, rfl⟩

/-- The words of literals are faithful to their values and keep their order: every literal that is
accepted is emitted, wherever it is emitted its word is a finite single without sign that is the
value or next to it, and a literal of greater or equal value has a greater or equal word. -/
theorem emitted_words_adjoin_values :
    (∀ l : FloatLiteral, l.Accepted → ∀ (a : Assembler) (r : Register),
      ∃ e : l.Emission, e.assembler = a ∧ e.source = l.move r) ∧
    (∀ (l : FloatLiteral) (e : l.Emission), (Single.mk e.word).Adjoins l.value) ∧
    ∀ (l m : FloatLiteral) (e : l.Emission) (f : m.Emission), l.value ≤ m.value →
      e.word ≤ f.word := by
  refine ⟨?_, ?_, ?_⟩
  · intro l haccepted a r
    exact exists_emission_move a r haccepted.inRange
  · intro l e
    exact e.adjoins
  · intro l m e f hle
    exact e.word_le_word f hle

def tenth : FloatLiteral where
  whole := ['0']
  fraction := ['1']
  nonempty := by decide
  isDigit_whole := List.all_eq_true.mp (by decide)
  isDigit_fraction := List.all_eq_true.mp (by decide)

theorem value_tenth : tenth.value = 1 / 10 := by
  have hwhole : Nat.ofDigitChars 10 tenth.whole 0 = 0 := by decide
  have hfraction : Nat.ofDigitChars 10 tenth.fraction 0 = 1 := by decide
  have hlength : tenth.fraction.length = 1 := by decide
  rw [value, hwhole, hfraction, hlength]
  norm_num

theorem emitted_words_adjoin_values_tenth :
    ∃ (e : tenth.Emission) (f : largest.Emission), e.source = "MOV %RA, 0.1\n" ∧
      e.word = 0x3DCCCCCD ∧ f.word = 0x7F7FFFFF ∧ (Single.mk e.word).Adjoins (1 / 10) ∧
      e.word ≤ f.word := by
  obtain ⟨hemitted, hadjoins, hordered⟩ := emitted_words_adjoin_values
  have htenth : tenth.Accepted := accepted_iff.mpr (by rw [value_tenth]; norm_num)
  have hlargest : largest.Accepted := accepted_iff.mpr (by rw [value_largest]; norm_num)
  have hle : tenth.value ≤ largest.value := by
    rw [value_tenth, value_largest]
    norm_num
  obtain ⟨e, -, hsource⟩ := hemitted tenth htenth .default .ra
  obtain ⟨f, -, -⟩ := hemitted largest hlargest .default .ra
  refine ⟨e, f, by rw [hsource]; decide, ?_, ?_, value_tenth ▸ hadjoins tenth e,
    hordered _ _ e f hle⟩
  · rw [e.word_eq]
    decide +kernel
  · rw [f.word_eq]
    decide +kernel

end FloatLiteral

end FourVin
