import FourVin.Proofs.Image.TwoPass

/-!
The two layouts compared. They differ in instructions without operands, which have one more zero
byte in the legacy layout. What follows such an instruction drifts by that byte: offsets by the
number of such instructions before them, addresses by the whole words in that number. The two
layouts fail on the same programs and with the same fault, because no check looks at offsets.
-/
namespace FourVin

/-- An instruction is encoded in both layouts, with the same literal, or fails in both. -/
theorem Instruction.endAlike_encode (ins : Instruction) :
    EndAlike Eq (fun b c => b.literal = c.literal) (ins.encode .legacy) (ins.encode .aligned) := by
  unfold encode
  split
  · exact .error rfl
  · split
    · exact .ok rfl
    · cases Encoding.Fields.addFrom ⟨0, none⟩ _ 0 ins.operands with
      | error d => exact .error rfl
      | ok fields => exact .ok rfl

namespace Draft

structure Alike (d e : Draft) : Prop where
  names : d.labels.names = e.labels.names
  holes : List.Forall₂ (fun h k => h.label = k.label ∧ h.location = k.location)
    d.holes.toList e.holes.toList

theorem Alike.addLabel {d e : Draft} (h : d.Alike e) (name : String) :
    (d.addLabel name).Alike (e.addLabel name) := by
  refine ⟨?_, h.holes⟩
  simp only [Draft.addLabel, LabelTable.names_insert, h.names]

theorem Alike.addCode {d e : Draft} (h : d.Alike e) (ins : Instruction) {b c : Code}
    (hliteral : b.literal = c.literal) : (d.addCode ins b).Alike (e.addCode ins c) := by
  refine ⟨h.names, ?_⟩
  have hlabel : b.label? = c.label? := by rw [Code.label?, Code.label?, hliteral]
  rw [toList_holes_addCode, toList_holes_addCode]
  apply List.rel_append h.holes
  unfold hole?
  rw [hlabel]
  cases c.label? with
  | none => exact .nil
  | some label => exact .cons ⟨rfl, rfl⟩ .nil

theorem Alike.add {d e : Draft} (h : d.Alike e) (added : Declaration) :
    EndAlike Eq Alike (d.add .legacy added) (e.add .aligned added) := by
  cases added with
  | label name location => exact .ok (h.addLabel name)
  | instruction ins =>
    exact ins.endAlike_encode.bind fun b c hliteral => .ok (h.addCode ins hliteral)

theorem endAlike_ofProgram (p : Program) :
    EndAlike Eq Alike (ofProgram .legacy p) (ofProgram .aligned p) := by
  refine EndAlike.foldlM (R := Eq) ?_ (List.forall₂_refl p.declarations) ⟨rfl, .nil⟩
  rintro d e added _ h rfl
  exact h.add added

/-- Whether a label is missing does not depend on its address. -/
theorem Alike.finish {d e : Draft} (h : d.Alike e) :
    EndAlike Eq (fun a b => a.labels.names = b.labels.names) d.finish e.finish := by
  have hresolve : EndAlike Eq (fun _ _ => True) d.resolve e.resolve := by
    refine EndAlike.foldlM ?_ h.holes trivial
    rintro bytes bytes' hole hole' - ⟨hlabel, hlocation⟩
    have hnone : d.labels.find? hole.label = none ↔ e.labels.find? hole'.label = none := by
      rw [LabelTable.find?_eq_none_iff, LabelTable.find?_eq_none_iff, h.names, hlabel]
    unfold fill
    cases hd : d.labels.find? hole.label with
    | none =>
      rw [hnone.mp hd, hlabel, hlocation]
      exact .error rfl
    | some address =>
      cases he : e.labels.find? hole'.label with
      | none =>
        rw [hnone.mpr he] at hd
        cases hd
      | some address' => exact .ok trivial
  exact hresolve.bind fun _ _ _ => .ok h.names

end Draft

/-- A program has images with the same labels in both layouts, or the same fault. -/
theorem Image.endAlike_ofProgram (p : Program) :
    EndAlike Eq (fun a b => a.labels.names = b.labels.names) (Image.ofProgram .legacy p)
      (Image.ofProgram .aligned p) :=
  (Draft.endAlike_ofProgram p).bind fun _ _ h => h.finish

def Instruction.isNullary (ins : Instruction) : Bool := ins.operands.isEmpty

namespace Content

def isNullary : Content → Bool
  | instruction _ [] => true
  | _ => false

theorem isNullary_content (ins : Instruction) : ins.content.isNullary = ins.isNullary := by
  obtain ⟨mnemonic, operands, location⟩ := ins
  cases operands <;> rfl

theorem size_legacy (c : Content) :
    c.size .legacy = c.size .aligned + if c.isNullary then 1 else 0 := by
  cases c with
  | label name => rfl
  | instruction mnemonic values => cases values <;> simp [size, isNullary]

theorem size_aligned_mod_four (c : Content) : c.size .aligned % 4 = 0 := by
  cases c with
  | label name => rfl
  | instruction mnemonic values =>
    cases values with
    | nil => simp [size]
    | cons v rest =>
      simp only [size]
      split <;> rfl

/-- The legacy layout adds a byte for every instruction without operands. -/
theorem extent_legacy (contents : List Content) :
    extent .legacy contents = extent .aligned contents + contents.countP isNullary := by
  induction contents with
  | nil => rfl
  | cons c rest ih =>
    rw [extent_cons, extent_cons, ih, size_legacy, List.countP_cons]
    omega

theorem extent_aligned_mod_four (contents : List Content) : extent .aligned contents % 4 = 0 := by
  induction contents with
  | nil => rfl
  | cons c rest ih =>
    have hc := size_aligned_mod_four c
    rw [extent_cons]
    omega

theorem countP_isNullary_instructions (instructions : List Instruction) :
    (instructions.map Instruction.content).countP isNullary =
      instructions.countP Instruction.isNullary := by
  rw [List.countP_map]
  apply List.countP_congr
  intro ins _
  rw [Function.comp_apply, isNullary_content]

theorem countP_isNullary_declarations (ds : List Declaration) :
    (ds.map Declaration.content).countP isNullary =
      (Program.mk ds).instructions.countP Instruction.isNullary := by
  rw [← countP_isNullary_instructions]
  induction ds with
  | nil => rfl
  | cons d rest ih =>
    cases d with
    | label name location => exact ih
    | instruction ins =>
      rw [List.map_cons, List.countP_cons, ih, Program.instructions_instruction, List.map_cons,
        List.countP_cons]
      rfl

/-- Only instructions have entries. -/
theorem listingFrom_declarations (layout : Layout) (addressOf : String → UInt32) (offset : Nat)
    (ds : List Declaration) :
    listingFrom layout addressOf offset (ds.map Declaration.content) =
      listingFrom layout addressOf offset
        ((Program.mk ds).instructions.map Instruction.content) := by
  induction ds generalizing offset with
  | nil => rfl
  | cons d rest ih =>
    cases d with
    | label name location => exact ih offset
    | instruction ins =>
      rw [List.map_cons, listingFrom, ih]
      rfl

theorem length_listingFrom (layout : Layout) (addressOf : String → UInt32) (offset : Nat)
    (instructions : List Instruction) :
    (listingFrom layout addressOf offset (instructions.map Instruction.content)).length =
      instructions.length := by
  induction instructions generalizing offset with
  | nil => rfl
  | cons ins rest ih => exact congrArg (· + 1) (ih _)

/-- The entry of an instruction begins where the code of those before it ends. -/
theorem getElem?_listingFrom (layout : Layout) (addressOf : String → UInt32) (offset : Nat)
    {instructions : List Instruction} {i : Nat} {ins : Instruction}
    (h : instructions[i]? = some ins) :
    (listingFrom layout addressOf offset (instructions.map Instruction.content))[i]? =
      some ⟨offset + extent layout ((instructions.take i).map Instruction.content), ins.text,
        ins.content.bytes layout addressOf⟩ := by
  induction instructions generalizing offset i with
  | nil => simp at h
  | cons first rest ih =>
    rw [List.map_cons, listingFrom]
    have hentries : first.content.entries layout addressOf offset =
        [⟨offset, first.text, first.content.bytes layout addressOf⟩] := by
      rw [← show first.content.text = first.text from text_content (.instruction first)]
      rfl
    rw [hentries, List.singleton_append]
    cases i with
    | zero =>
      obtain rfl : first = ins := by simpa using h
      rfl
    | succ i =>
      rw [List.getElem?_cons_succ, ih (offset + first.content.size layout) h, List.take_succ_cons,
        List.map_cons, extent_cons, Nat.add_assoc]

/-- An instruction without operands has one more zero byte in the legacy layout. -/
theorem bytes_legacy_of_nullary {mnemonic : String}
    (h : (instruction mnemonic []).Encodable) (a b : String → UInt32) :
    (instruction mnemonic []).bytes .legacy a = (instruction mnemonic []).bytes .aligned b ++ [0] := by
  obtain ⟨d, hlookup, -⟩ := h
  simp only [bytes, code_of_lookup _ _ hlookup]
  rfl

/-- The code of any other instruction does not depend on the layout. -/
theorem code_legacy_of_ne_nil (mnemonic : String) {values : List Value} (h : values ≠ []) :
    (instruction mnemonic values).code .legacy = (instruction mnemonic values).code .aligned := by
  simp only [code]
  cases InstructionSet.lookup mnemonic with
  | none => rfl
  | some d => simp only [Definition.code, d.header_of_ne_nil _ h]

/-- An image gives a label the address of its last declaration. -/
theorem find?_labels_of_last (layout : Layout) (before : List Content) {after : List Content}
    {name : String} (h : label name ∉ after) :
    (labels layout (before ++ label name :: after)).find? name =
      some (UInt32.ofNat (extent layout before / 4)) := by
  have hafter : ∀ c ∈ after.reverse, decide (c ≠ label name) = true := by
    intro c hc
    rw [decide_eq_true_eq]
    rintro rfl
    exact h (List.mem_reverse.mp hc)
  rw [TwoPass.find?_labels, TwoPass.address?, List.reverse_append, List.reverse_cons,
    List.append_assoc, List.dropWhile_append_of_pos hafter]
  simp

end Content

/-- A label that is declared has a last declaration. -/
theorem Declaration.exists_last_label {ds : List Declaration} {name : String}
    (h : .label name ∈ ds.map content) :
    ∃ before location after, ds = before ++ .label name location :: after ∧
      ∀ other, .label name other ∉ after := by
  induction ds with
  | nil => cases h
  | cons d rest ih =>
    by_cases hrest : .label name ∈ rest.map content
    · obtain ⟨before, location, after, rfl, hafter⟩ := ih hrest
      exact ⟨d :: before, location, after, rfl, hafter⟩
    · obtain ⟨location, hmem⟩ := label_mem_contents_iff.mp h
      rcases List.mem_cons.mp hmem with rfl | hmem
      · refine ⟨[], location, rest, rfl, ?_⟩
        intro other hother
        exact hrest (label_mem_contents_iff.mpr ⟨other, hother⟩)
      · exact absurd (label_mem_contents_iff.mpr ⟨location, hmem⟩) hrest

/-- The entries of an instruction in the two layouts, behind `drift` instructions that have no
operands. -/
structure ListingEntry.Padded (drift : Nat) (ins : Instruction) (legacy aligned : ListingEntry) :
    Prop where
  text : legacy.text = aligned.text
  offset : legacy.offset = aligned.offset + drift
  nullary : ins.operands = [] → legacy.bytes = aligned.bytes ++ [0]
  /-- Without an address the bytes are the same. -/
  known : ins.operands ≠ [] → (∀ name, Value.lastLiteral? ins.values ≠ some (.label name)) →
    legacy.bytes = aligned.bytes
  /-- With one, they are the same up to the word of the address. -/
  addressed : ∀ name, Value.lastLiteral? ins.values = some (.label name) →
    ∃ header w v, header.length = 4 ∧ legacy.bytes = header ++ Word.toBytes w ∧
      aligned.bytes = header ++ Word.toBytes v

theorem Instruction.values_ne_nil {ins : Instruction} (h : ins.operands ≠ []) :
    ins.values ≠ [] := by
  simpa [values] using h

theorem ListingEntry.padded_of_encodable {ins : Instruction} (h : ins.content.Encodable)
    (drift offset : Nat) (a b : String → UInt32) :
    ListingEntry.Padded drift ins ⟨offset + drift, ins.text, ins.content.bytes .legacy a⟩
      ⟨offset, ins.text, ins.content.bytes .aligned b⟩ where
  text := rfl
  offset := rfl
  nullary := by
    intro hnil
    have hcontent : ins.content = .instruction ins.mnemonic [] := by
      simp [Instruction.content, Instruction.values, hnil]
    rw [hcontent] at h ⊢
    exact Content.bytes_legacy_of_nullary h a b
  known := by
    intro hne hknown
    have hcode := Content.code_legacy_of_ne_nil ins.mnemonic (Instruction.values_ne_nil hne)
    have hlabel : (ins.content.code .aligned).label? = none := by
      cases hlabel : (ins.content.code .aligned).label? with
      | none => rfl
      | some name =>
        obtain ⟨mnemonic, values, heq, hlast⟩ := Content.label?_code_eq_some hlabel
        cases heq
        exact absurd hlast (hknown name)
    unfold Content.bytes
    rw [show ins.content.code .legacy = ins.content.code .aligned from hcode,
      Code.resolved_of_label?_eq_none a hlabel, Code.resolved_of_label?_eq_none b hlabel]
  addressed := by
    intro name hlast
    obtain ⟨d, hlookup, -⟩ := h
    exact ⟨_, a name, b name, rfl, Content.bytes_of_label .legacy a hlookup hlast,
      Content.bytes_of_label .aligned b hlookup hlast⟩

namespace Content

theorem padded_listing {p : Program} (h : ∀ c ∈ p.contents, c.Encodable) {i : Nat}
    {ins : Instruction} (hi : p.instructions[i]? = some ins) (a b : String → UInt32) :
    ∃ legacy aligned, (listingFrom .legacy a 0 p.contents)[i]? = some legacy ∧
      (listingFrom .aligned b 0 p.contents)[i]? = some aligned ∧
      ListingEntry.Padded ((p.instructions.take i).countP Instruction.isNullary) ins legacy
        aligned := by
  have hlegacy := getElem?_listingFrom .legacy a 0 hi
  have haligned := getElem?_listingFrom .aligned b 0 hi
  rw [← listingFrom_declarations, Nat.zero_add] at hlegacy haligned
  rw [extent_legacy, countP_isNullary_instructions] at hlegacy
  have hencodable : ins.content.Encodable :=
    h _ (Program.mem_contents_of_mem_instructions (List.mem_of_getElem? hi))
  exact ⟨_, _, hlegacy, haligned, ListingEntry.padded_of_encodable hencodable _ _ a b⟩

/-- The address of a label drifts by the whole words in the drift of its offset. -/
theorem address_legacy {before after : List Content} {name : String} (hafter : label name ∉ after)
    (hsize : extent .legacy (before ++ label name :: after) < 2 ^ 34) :
    ∃ a b, (labels .legacy (before ++ label name :: after)).find? name = some a ∧
      (labels .aligned (before ++ label name :: after)).find? name = some b ∧
      a.toNat = b.toNat + before.countP isNullary / 4 := by
  refine ⟨_, _, find?_labels_of_last .legacy before hafter,
    find?_labels_of_last .aligned before hafter, ?_⟩
  have hbefore : extent .legacy before ≤ extent .legacy (before ++ label name :: after) := by
    simp [extent]
  have hdrift := extent_legacy before
  have haligned := extent_aligned_mod_four before
  rw [UInt32.toNat_ofNat', UInt32.toNat_ofNat']
  omega

end Content

theorem Program.address_legacy {p : Program} {before after : List Declaration} {name : String}
    {location : Location} (hp : p.declarations = before ++ .label name location :: after)
    (hafter : ∀ other, .label name other ∉ after)
    (hsize : Content.extent .legacy p.contents < 2 ^ 34) :
    ∃ a b, (Content.labels .legacy p.contents).find? name = some a ∧
      (Content.labels .aligned p.contents).find? name = some b ∧
      a.toNat = b.toNat + (Program.mk before).instructions.countP Instruction.isNullary / 4 := by
  have hcontents : p.contents = before.map Declaration.content ++
      .label name :: after.map Declaration.content := Program.contents_of_append hp
  have hlast : Content.label name ∉ after.map Declaration.content := by
    intro hlater
    obtain ⟨other, hother⟩ := Declaration.label_mem_contents_iff.mp hlater
    exact hafter other hother
  rw [hcontents] at hsize ⊢
  rw [← Content.countP_isNullary_declarations]
  exact Content.address_legacy hlast hsize

/-- The legacy image is the aligned one with a zero byte behind every instruction without operands:
the two layouts fail alike, and otherwise offsets and addresses drift by these bytes and nothing
but the words of addresses changes. -/
theorem Image.legacy_pads_aligned (p : Program) :
    (∃ d, Image.ofProgram .legacy p = .error d ∧ Image.ofProgram .aligned p = .error d) ∨
      ∃ legacy aligned, Image.ofProgram .legacy p = .ok legacy ∧
        Image.ofProgram .aligned p = .ok aligned ∧
        legacy.listing.length = p.instructions.length ∧
        aligned.listing.length = p.instructions.length ∧
        (∀ i ins, p.instructions[i]? = some ins →
          ∃ a b, legacy.listing[i]? = some a ∧ aligned.listing[i]? = some b ∧
            ListingEntry.Padded ((p.instructions.take i).countP Instruction.isNullary) ins a b) ∧
        legacy.labels.names = aligned.labels.names ∧
        (legacy.bytes.length < 2 ^ 34 → ∀ name ∈ legacy.labels.names,
          ∃ a b before location after, legacy.labels.find? name = some a ∧
            aligned.labels.find? name = some b ∧
            p.declarations = before ++ .label name location :: after ∧
            (∀ other, .label name other ∉ after) ∧
            a.toNat = b.toNat +
              (Program.mk before).instructions.countP Instruction.isNullary / 4) := by
  rcases (Image.endAlike_ofProgram p).exists_error_or_ok with
    ⟨d, e, hlegacy, haligned, rfl⟩ | ⟨legacy, aligned, hlegacy, haligned, hnames⟩
  · exact .inl ⟨d, hlegacy, haligned⟩
  · obtain ⟨hencodable, -, rfl⟩ := Image.ofProgram_eq_ok_iff.mp hlegacy
    obtain ⟨-, -, rfl⟩ := Image.ofProgram_eq_ok_iff.mp haligned
    have hlength : ∀ layout, (Content.image layout p.contents).listing.length =
        p.instructions.length := by
      intro layout
      exact (congrArg List.length (Content.listingFrom_declarations layout _ 0 _)).trans
        (Content.length_listingFrom layout _ 0 _)
    refine .inr ⟨_, _, hlegacy, haligned, hlength .legacy, hlength .aligned, ?_, hnames, ?_⟩
    · intro i ins hi
      exact Content.padded_listing hencodable hi _ _
    · intro hsize name hname
      have hsize : Content.extent .legacy p.contents < 2 ^ 34 := by
        rw [← Content.length_flatMap_bytes .legacy _ hencodable]
        exact hsize
      have hmem := Content.contains_labels_iff.mp ((LabelTable.contains_iff _ _).mpr hname)
      obtain ⟨before, location, after, hp, hafter⟩ := Declaration.exists_last_label hmem
      obtain ⟨a, b, ha, hb, hdrift⟩ := Program.address_legacy hp hafter hsize
      exact ⟨a, b, before, location, after, ha, hb, hp, hafter, hdrift⟩

/-- A program in which a label drifts by a word. -/
def Program.withNops : Program :=
  let here : Location := ⟨"", .start⟩
  ⟨List.replicate 5 (.instruction ⟨"NOP", [], here⟩) ++
    [.instruction ⟨"JMP", [⟨.label "end", here⟩], here⟩, .label "end" here,
      .instruction ⟨"STOP", [], here⟩]⟩

theorem Image.legacy_pads_aligned_withNops :
    ∃ legacy aligned, Image.ofProgram .legacy .withNops = .ok legacy ∧
      Image.ofProgram .aligned .withNops = .ok aligned ∧ legacy.bytes.length = 38 ∧
      legacy.labels.find? "end" = some 8 ∧ aligned.labels.find? "end" = some 7 ∧
      (∃ before location after,
        Program.withNops.declarations = before ++ .label "end" location :: after ∧
        8 = 7 + (Program.mk before).instructions.countP Instruction.isNullary / 4) ∧
      ∃ a b, legacy.listing[5]? = some a ∧ aligned.listing[5]? = some b ∧
        a.offset = b.offset + 5 := by
  rcases Image.legacy_pads_aligned .withNops with
    ⟨d, hfault, -⟩ | ⟨legacy, aligned, hlegacy, haligned, -, -, hlisting, -, hlabels⟩
  · cases hfault
  · obtain ⟨-, -, rfl⟩ := Image.ofProgram_eq_ok_iff.mp hlegacy
    obtain ⟨-, -, rfl⟩ := Image.ofProgram_eq_ok_iff.mp haligned
    obtain ⟨a, b, before, location, after, ha, hb, hp, -, hdrift⟩ :=
      hlabels (by decide) "end" (by decide)
    cases ha
    cases hb
    obtain ⟨a, b, ha, hb, hpadded⟩ := hlisting 5 _ rfl
    exact ⟨_, _, hlegacy, haligned, rfl, rfl, rfl, ⟨before, location, after, hp, hdrift⟩, a, b, ha,
      hb, hpadded.offset⟩

end FourVin
