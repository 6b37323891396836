import FourVin.Proofs.Image.Disassembly
import FourVin.Proofs.Image.Layouts

/-!
Addresses as points of a program. A label stands in front of an instruction or at the end, and its
address is the number of whole words before that point. Every instruction takes a word or more, so
labels have the same address exactly when no instruction stands between them, also where code is off
word alignment. There an address does not meet the instruction behind its label: this happens when
the instructions without operands before it have added bytes that are not whole words. In the
aligned layout every address meets its instruction, and decoding from there gives it.
-/
namespace FourVin

/-- Where the instruction with the given index begins, or would begin behind the last one. -/
def Image.offsetOf (image : Image) (index : Nat) : Nat :=
  match image.listing[index]? with
  | some entry => entry.offset
  | none => image.bytes.length

/-- The bytes behind the last whole word of code that has so many instructions without operands. -/
def Layout.excess (layout : Layout) (nullary : Nat) : Nat :=
  match layout with
  | .legacy => nullary % 4
  | .aligned => 0

theorem Layout.excess_eq_zero_iff {layout : Layout} {nullary : Nat} :
    layout.excess nullary = 0 ↔ layout = .aligned ∨ nullary % 4 = 0 := by
  cases layout <;> simp [excess]

namespace Content

theorem extent_append (layout : Layout) (front behind : List Content) :
    extent layout (front ++ behind) = extent layout front + extent layout behind := by
  simp [extent]

/-- Labels take no bytes. -/
theorem extent_declarations (layout : Layout) (ds : List Declaration) :
    extent layout (ds.map Declaration.content) =
      extent layout ((Program.mk ds).instructions.map Instruction.content) := by
  induction ds with
  | nil => rfl
  | cons d rest ih =>
    cases d with
    | label name location =>
      rw [List.map_cons, extent_cons, ih]
      exact Nat.zero_add _
    | instruction ins =>
      rw [List.map_cons, extent_cons, ih, Program.instructions_instruction, List.map_cons,
        extent_cons]
      rfl

theorem flatMap_bytes_declarations (layout : Layout) (addressOf : String → UInt32)
    (ds : List Declaration) :
    (ds.map Declaration.content).flatMap (bytes layout addressOf) =
      ((Program.mk ds).instructions.map Instruction.content).flatMap (bytes layout addressOf) := by
  induction ds with
  | nil => rfl
  | cons d rest ih =>
    cases d with
    | label name location => exact ih
    | instruction ins => exact congrArg (ins.content.bytes layout addressOf ++ ·) ih

theorem four_le_size (layout : Layout) (ins : Instruction) : 4 ≤ ins.content.size layout := by
  unfold Instruction.content
  cases ins.values with
  | nil => cases layout <;> simp [size]
  | cons v rest =>
    simp only [size]
    split <;> omega

/-- Code takes no bytes, or at least a word when it has an instruction. -/
theorem extent_declarations_cases (layout : Layout) (ds : List Declaration) :
    (Program.mk ds).instructions = [] ∧ extent layout (ds.map Declaration.content) = 0 ∨
      (Program.mk ds).instructions ≠ [] ∧ 4 ≤ extent layout (ds.map Declaration.content) := by
  rw [extent_declarations]
  cases (Program.mk ds).instructions with
  | nil => exact .inl ⟨rfl, rfl⟩
  | cons ins rest =>
    have hins := four_le_size layout ins
    refine .inr ⟨List.cons_ne_nil ins rest, ?_⟩
    rw [List.map_cons, extent_cons]
    omega

theorem extent_mod_four (layout : Layout) (contents : List Content) :
    extent layout contents % 4 = layout.excess (contents.countP isNullary) := by
  have haligned := extent_aligned_mod_four contents
  cases layout with
  | aligned => exact haligned
  | legacy =>
    rw [extent_legacy, Layout.excess]
    omega

/-- The address of a label that is declared once is the number of whole words before it. -/
theorem address_of_distinct {layout : Layout} {before after : List Content} {name : String}
    (hdistinct : ((before ++ label name :: after).filterMap declared?).Nodup)
    (hsize : extent layout (before ++ label name :: after) < 2 ^ 34) :
    ∃ x, (labels layout (before ++ label name :: after)).find? name = some x ∧
      x.toNat = extent layout before / 4 := by
  have hafter : label name ∉ after := by
    intro hmem
    rw [List.filterMap_append, List.filterMap_cons_some (f := declared?) rfl] at hdistinct
    have hrest := (List.nodup_append.mp hdistinct).2.1
    exact (List.nodup_cons.mp hrest).1 (mem_declared_iff.mpr hmem)
  refine ⟨_, find?_labels_of_last layout before hafter, ?_⟩
  rw [extent_append] at hsize
  rw [UInt32.toNat_ofNat']
  omega

/-- What stands behind a point of the code is the code of what follows. -/
theorem drop_extent {layout : Layout} (addressOf : String → UInt32) {front : List Content}
    (hfront : ∀ c ∈ front, c.Encodable) (behind : List Content) :
    ((front ++ behind).flatMap (bytes layout addressOf)).drop (extent layout front) =
      behind.flatMap (bytes layout addressOf) := by
  rw [List.flatMap_append, List.drop_left' (length_flatMap_bytes layout addressOf hfront)]

/-- An instruction begins where the code before it ends. -/
theorem offsetOf_image {layout : Layout} {p : Program} (hencodable : ∀ c ∈ p.contents, c.Encodable)
    {before after : List Declaration} (hp : p.declarations = before ++ after) :
    (image layout p.contents).offsetOf (Program.mk before).instructions.length =
      extent layout (before.map Declaration.content) := by
  have hinstructions : p.instructions =
      (Program.mk before).instructions ++ (Program.mk after).instructions := by
    rw [← Program.instructions_append, ← hp]
  have hlisting : (image layout p.contents).listing = listingFrom layout
      (labels layout p.contents).addressOf 0 (p.instructions.map Instruction.content) :=
    listingFrom_declarations layout _ 0 p.declarations
  rw [Image.offsetOf, hlisting]
  rcases extent_declarations_cases layout after with ⟨hnil, hzero⟩ | ⟨hne, -⟩
  · have hnone := List.getElem?_eq_none (l := listingFrom layout
        (labels layout p.contents).addressOf 0 (p.instructions.map Instruction.content))
      (i := (Program.mk before).instructions.length)
      (by rw [length_listingFrom, hinstructions, hnil, List.append_nil])
    rw [hnone]
    change (p.contents.flatMap _).length = _
    rw [length_flatMap_bytes layout _ hencodable, Program.contents_of_append hp, extent_append,
      hzero, Nat.add_zero]
  · obtain ⟨ins, rest, hafter⟩ := List.exists_cons_of_ne_nil hne
    have hindex : p.instructions[(Program.mk before).instructions.length]? = some ins := by
      rw [hinstructions, hafter, List.getElem?_append_right (Nat.le_refl _), Nat.sub_self]
      rfl
    rw [getElem?_listingFrom layout _ 0 hindex, hinstructions, List.take_left' rfl,
      ← extent_declarations]
    exact Nat.zero_add _

end Content

theorem Program.address_of_distinct {layout : Layout} {p : Program}
    (hdistinct : (p.contents.filterMap Content.declared?).Nodup)
    (hsize : Content.extent layout p.contents < 2 ^ 34) {before after : List Declaration}
    {name : String} {location : Location}
    (hp : p.declarations = before ++ .label name location :: after) :
    ∃ x, (Content.labels layout p.contents).find? name = some x ∧
      x.toNat = Content.extent layout (before.map Declaration.content) / 4 := by
  have hcontents : p.contents = before.map Declaration.content ++
      .label name :: after.map Declaration.content := Program.contents_of_append hp
  rw [hcontents] at hdistinct hsize ⊢
  exact Content.address_of_distinct hdistinct hsize

/-- Decoding from a point of the code gives the instruction behind it. -/
theorem Content.ofBytes_at_point {layout : Layout} {p : Program}
    (hadmitted : ∀ c ∈ p.contents, c.Admitted) (addressOf : String → UInt32)
    {before after : List Declaration} (hp : p.declarations = before ++ after) {ins : Instruction}
    {rest : List Instruction} (hins : (Program.mk after).instructions = ins :: rest) :
    ∃ d, Decoded.ofBytes layout ((p.contents.flatMap (Content.bytes layout addressOf)).drop
        (Content.extent layout (before.map Declaration.content))) = .ok d ∧
      d.definition.mnemonic = ins.mnemonic := by
  have hmem : ins ∈ p.instructions := by
    have hafter : ins ∈ (Program.mk after).instructions := by
      rw [hins]
      exact List.mem_cons_self
    rw [Program.mem_instructions_iff, hp]
    exact List.mem_append_right before (Program.mem_instructions_iff.mp hafter)
  obtain ⟨definition, hlookup, hadmits⟩ :=
    hadmitted _ (Program.mem_contents_of_mem_instructions hmem)
  rw [Program.contents_of_append hp] at hadmitted ⊢
  rw [Content.drop_extent addressOf fun c hc =>
      (hadmitted c (List.mem_append_left _ hc)).encodable, Content.flatMap_bytes_declarations, hins,
    List.map_cons, List.flatMap_cons]
  exact ⟨_, Decoded.ofBytes_bytes layout addressOf hlookup hadmits _,
    InstructionSet.lookup_mnemonic hlookup⟩

/-- Labels are addressed in order, and alike only where no instruction stands between them. An
address meets the instruction behind its label in the aligned layout, and in the legacy one when the
instructions without operands before it add whole words. -/
theorem Image.addresses_separate_points {layout : Layout} {p : Program} {image : Image}
    (hdistinct : (p.contents.filterMap Content.declared?).Nodup)
    (h : Image.ofProgram layout p = .ok image) (hsize : image.bytes.length < 2 ^ 34) :
    (∀ before a l between b m after,
      p.declarations = before ++ .label a l :: (between ++ .label b m :: after) →
      ∃ x y, image.labels.find? a = some x ∧ image.labels.find? b = some y ∧ x ≤ y ∧
        (x = y ↔ (Program.mk between).instructions = [])) ∧
    ∀ before name location after, p.declarations = before ++ .label name location :: after →
      ∃ x, image.labels.find? name = some x ∧
        (4 * x.toNat = image.offsetOf (Program.mk before).instructions.length ↔
          layout = .aligned ∨
            (Program.mk before).instructions.countP Instruction.isNullary % 4 = 0) ∧
        (layout = .aligned → ∀ s, Symbols.ofProgram p = .ok s →
          ∀ ins rest, (Program.mk after).instructions = ins :: rest →
            ∃ d, Decoded.ofBytes layout (image.bytes.drop (4 * x.toNat)) = .ok d ∧
              d.definition.mnemonic = ins.mnemonic) := by
  obtain ⟨hencodable, -, rfl⟩ := Image.ofProgram_eq_ok_iff.mp h
  have hextent : Content.extent layout p.contents < 2 ^ 34 := by
    rw [← Content.length_flatMap_bytes layout _ hencodable]
    exact hsize
  constructor
  · intro before a l between b m after hp
    have hsecond : p.declarations = (before ++ .label a l :: between) ++ .label b m :: after := by
      rw [hp, List.append_assoc]
      rfl
    obtain ⟨x, hx, hxaddress⟩ := Program.address_of_distinct hdistinct hextent hp
    obtain ⟨y, hy, hyaddress⟩ := Program.address_of_distinct hdistinct hextent hsecond
    rw [List.map_append, List.map_cons, Content.extent_append, Content.extent_cons] at hyaddress
    have hlabel : (Declaration.label a l).content.size layout = 0 := rfl
    refine ⟨x, y, hx, hy, ?_, ?_⟩
    · rw [UInt32.le_iff_toNat_le]
      omega
    · rw [← UInt32.toNat_inj]
      rcases Content.extent_declarations_cases layout between with ⟨hnil, hzero⟩ | ⟨hne, hfour⟩
      · exact iff_of_true (by omega) hnil
      -- Four bytes more are one whole word more, wherever the first point is in its word.
      · exact iff_of_false (by omega) hne
  · intro before name location after hp
    obtain ⟨x, hx, haddress⟩ := Program.address_of_distinct hdistinct hextent hp
    have hmod := Content.extent_mod_four layout (before.map Declaration.content)
    rw [Content.countP_isNullary_declarations] at hmod
    refine ⟨x, hx, ?_, ?_⟩
    · rw [Content.offsetOf_image hencodable hp, ← Layout.excess_eq_zero_iff, ← hmod]
      omega
    · rintro rfl s hs ins rest hins
      have hpoint : 4 * x.toNat =
          Content.extent .aligned (before.map Declaration.content) := by
        rw [Layout.excess] at hmod
        omega
      have hwell := (Symbols.exists_ofProgram_iff p).mp ⟨s, hs⟩
      rw [hpoint]
      exact Content.ofBytes_at_point hwell.admitted _ hp hins

def Program.withTwinLabels : Program :=
  let here : Location := ⟨"", .start⟩
  ⟨[.label "start" here, .instruction ⟨"NOP", [], here⟩, .label "loop" here, .label "again" here,
    .instruction ⟨"JMP", [⟨.label "loop", here⟩], here⟩]⟩

theorem Image.addresses_separate_withTwinLabels :
    ∃ legacy aligned, Image.ofProgram .legacy .withTwinLabels = .ok legacy ∧
      Image.ofProgram .aligned .withTwinLabels = .ok aligned ∧
      (∃ x y, legacy.labels.find? "start" = some x ∧ legacy.labels.find? "loop" = some y ∧
        x ≤ y ∧ x ≠ y) ∧
      (∃ x y, legacy.labels.find? "loop" = some x ∧ legacy.labels.find? "again" = some y ∧
        x = y) ∧
      (∃ x, legacy.labels.find? "loop" = some x ∧ 4 * x.toNat ≠ legacy.offsetOf 1) ∧
      ∃ x d, aligned.labels.find? "loop" = some x ∧ 4 * x.toNat = aligned.offsetOf 1 ∧
        Decoded.ofBytes .aligned (aligned.bytes.drop (4 * x.toNat)) = .ok d ∧
        d.definition.mnemonic = "JMP" := by
  have hlegacy : Image.ofProgram .legacy .withTwinLabels =
      .ok (Content.image .legacy Program.withTwinLabels.contents) := rfl
  have haligned : Image.ofProgram .aligned .withTwinLabels =
      .ok (Content.image .aligned Program.withTwinLabels.contents) := rfl
  have hdistinct : (Program.withTwinLabels.contents.filterMap Content.declared?).Nodup := by decide
  obtain ⟨hpairs, hpoints⟩ := Image.addresses_separate_points hdistinct hlegacy (by decide)
  obtain ⟨-, htargets⟩ := Image.addresses_separate_points hdistinct haligned (by decide)
  obtain ⟨start, loop, hstart, hloop, hle, hsame⟩ := hpairs [] _ _ [_] _ _ _ rfl
  obtain ⟨twin, again, htwin, hagain, -, halike⟩ := hpairs [_, _] _ _ [] _ _ _ rfl
  obtain ⟨x, hx, hmisses, -⟩ := hpoints [_, _] _ _ _ rfl
  obtain ⟨y, hy, hmeets, hdecodes⟩ := htargets [_, _] _ _ _ rfl
  obtain ⟨d, hd, hjump⟩ := hdecodes rfl _ rfl _ _ rfl
  refine ⟨_, _, hlegacy, haligned, ⟨start, loop, hstart, hloop, hle, ?_⟩,
    ⟨twin, again, htwin, hagain, halike.mpr rfl⟩, ⟨x, hx, ?_⟩,
    y, d, hy, hmeets.mpr (.inl rfl), hd, hjump⟩
  · intro heq
    cases hsame.mp heq
  · intro hmeet
    have hwhole := hmisses.mp hmeet
    revert hwhole
    decide

end FourVin
