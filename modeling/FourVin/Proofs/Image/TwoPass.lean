import FourVin.Proofs.Image.Patching
import Mathlib.Data.List.Induction

/-!
Assembling in two passes. The first pass adds up the sizes of instructions and gives every label
the address of its last declaration; the second writes each instruction with all addresses known.
A draft, which writes in one pass and fills holes later, gives the same image, and filling changes
no byte but those of addresses.
-/
namespace FourVin

namespace TwoPass

/-- The word address of the last declaration of a label. -/
def address? (layout : Layout) (contents : List Content) (name : String) : Option UInt32 :=
  match contents.reverse.dropWhile (· ≠ .label name) with
  | [] => none
  | _ :: before => some (UInt32.ofNat (Content.extent layout before.reverse / 4))

def word? (address? : String → Option UInt32) : Value → Option UInt32
  | .register _ => none
  | .integer n => some n
  | .float x => some x.toSingle
  | .label name => address? name

def code? (layout : Layout) (address? : String → Option UInt32) : Content → Option (List UInt8)
  | .label _ => some []
  | .instruction mnemonic values => do
    let d ← InstructionSet.lookup mnemonic
    match Value.lastLiteral? values with
    | none => return d.header layout values
    | some v =>
      let w ← word? address? v
      return d.header layout values ++ Word.toBytes w

def bytes? (layout : Layout) (contents : List Content) : Option (List UInt8) := do
  let codes ← contents.mapM (code? layout (address? layout contents))
  return codes.flatten

theorem address?_concat (layout : Layout) (contents : List Content) (c : Content)
    (name : String) :
    address? layout (contents ++ [c]) name =
      if c = .label name then some (UInt32.ofNat (Content.extent layout contents / 4))
      else address? layout contents name := by
  unfold address?
  rw [List.reverse_append, List.reverse_singleton, List.singleton_append, List.dropWhile_cons]
  by_cases hc : c = .label name
  · simp [hc]
  · simp [hc]

/-- The addresses of the labels of an image are those of the first pass. -/
theorem find?_labels (layout : Layout) (contents : List Content) (name : String) :
    (Content.labels layout contents).find? name = address? layout contents name := by
  induction contents using List.reverseRecOn with
  | nil => rfl
  | append_singleton contents c ih =>
    rw [Content.labels, Content.labelsFrom_concat, address?_concat, Nat.zero_add, ← ih]
    cases c with
    | label other =>
      rw [Content.enter, LabelTable.find?_insert]
      simp only [Content.label.injEq, eq_comm]
      rfl
    | instruction mnemonic values => simp [Content.enter, Content.labels]

theorem nodup_labels (layout : Layout) (contents : List Content) :
    (Content.labels layout contents).names.Nodup := by
  induction contents using List.reverseRecOn with
  | nil => exact List.nodup_nil
  | append_singleton contents c ih =>
    rw [Content.labels, Content.labelsFrom_concat]
    cases c with
    | label name => exact LabelTable.nodup_names_insert _ _ _ ih
    | instruction mnemonic values => exact ih

theorem mapM_eq_some {α β : Type} {f : α → Option β} {g : α → β} {xs : List α}
    (h : ∀ x ∈ xs, f x = some (g x)) : xs.mapM f = some (xs.map g) := by
  induction xs with
  | nil => rfl
  | cons x rest ih =>
    obtain ⟨hx, hrest⟩ := List.forall_mem_cons.mp h
    rw [List.mapM_cons, hx, ih hrest]
    rfl

theorem code?_eq_some {layout : Layout} {address? : String → Option UInt32}
    {addressOf : String → UInt32} {c : Content} (hc : c.Encodable)
    (haddress : ∀ name, (c.code layout).label? = some name →
      address? name = some (addressOf name)) :
    code? layout address? c = some (c.bytes layout addressOf) := by
  cases c with
  | label name => rfl
  | instruction mnemonic values =>
    obtain ⟨d, hlookup, -⟩ := hc
    have hcode := Content.code_of_lookup layout values hlookup
    rw [hcode] at haddress
    rw [Content.bytes, hcode, Code.resolved, code?, hlookup, Option.bind_eq_bind,
      Option.bind_some]
    unfold Definition.code Code.label? at haddress
    unfold Definition.code
    cases hlast : Value.lastLiteral? values with
    | none => simp
    | some v =>
      cases v with
      | register r =>
        obtain ⟨l, hl⟩ := Value.exists_literal?_of_lastLiteral? hlast
        cases hl
      | integer n => rfl
      | float x => rfl
      | label name =>
        have hname := haddress name (by simp [hlast, Value.literal?])
        simp [word?, hname, Value.literal?, Literal.resolve]

theorem bytes?_eq_some {layout : Layout} {contents : List Content}
    (hencodable : ∀ c ∈ contents, c.Encodable)
    (hresolved : Content.Resolved layout (Content.labels layout contents) contents) :
    bytes? layout contents = some (Content.image layout contents).bytes := by
  have hcode : ∀ c ∈ contents, code? layout (address? layout contents) c =
      some (c.bytes layout (Content.labels layout contents).addressOf) := by
    intro c hc
    apply code?_eq_some (hencodable c hc)
    intro name hname
    have hcontains := hresolved name (List.mem_filterMap.mpr ⟨c, hc, hname⟩)
    obtain ⟨address, haddress⟩ := Option.isSome_iff_exists.mp hcontains
    rw [← find?_labels, LabelTable.addressOf, haddress]
    rfl
  rw [bytes?, mapM_eq_some hcode, Content.image, List.flatMap_def]
  rfl

/-- A byte of one content that depends on addresses is one of the word behind the header, and this
word is that of a label. -/
theorem label_of_getElem?_ne {layout : Layout} {c : Content} (hc : c.Encodable)
    {a b : String → UInt32} {i : Nat}
    (h : (c.bytes layout a)[i]? ≠ (c.bytes layout b)[i]?) :
    ∃ mnemonic values name, c = .instruction mnemonic values ∧
      Value.lastLiteral? values = some (.label name) ∧ 4 ≤ i ∧ i < 8 := by
  cases hlabel : (c.code layout).label? with
  | none =>
    rw [Content.bytes, Content.bytes, Code.resolved_of_label?_eq_none a hlabel,
      Code.resolved_of_label?_eq_none b hlabel] at h
    exact absurd rfl h
  | some name =>
    obtain ⟨mnemonic, values, rfl, hlast⟩ := Content.label?_code_eq_some hlabel
    obtain ⟨d, hlookup, -⟩ := hc
    rw [Content.bytes_of_label layout a hlookup hlast,
      Content.bytes_of_label layout b hlookup hlast] at h
    refine ⟨mnemonic, values, name, rfl, hlast, ?_, ?_⟩
    · by_contra hi
      apply h
      rw [List.getElem?_append_left (by simp; omega), List.getElem?_append_left (by simp; omega)]
    · by_contra hi
      apply h
      rw [List.getElem?_eq_none (by simp; omega), List.getElem?_eq_none (by simp; omega)]

/-- Bytes that depend on the addresses of labels lie in the words of labels. -/
theorem exists_label_word {layout : Layout} {contents : List Content}
    (hcontents : ∀ c ∈ contents, c.Encodable) {a b : String → UInt32} {i : Nat}
    (h : (contents.flatMap (Content.bytes layout a))[i]? ≠
      (contents.flatMap (Content.bytes layout b))[i]?) :
    ∃ before mnemonic values after name,
      contents = before ++ .instruction mnemonic values :: after ∧
      Value.lastLiteral? values = some (.label name) ∧
      Content.extent layout before + 4 ≤ i ∧ i < Content.extent layout before + 8 := by
  induction contents generalizing i with
  | nil => exact absurd rfl h
  | cons c rest ih =>
    obtain ⟨hc, hrest⟩ := List.forall_mem_cons.mp hcontents
    have hlength := fun x => Content.length_bytes layout x hc
    rw [List.flatMap_cons, List.flatMap_cons] at h
    -- The byte lies in the first content or in those behind it.
    by_cases hi : i < c.size layout
    · rw [List.getElem?_append_left (by rw [hlength]; exact hi),
        List.getElem?_append_left (by rw [hlength]; exact hi)] at h
      obtain ⟨mnemonic, values, name, rfl, hlast, hlow, hhigh⟩ := label_of_getElem?_ne hc h
      exact ⟨[], mnemonic, values, rest, name, rfl, hlast, by simpa [Content.extent] using hlow,
        by simpa [Content.extent] using hhigh⟩
    · rw [List.getElem?_append_right (by rw [hlength]; omega),
        List.getElem?_append_right (by rw [hlength]; omega), hlength, hlength] at h
      obtain ⟨before, mnemonic, values, after, name, heq, hlast, hlow, hhigh⟩ := ih hrest h
      refine ⟨c :: before, mnemonic, values, after, name, by rw [heq]; rfl, hlast, ?_, ?_⟩
      · rw [Content.extent_cons]
        omega
      · rw [Content.extent_cons]
        omega

end TwoPass

/-- An image is the one of two passes: its labels have the addresses of their last declarations, its
bytes are those of the instructions with these addresses, and filling the holes of the draft changed
nothing but the words of labels. -/
theorem Image.ofProgram_eq_twoPass {layout : Layout} {p : Program} {image : Image}
    (h : Image.ofProgram layout p = .ok image) :
    (∀ name, image.labels.find? name = TwoPass.address? layout p.contents name) ∧
      image.labels.names.Nodup ∧
      TwoPass.bytes? layout p.contents = some image.bytes ∧
      ∃ draft, Draft.ofProgram layout p = .ok draft ∧
        draft.bytes.size = image.bytes.length ∧
        ∀ i, image.bytes[i]? ≠ draft.bytes[i]? →
          ∃ before mnemonic values after name,
            p.contents = before ++ .instruction mnemonic values :: after ∧
            Value.lastLiteral? values = some (.label name) ∧
            Content.extent layout before + 4 ≤ i ∧ i < Content.extent layout before + 8 := by
  obtain ⟨draft, hdraft, -⟩ := bind_eq_ok_iff.mp h
  have hholds := Draft.holds_of_ofProgram hdraft
  obtain ⟨hencodable, hresolved, rfl⟩ := Image.ofProgram_eq_ok_iff.mp h
  refine ⟨TwoPass.find?_labels layout _, TwoPass.nodup_labels layout _,
    TwoPass.bytes?_eq_some hencodable hresolved, draft, hdraft, ?_, ?_⟩
  · rw [hholds.size]
    exact (Content.length_flatMap_bytes layout _ hencodable).symm
  · intro i hi
    rw [← Array.getElem?_toList, hholds.bytes] at hi
    exact TwoPass.exists_label_word hencodable hi

/-- A program with a label that is used before its declaration, one that is declared twice, and a
literal that does not count. -/
def Program.withForwardLabel : Program :=
  let here : Location := ⟨"", .start⟩
  ⟨[.instruction ⟨"NOP", [], here⟩, .label "a" here,
    .instruction ⟨"JMP", [⟨.label "b", here⟩], here⟩, .label "b" here,
    .instruction ⟨"MOV", [⟨.integer 7, here⟩, ⟨.label "a", here⟩], here⟩, .label "a" here,
    .instruction ⟨"STOP", [], here⟩]⟩

theorem Image.ofProgram_withForwardLabel :
    ∃ image, Image.ofProgram .legacy .withForwardLabel = .ok image ∧
      image.labels.find? "a" = some 5 ∧
      TwoPass.bytes? .legacy Program.withForwardLabel.contents = some image.bytes ∧
      image.bytes = [0, 0, 0, 0, 0, 0, 0, 0x40, 2, 0, 0, 0, 3, 0, 0, 2, 2, 0, 0, 0, 5,
        0, 0, 0xFF, 0, 0] := by
  have himage : Image.ofProgram .legacy .withForwardLabel =
      .ok (Content.image .legacy Program.withForwardLabel.contents) := rfl
  obtain ⟨hlabels, -, hbytes, -⟩ := Image.ofProgram_eq_twoPass himage
  exact ⟨_, himage, (hlabels "a").trans rfl, hbytes, rfl⟩

end FourVin
