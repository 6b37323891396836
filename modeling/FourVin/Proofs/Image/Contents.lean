import FourVin.Image
import FourVin.Proofs.Image.Encoding
import Mathlib.Data.List.Induction

/-!
The image of contents. The code of a content has a length that does not depend on the addresses of
labels, so the layout of an image can be told before any address is known: a content begins where
the sizes of those before it add up to. From the layout follow the addresses of labels, and from
these the bytes and the listing.
-/
namespace FourVin

def Literal.resolve (addressOf : String → UInt32) : Literal → UInt32
  | word w => w
  | address label => addressOf label

/-- The address of a label in a table, zero for one that it does not have. -/
def LabelTable.addressOf (t : LabelTable UInt32) (name : String) : UInt32 :=
  (t.find? name).getD 0

namespace Code

def resolved (addressOf : String → UInt32) (c : Code) : List UInt8 :=
  c.header ++
    match c.literal with
    | none => []
    | some l => Word.toBytes (l.resolve addressOf)

theorem resolved_zero (c : Code) : c.resolved (fun _ => 0) = c.bytes := by
  unfold resolved bytes literalBytes
  cases c.literal with
  | none => rfl
  | some l => cases l <;> rfl

theorem resolved_of_label?_eq_none (addressOf : String → UInt32) {c : Code}
    (h : c.label? = none) : c.resolved addressOf = c.bytes := by
  unfold label? at h
  unfold resolved bytes literalBytes
  cases hl : c.literal with
  | none => rfl
  | some l =>
    cases l with
    | word w => rfl
    | address label => simp [hl] at h

theorem literal_of_label? {c : Code} {label : String} (h : c.label? = some label) :
    c.literal = some (.address label) := by
  unfold label? at h
  split at h
  · next other hl =>
    cases h
    exact hl
  · cases h

end Code

namespace Content

def code (layout : Layout) : Content → Code
  | label _ => ⟨[], none⟩
  | instruction mnemonic values =>
    match InstructionSet.lookup mnemonic with
    | some d => d.code layout values
    | none => ⟨[], none⟩

def Encodable : Content → Prop
  | label _ => True
  | instruction mnemonic values =>
    ∃ d, InstructionSet.lookup mnemonic = some d ∧ d.FitsFrom 0 values

def bytes (layout : Layout) (addressOf : String → UInt32) (c : Content) : List UInt8 :=
  (c.code layout).resolved addressOf

theorem code_of_lookup (layout : Layout) {mnemonic : String} {d : Definition}
    (values : List Value) (h : InstructionSet.lookup mnemonic = some d) :
    (instruction mnemonic values).code layout = d.code layout values := by
  simp only [code, h]

/-- An address is needed where the last literal is a label. -/
theorem label?_code_eq_some {layout : Layout} {c : Content} {name : String}
    (h : (c.code layout).label? = some name) :
    ∃ mnemonic values, c = instruction mnemonic values ∧
      Value.lastLiteral? values = some (.label name) := by
  have hliteral := Code.literal_of_label? h
  cases c with
  | label other => cases hliteral
  | instruction mnemonic values =>
    refine ⟨mnemonic, values, rfl, ?_⟩
    cases hlookup : InstructionSet.lookup mnemonic with
    | none => simp [code, hlookup] at hliteral
    | some d =>
      rw [code_of_lookup layout values hlookup] at hliteral
      obtain ⟨v, hlast, hv⟩ := Option.bind_eq_some_iff.mp hliteral
      cases v with
      | label other =>
        cases hv
        exact hlast
      | _ => cases hv

/-- The bytes of an instruction that needs an address. -/
theorem bytes_of_label (layout : Layout) (addressOf : String → UInt32) {mnemonic name : String}
    {d : Definition} {values : List Value} (hlookup : InstructionSet.lookup mnemonic = some d)
    (hlast : Value.lastLiteral? values = some (.label name)) :
    (instruction mnemonic values).bytes layout addressOf =
      [0, 0, d.opcode, d.optionsFrom 0 values] ++ Word.toBytes (addressOf name) := by
  have hne : values ≠ [] := by
    rintro rfl
    cases hlast
  rw [bytes, code_of_lookup layout values hlookup, Definition.code, hlast, Code.resolved,
    d.header_of_ne_nil layout hne]
  rfl

theorem header_pos_of_label? {layout : Layout} {c : Content} {name : String}
    (h : (c.code layout).label? = some name) : 0 < (c.code layout).header.length := by
  obtain ⟨mnemonic, values, rfl, hlast⟩ := label?_code_eq_some h
  cases hlookup : InstructionSet.lookup mnemonic with
  | none => simp [code, hlookup, Code.label?] at h
  | some d =>
    have hne : values ≠ [] := by
      rintro rfl
      cases hlast
    rw [code_of_lookup layout values hlookup, Definition.code, d.header_of_ne_nil layout hne]
    exact Nat.succ_pos _

def size : Layout → Content → Nat
  | _, label _ => 0
  | .legacy, instruction _ [] => 5
  | .aligned, instruction _ [] => 4
  | _, instruction _ values => if values.any Value.isLiteral then 8 else 4

def extent (layout : Layout) (contents : List Content) : Nat := (contents.map (size layout)).sum

theorem size_of_registers (layout : Layout) {mnemonic : String} {values : List Value}
    (hne : values ≠ []) (h : Value.lastLiteral? values = none) :
    (instruction mnemonic values).size layout = 4 := by
  have hany := Value.lastLiteral?_eq_none_iff.mp h
  cases values with
  | nil => exact absurd rfl hne
  | cons v rest => cases layout <;> simp only [size, hany] <;> rfl

theorem size_of_literal (layout : Layout) {mnemonic : String} {values : List Value} {v : Value}
    (h : Value.lastLiteral? values = some v) :
    (instruction mnemonic values).size layout = 8 := by
  have hany : values.any Value.isLiteral = true := by
    rw [← Bool.not_eq_false, ← Value.lastLiteral?_eq_none_iff, h]
    simp
  cases values with
  | nil => cases hany
  | cons u rest => cases layout <;> simp only [size, hany] <;> rfl

theorem length_bytes (layout : Layout) (addressOf : String → UInt32) {c : Content}
    (h : c.Encodable) : (c.bytes layout addressOf).length = c.size layout := by
  cases c with
  | label name => rfl
  | instruction mnemonic values =>
    obtain ⟨d, hlookup, -⟩ := h
    rw [bytes, code_of_lookup layout values hlookup]
    cases values with
    | nil => cases layout <;> rfl
    | cons v rest =>
      have hheader : (d.header layout (v :: rest)).length = 4 := by
        rw [d.header_of_ne_nil layout (List.cons_ne_nil v rest)]
        rfl
      rw [Code.resolved, Definition.code, List.length_append, hheader]
      cases hlast : Value.lastLiteral? (v :: rest) with
      | none => simp [size_of_registers layout (List.cons_ne_nil v rest) hlast]
      | some w =>
        obtain ⟨l, hl⟩ := Value.exists_literal?_of_lastLiteral? hlast
        simp [size_of_literal layout hlast, hl]

theorem length_flatMap_bytes (layout : Layout) (addressOf : String → UInt32)
    {contents : List Content} (h : ∀ c ∈ contents, c.Encodable) :
    (contents.flatMap (bytes layout addressOf)).length = extent layout contents := by
  rw [List.length_flatMap, extent]
  congr 1
  apply List.map_congr_left
  intro c hc
  exact length_bytes layout addressOf (h c hc)

def enter (t : LabelTable UInt32) (offset : Nat) : Content → LabelTable UInt32
  | label name => t.insert name (UInt32.ofNat (offset / 4))
  | instruction _ _ => t

def labelsFrom (layout : Layout) (t : LabelTable UInt32) (offset : Nat) :
    List Content → LabelTable UInt32
  | [] => t
  | c :: rest => labelsFrom layout (c.enter t offset) (offset + c.size layout) rest

def entries (layout : Layout) (addressOf : String → UInt32) (offset : Nat) :
    Content → List ListingEntry
  | label _ => []
  | instruction mnemonic values =>
    [⟨offset, (instruction mnemonic values).text,
      (instruction mnemonic values).bytes layout addressOf⟩]

def listingFrom (layout : Layout) (addressOf : String → UInt32) (offset : Nat) :
    List Content → List ListingEntry
  | [] => []
  | c :: rest =>
    c.entries layout addressOf offset ++
      listingFrom layout addressOf (offset + c.size layout) rest

theorem extent_cons (layout : Layout) (c : Content) (rest : List Content) :
    extent layout (c :: rest) = c.size layout + extent layout rest := by
  simp [extent]

theorem labelsFrom_concat (layout : Layout) (t : LabelTable UInt32) (offset : Nat)
    (contents : List Content) (c : Content) :
    labelsFrom layout t offset (contents ++ [c]) =
      c.enter (labelsFrom layout t offset contents) (offset + extent layout contents) := by
  induction contents generalizing t offset with
  | nil => simp [labelsFrom, extent]
  | cons b rest ih => simp [labelsFrom, ih, extent_cons, Nat.add_assoc]

theorem listingFrom_concat (layout : Layout) (addressOf : String → UInt32) (offset : Nat)
    (contents : List Content) (c : Content) :
    listingFrom layout addressOf offset (contents ++ [c]) =
      listingFrom layout addressOf offset contents ++
        c.entries layout addressOf (offset + extent layout contents) := by
  induction contents generalizing offset with
  | nil => simp [listingFrom, extent]
  | cons b rest ih => simp [listingFrom, ih, extent_cons, Nat.add_assoc]

def labels (layout : Layout) (contents : List Content) : LabelTable UInt32 :=
  labelsFrom layout .empty 0 contents

/-- The labels of an image are those that its contents declare. -/
theorem contains_labels_iff {layout : Layout} {contents : List Content} {name : String} :
    (labels layout contents).contains name = true ↔ label name ∈ contents := by
  induction contents using List.reverseRecOn with
  | nil => simp [labels, labelsFrom, LabelTable.contains]
  | append_singleton contents c ih =>
    rw [labels, labelsFrom_concat, List.mem_append, ← ih, List.mem_singleton]
    cases c with
    | label other =>
      rw [enter, LabelTable.contains, LabelTable.find?_insert, label.injEq]
      by_cases hname : name = other
      · simp [hname]
      · simp [hname, labels, LabelTable.contains]
    | instruction mnemonic values => simp [enter, labels]

def image (layout : Layout) (contents : List Content) : Image where
  bytes := contents.flatMap (bytes layout (labels layout contents).addressOf)
  labels := labels layout contents
  listing := listingFrom layout (labels layout contents).addressOf 0 contents

/-- Every address that an instruction needs is that of a label of the table. -/
def Resolved (layout : Layout) (t : LabelTable UInt32) (contents : List Content) : Prop :=
  ∀ name ∈ contents.filterMap fun c => (c.code layout).label?, t.contains name = true

end Content

end FourVin
