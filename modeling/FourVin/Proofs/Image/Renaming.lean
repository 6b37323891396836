import FourVin.Proofs.Image.Contents
import FourVin.Proofs.Symbols.Renaming

/-!
What the name of a label does in an image. The code of an instruction holds the name in place of an
address, and the address is found under the name in the label table. As long as different labels
keep different names, the table is renamed along with them, every address is found as before, and
the bytes are the same.
-/
namespace FourVin

namespace LabelTable

variable {α : Type}

def rename (f : String → String) (t : LabelTable α) : LabelTable α :=
  ⟨t.entries.map fun e => (f e.1, e.2)⟩

variable {f : String → String} {N : Set String} {t : LabelTable α} {name : String}

theorem find?_rename (hf : Set.InjOn f N) (ht : ∀ name ∈ t.names, name ∈ N) (hname : name ∈ N) :
    (t.rename f).find? (f name) = t.find? name := by
  obtain ⟨entries⟩ := t
  simp only [rename, find?]
  induction entries with
  | nil => rfl
  | cons e rest ih =>
    obtain ⟨key, value⟩ := e
    obtain ⟨hkey, hrest⟩ := List.forall_mem_cons.mp ht
    have heq : (f name == f key) = (name == key) := by
      rw [Bool.eq_iff_iff, beq_iff_eq, beq_iff_eq]
      exact hf.eq_iff hname hkey
    rw [List.map_cons, List.lookup_cons, List.lookup_cons, heq, ih hrest]

theorem rename_insert (hf : Set.InjOn f N) (ht : ∀ name ∈ t.names, name ∈ N) (hname : name ∈ N)
    (value : α) : (t.insert name value).rename f = (t.rename f).insert (f name) value := by
  have hfilter : ((t.entries.map fun e => (f e.1, e.2)).filter fun e => e.1 ≠ f name) =
      (t.entries.filter fun e => e.1 ≠ name).map fun e => (f e.1, e.2) := by
    rw [List.filter_map]
    congr 1
    apply List.filter_congr
    intro e he
    have hkey : e.1 ∈ N := ht e.1 (List.mem_map_of_mem he)
    simp [hf.eq_iff hkey hname]
  rw [rename, insert, insert, rename, hfilter, List.map_append]
  rfl

theorem addressOf_rename {t : LabelTable UInt32} (hf : Set.InjOn f N)
    (ht : ∀ name ∈ t.names, name ∈ N) (hname : name ∈ N) :
    (t.rename f).addressOf (f name) = t.addressOf name := by
  rw [addressOf, find?_rename hf ht hname, addressOf]

end LabelTable

def Literal.rename (f : String → String) : Literal → Literal
  | word w => word w
  | address label => address (f label)

def Code.rename (f : String → String) (c : Code) : Code := ⟨c.header, c.literal.map (.rename f)⟩

namespace Value

variable (f : String → String)

@[simp] theorem isLiteral_rename (v : Value) : (v.rename f).isLiteral = v.isLiteral := by
  cases v <;> rfl

@[simp] theorem registerCode_rename (v : Value) : (v.rename f).registerCode = v.registerCode := by
  cases v <;> rfl

theorem literal?_rename (v : Value) : (v.rename f).literal? = v.literal?.map (.rename f) := by
  cases v <;> rfl

theorem any_isLiteral_rename (values : List Value) :
    (values.map (rename f)).any isLiteral = values.any isLiteral := by
  simp [List.any_map, Function.comp_def]

theorem lastLiteral?_rename (values : List Value) :
    lastLiteral? (values.map (rename f)) = (lastLiteral? values).map (rename f) := by
  simp [lastLiteral?, List.filter_map, Function.comp_def]

end Value

namespace Definition

variable (d : Definition) (f : String → String)

theorem slotCode_rename (slot position : Nat) (values : List Value) :
    d.slotCode slot position (values.map (Value.rename f)) = d.slotCode slot position values := by
  induction values generalizing position with
  | nil => rfl
  | cons v rest ih => simp [slotCode, ih]

theorem optionsFrom_rename (position : Nat) (values : List Value) :
    d.optionsFrom position (values.map (Value.rename f)) = d.optionsFrom position values := by
  simp only [optionsFrom, slotCode_rename, Value.any_isLiteral_rename]

theorem header_rename (layout : Layout) (values : List Value) :
    d.header layout (values.map (Value.rename f)) = d.header layout values := by
  cases values with
  | nil => rfl
  | cons v rest =>
    rw [header_of_ne_nil _ _ (List.cons_ne_nil v rest), header_of_ne_nil _ _ (by simp),
      optionsFrom_rename]

theorem code_rename (layout : Layout) (values : List Value) :
    d.code layout (values.map (Value.rename f)) = (d.code layout values).rename f := by
  simp only [code, Code.rename, header_rename, Value.lastLiteral?_rename]
  cases Value.lastLiteral? values with
  | none => rfl
  | some v => simp [Value.literal?_rename]

end Definition

/-- The bytes are the same where the renamed label has the address of the label. -/
theorem Code.resolved_rename {f : String → String} {addressOf renamedAddressOf : String → UInt32}
    {c : Code}
    (h : ∀ name, c.label? = some name → renamedAddressOf (f name) = addressOf name) :
    (c.rename f).resolved renamedAddressOf = c.resolved addressOf := by
  obtain ⟨header, literal⟩ := c
  cases literal with
  | none => rfl
  | some l =>
    cases l with
    | word w => rfl
    | address name => simp [rename, Literal.rename, resolved, Literal.resolve, h name rfl]

def ListingEntry.SameCode (x y : ListingEntry) : Prop := y.offset = x.offset ∧ y.bytes = x.bytes

/-- The images agree but for the names of labels, which are changed in the table and may change in
the texts of the listing. -/
structure Image.Renamed (f : String → String) (image other : Image) : Prop where
  bytes : other.bytes = image.bytes
  labels : other.labels = image.labels.rename f
  listing : List.Forall₂ ListingEntry.SameCode image.listing other.listing

namespace Content

variable {f : String → String} {N : Set String} {layout : Layout}

theorem code_rename (f : String → String) (layout : Layout) (c : Content) :
    (c.rename f).code layout = (c.code layout).rename f := by
  cases c with
  | label name => rfl
  | instruction mnemonic values =>
    simp only [rename, code]
    cases InstructionSet.lookup mnemonic with
    | none => rfl
    | some d => exact d.code_rename f layout values

theorem size_rename (f : String → String) (layout : Layout) (c : Content) :
    (c.rename f).size layout = c.size layout := by
  cases c with
  | label name => rfl
  | instruction mnemonic values =>
    cases values with
    | nil => cases layout <;> rfl
    | cons v rest =>
      have hany := Value.any_isLiteral_rename f (v :: rest)
      simp only [List.map_cons] at hany
      cases layout <;> simp only [rename, size, List.map_cons, hany]

/-- The label whose address a content needs is one that it uses. -/
theorem mem_names_of_label? {c : Content} {name : String}
    (h : (c.code layout).label? = some name) : name ∈ c.names := by
  obtain ⟨mnemonic, values, rfl, hlast⟩ := label?_code_eq_some h
  have hmem : .label name ∈ values := (List.mem_filter.mp (List.mem_of_getLast? hlast)).1
  exact List.mem_append_right _ (List.mem_filterMap.mpr ⟨_, hmem, rfl⟩)

section Addresses

variable {addressOf renamedAddressOf : String → UInt32}
  (haddress : ∀ name ∈ N, renamedAddressOf (f name) = addressOf name)

include haddress

theorem bytes_rename {c : Content} (hnames : ∀ name ∈ c.names, name ∈ N) :
    (c.rename f).bytes layout renamedAddressOf = c.bytes layout addressOf := by
  rw [bytes, code_rename]
  apply Code.resolved_rename
  intro name hname
  exact haddress name (hnames name (mem_names_of_label? hname))

theorem flatMap_bytes_rename {contents : List Content}
    (hnames : ∀ c ∈ contents, ∀ name ∈ c.names, name ∈ N) :
    (contents.map (rename f)).flatMap (bytes layout renamedAddressOf) =
      contents.flatMap (bytes layout addressOf) := by
  rw [List.flatMap_map]
  exact List.flatMap_congr fun c hc => bytes_rename haddress (hnames c hc)

theorem entries_rename {c : Content} (hnames : ∀ name ∈ c.names, name ∈ N) (offset : Nat) :
    List.Forall₂ ListingEntry.SameCode (c.entries layout addressOf offset)
      ((c.rename f).entries layout renamedAddressOf offset) := by
  cases c with
  | label name => exact .nil
  | instruction mnemonic values =>
    exact .cons ⟨rfl, bytes_rename haddress hnames⟩ .nil

theorem listingFrom_rename {contents : List Content}
    (hnames : ∀ c ∈ contents, ∀ name ∈ c.names, name ∈ N) (offset : Nat) :
    List.Forall₂ ListingEntry.SameCode (listingFrom layout addressOf offset contents)
      (listingFrom layout renamedAddressOf offset (contents.map (rename f))) := by
  induction contents generalizing offset with
  | nil => exact .nil
  | cons c rest ih =>
    obtain ⟨hc, hrest⟩ := List.forall_mem_cons.mp hnames
    simp only [List.map_cons, listingFrom, size_rename]
    exact List.rel_append (entries_rename haddress hc offset) (ih hrest _)

end Addresses

/-- A content enters the renamed table under its new name. -/
theorem enter_rename (hf : Set.InjOn f N) {t : LabelTable UInt32}
    (ht : ∀ name ∈ t.names, name ∈ N) {c : Content} (hc : ∀ name ∈ c.names, name ∈ N)
    (offset : Nat) : (c.rename f).enter (t.rename f) offset = (c.enter t offset).rename f := by
  cases c with
  | label name =>
    exact (LabelTable.rename_insert hf ht (hc name (by simp [names, declared?])) _).symm
  | instruction mnemonic values => rfl

theorem names_enter {t : LabelTable UInt32} (ht : ∀ name ∈ t.names, name ∈ N) {c : Content}
    (hc : ∀ name ∈ c.names, name ∈ N) (offset : Nat) :
    ∀ name ∈ (c.enter t offset).names, name ∈ N := by
  cases c with
  | label name =>
    intro other hother
    rw [enter, LabelTable.names_insert, List.mem_append, List.mem_singleton] at hother
    rcases hother with hother | rfl
    · exact ht other (List.mem_filter.mp hother).1
    · exact hc other (by simp [names, declared?])
  | instruction mnemonic values => exact ht

theorem labelsFrom_rename (hf : Set.InjOn f N) {t : LabelTable UInt32}
    (ht : ∀ name ∈ t.names, name ∈ N) {contents : List Content}
    (hnames : ∀ c ∈ contents, ∀ name ∈ c.names, name ∈ N) (offset : Nat) :
    labelsFrom layout (t.rename f) offset (contents.map (rename f)) =
      (labelsFrom layout t offset contents).rename f := by
  induction contents generalizing t offset with
  | nil => rfl
  | cons c rest ih =>
    obtain ⟨hc, hrest⟩ := List.forall_mem_cons.mp hnames
    simp only [List.map_cons, labelsFrom, size_rename, enter_rename hf ht hc]
    exact ih (names_enter ht hc offset) hrest _

theorem names_labels {contents : List Content}
    (hnames : ∀ c ∈ contents, ∀ name ∈ c.names, name ∈ N) :
    ∀ name ∈ (labels layout contents).names, name ∈ N := by
  intro name hname
  have hlabel := contains_labels_iff.mp ((LabelTable.contains_iff _ _).mpr hname)
  exact hnames _ hlabel name (by simp [names, declared?])

/-- The image of contents with their labels renamed is that of the contents, with its labels
renamed. -/
theorem renamed_image (hf : Set.InjOn f N) (layout : Layout) {contents : List Content}
    (hnames : ∀ c ∈ contents, ∀ name ∈ c.names, name ∈ N) :
    (image layout contents).Renamed f (image layout (contents.map (rename f))) := by
  have hempty : ∀ name ∈ (LabelTable.empty : LabelTable UInt32).names, name ∈ N := nofun
  have hlabels : labels layout (contents.map (rename f)) = (labels layout contents).rename f :=
    labelsFrom_rename hf hempty hnames 0
  have haddress : ∀ name ∈ N, (labels layout (contents.map (rename f))).addressOf (f name) =
      (labels layout contents).addressOf name := by
    intro name hname
    rw [hlabels, LabelTable.addressOf_rename hf (names_labels hnames) hname]
  exact {
    bytes := flatMap_bytes_rename haddress hnames
    labels := hlabels
    listing := listingFrom_rename haddress hnames 0
  }

end Content

end FourVin
