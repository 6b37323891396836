import FourVin.Proofs.Image.Listing

/-!
Images of programs that are put together. An image that stands behind a whole number of words of
other code is rebased: the words that stand for labels, the addresses of labels and the offsets of
the listing grow by the size of that code, and nothing else changes. If two programs declare no
label in common, neither finds a label of the other, and the image of both together is that of the
first followed by the rebased image of the second.
-/
namespace FourVin

/-- The code of an instruction with `words` added to its address, if it has one. -/
def Instruction.rebase (words : UInt32) (ins : Instruction) (code : List UInt8) : List UInt8 :=
  match Value.lastLiteral? ins.values with
  | some (.label _) =>
    code.take 4 ++ (Word.ofByteList (code.drop 4)).flatMap fun w => Word.toBytes (w + words)
  | _ => code

def Instruction.rebaseAll (layout : Layout) (words : UInt32) :
    List Instruction → List UInt8 → List UInt8
  | [], code => code
  | ins :: rest, code =>
    ins.rebase words (code.take (ins.content.size layout)) ++
      rebaseAll layout words rest (code.drop (ins.content.size layout))

def ListingEntry.rebase (words : Nat) (ins : Instruction) (e : ListingEntry) : ListingEntry :=
  ⟨e.offset + 4 * words, e.text, ins.rebase (UInt32.ofNat words) e.bytes⟩

namespace LabelTable

def rebase (words : UInt32) (t : LabelTable UInt32) : LabelTable UInt32 :=
  ⟨t.entries.map fun e => (e.1, e.2 + words)⟩

def append (s t : LabelTable UInt32) : LabelTable UInt32 := ⟨s.entries ++ t.entries⟩

end LabelTable

namespace Image

/-- The image of a program behind `words` words of other code. -/
def rebase (layout : Layout) (words : Nat) (p : Program) (image : Image) : Image where
  bytes := Instruction.rebaseAll layout (UInt32.ofNat words) p.instructions image.bytes
  labels := image.labels.rebase (UInt32.ofNat words)
  listing := List.zipWith (ListingEntry.rebase words) p.instructions image.listing

def append (a b : Image) : Image where
  bytes := a.bytes ++ b.bytes
  labels := a.labels.append b.labels
  listing := a.listing ++ b.listing

end Image

def Program.append (p q : Program) : Program := ⟨p.declarations ++ q.declarations⟩

namespace LabelTable

variable {s t : LabelTable UInt32} {name : String}

theorem find?_rebase (words : UInt32) (t : LabelTable UInt32) (name : String) :
    (t.rebase words).find? name = (t.find? name).map (· + words) := by
  obtain ⟨entries⟩ := t
  simp only [rebase, find?]
  induction entries with
  | nil => rfl
  | cons e rest ih =>
    rw [List.map_cons, List.lookup_cons, List.lookup_cons, ih]
    cases name == e.1 <;> rfl

theorem find?_append (s t : LabelTable UInt32) (name : String) :
    (s.append t).find? name = (s.find? name).or (t.find? name) :=
  List.lookup_append

/-- A name that the first table does not have is inserted into the second. -/
theorem insert_append (h : name ∉ s.names) (value : UInt32) :
    (s.append t).insert name value = s.append (t.insert name value) := by
  have hs : s.entries.filter (fun e => e.1 ≠ name) = s.entries := by
    apply List.filter_eq_self.mpr
    intro e he
    rw [decide_eq_true_eq]
    rintro rfl
    exact h (List.mem_map_of_mem he)
  rw [insert, append, List.filter_append, hs, List.append_assoc]
  rfl

theorem insert_rebase (words : UInt32) (t : LabelTable UInt32) (name : String) (value : UInt32) :
    (t.rebase words).insert name (value + words) = (t.insert name value).rebase words := by
  simp [insert, rebase, List.filter_map, Function.comp_def]

theorem contains_append (s t : LabelTable UInt32) (name : String) :
    (s.append t).contains name = (s.contains name || t.contains name) := by
  rw [contains, find?_append, Option.isSome_or]
  rfl

theorem contains_rebase (words : UInt32) (t : LabelTable UInt32) (name : String) :
    (t.rebase words).contains name = t.contains name := by
  rw [contains, find?_rebase, Option.isSome_map]
  rfl

theorem addressOf_append_left (h : s.contains name = true) :
    (s.append t).addressOf name = s.addressOf name := by
  obtain ⟨address, haddress⟩ := Option.isSome_iff_exists.mp h
  rw [addressOf, addressOf, find?_append, haddress]
  rfl

theorem addressOf_append_rebase {words : UInt32} (hs : name ∉ s.names)
    (ht : t.contains name = true) :
    (s.append (t.rebase words)).addressOf name = t.addressOf name + words := by
  obtain ⟨address, haddress⟩ := Option.isSome_iff_exists.mp ht
  rw [addressOf, addressOf, find?_append, (find?_eq_none_iff s name).mpr hs, find?_rebase, haddress]
  rfl

end LabelTable

/-- Bytes depend on an address only where a label is needed. -/
theorem Code.resolved_congr {a b : String → UInt32} {c : Code}
    (h : ∀ name, c.label? = some name → a name = b name) : c.resolved a = c.resolved b := by
  obtain ⟨header, literal⟩ := c
  cases literal with
  | none => rfl
  | some l =>
    cases l with
    | word w => rfl
    | address name => simp [resolved, Literal.resolve, h name rfl]

namespace Content

variable {layout : Layout}

/-- A size in whole words is a number of words to add to an address. -/
theorem ofNat_offset_div (words offset : Nat) :
    UInt32.ofNat ((4 * words + offset) / 4) = UInt32.ofNat (offset / 4) + UInt32.ofNat words := by
  rw [← UInt32.ofNat_add]
  congr 1
  omega

theorem labelsFrom_append (layout : Layout) (t : LabelTable UInt32) (offset : Nat)
    (front behind : List Content) :
    labelsFrom layout t offset (front ++ behind) =
      labelsFrom layout (labelsFrom layout t offset front) (offset + extent layout front)
        behind := by
  induction front generalizing t offset with
  | nil => rfl
  | cons c rest ih => simp [labelsFrom, ih, extent_cons, Nat.add_assoc]

/-- Contents behind other code enter their labels behind those of that code, rebased. -/
theorem labelsFrom_rebase (layout : Layout) {s : LabelTable UInt32} {contents : List Content}
    (h : ∀ name, label name ∈ contents → name ∉ s.names) (t : LabelTable UInt32)
    (words offset : Nat) :
    labelsFrom layout (s.append (t.rebase (UInt32.ofNat words))) (4 * words + offset) contents =
      s.append ((labelsFrom layout t offset contents).rebase (UInt32.ofNat words)) := by
  induction contents generalizing t offset with
  | nil => rfl
  | cons c rest ih =>
    have henter : c.enter (s.append (t.rebase (UInt32.ofNat words))) (4 * words + offset) =
        s.append ((c.enter t offset).rebase (UInt32.ofNat words)) := by
      cases c with
      | label name =>
        have hname : name ∉ s.names := h name (by simp)
        rw [enter, enter, ofNat_offset_div, LabelTable.insert_append hname,
          LabelTable.insert_rebase]
      | instruction mnemonic values => rfl
    have hrest : ∀ name, label name ∈ rest → name ∉ s.names :=
      fun name hname => h name (List.mem_cons_of_mem c hname)
    rw [labelsFrom, henter, Nat.add_assoc, ih hrest, labelsFrom]

/-- The labels of both parts, those of the second rebased. -/
theorem labels_append {front behind : List Content} {words : Nat}
    (hwords : extent layout front = 4 * words)
    (h : ∀ name, label name ∈ behind → name ∉ (labels layout front).names) :
    labels layout (front ++ behind) =
      (labels layout front).append ((labels layout behind).rebase (UInt32.ofNat words)) := by
  have hempty : (labels layout front).append (LabelTable.empty.rebase (UInt32.ofNat words)) =
      labels layout front := congrArg LabelTable.mk (List.append_nil _)
  have hbehind := labelsFrom_rebase layout h LabelTable.empty words 0
  rw [hempty] at hbehind
  rw [labels, labelsFrom_append, Nat.zero_add, hwords]
  exact hbehind

end Content

namespace Instruction

variable {layout : Layout} {words : UInt32} {a b : String → UInt32}

/-- Where the addresses that it needs grow by `words`, so does the word of an instruction. -/
theorem bytes_rebase {ins : Instruction} (h : ins.content.Encodable)
    (haddress : ∀ name, (ins.content.code layout).label? = some name → b name = a name + words) :
    ins.content.bytes layout b = ins.rebase words (ins.content.bytes layout a) := by
  cases hlabel : (ins.content.code layout).label? with
  | none =>
    have hknown : ∀ name, Value.lastLiteral? ins.values ≠ some (.label name) := by
      intro name hlast
      obtain ⟨d, hlookup, -⟩ := h
      have hcode : ins.content.code layout = d.code layout ins.values :=
        Content.code_of_lookup layout ins.values hlookup
      simp [hcode, Definition.code, hlast, Value.literal?, Code.label?] at hlabel
    have hsame : ins.rebase words (ins.content.bytes layout a) = ins.content.bytes layout a := by
      unfold rebase
      split
      · next name hlast => exact absurd hlast (hknown name)
      · rfl
    rw [hsame]
    apply Code.resolved_congr
    intro name hname
    rw [hlabel] at hname
    cases hname
  | some name =>
    obtain ⟨mnemonic, values, heq, hlast⟩ := Content.label?_code_eq_some hlabel
    cases heq
    obtain ⟨d, hlookup, -⟩ := h
    have hbytes : ∀ addressOf, ins.content.bytes layout addressOf =
        [0, 0, d.opcode, d.optionsFrom 0 ins.values] ++ Word.toBytes (addressOf name) := by
      intro addressOf
      exact Content.bytes_of_label layout addressOf hlookup hlast
    have hword : Word.ofByteList (Word.toBytes (a name)) = [a name] := by
      have h := Word.ofByteList_toBytes_append (a name) []
      rwa [List.append_nil] at h
    rw [hbytes, hbytes, haddress name hlabel]
    simp [rebase, hlast, hword]

section

variable {ds : List Declaration} (h : ∀ d ∈ ds, d.content.Encodable)
  (haddress : ∀ d ∈ ds, ∀ name, (d.content.code layout).label? = some name →
    b name = a name + words)

include h haddress

theorem rebaseAll_flatMap_bytes :
    rebaseAll layout words (Program.mk ds).instructions
        ((ds.map Declaration.content).flatMap (Content.bytes layout a)) =
      (ds.map Declaration.content).flatMap (Content.bytes layout b) := by
  induction ds with
  | nil => rfl
  | cons d rest ih =>
    obtain ⟨hd, hrest⟩ := List.forall_mem_cons.mp h
    obtain ⟨hdaddress, hrestaddress⟩ := List.forall_mem_cons.mp haddress
    cases d with
    | label name location => exact ih hrest hrestaddress
    | instruction ins =>
      have hlength : ins.content.size layout = (ins.content.bytes layout a).length :=
        (Content.length_bytes layout a hd).symm
      have hfirst : ins.content.bytes layout b =
          ins.rebase words (ins.content.bytes layout a) := bytes_rebase hd hdaddress
      rw [Program.instructions_instruction, rebaseAll, List.map_cons,
        show (Declaration.instruction ins).content = ins.content from rfl, List.flatMap_cons,
        List.flatMap_cons, hlength, List.take_left, List.drop_left, ih hrest hrestaddress, hfirst]

end

section

variable {words : Nat} {ds : List Declaration} (h : ∀ d ∈ ds, d.content.Encodable)
  (haddress : ∀ d ∈ ds, ∀ name, (d.content.code layout).label? = some name →
    b name = a name + UInt32.ofNat words)

include h haddress

theorem zipWith_rebase_listingFrom (offset : Nat) :
    List.zipWith (ListingEntry.rebase words) (Program.mk ds).instructions
        (Content.listingFrom layout a offset (ds.map Declaration.content)) =
      Content.listingFrom layout b (4 * words + offset) (ds.map Declaration.content) := by
  induction ds generalizing offset with
  | nil => rfl
  | cons d rest ih =>
    obtain ⟨hd, hrest⟩ := List.forall_mem_cons.mp h
    obtain ⟨hdaddress, hrestaddress⟩ := List.forall_mem_cons.mp haddress
    cases d with
    | label name location => exact ih hrest hrestaddress offset
    | instruction ins =>
      have hfirst : ins.content.bytes layout b =
          ins.rebase (UInt32.ofNat words) (ins.content.bytes layout a) :=
        bytes_rebase hd hdaddress
      have hentries : ∀ addressOf offset,
          (Declaration.instruction ins).content.entries layout addressOf offset =
            [⟨offset, ins.content.text, ins.content.bytes layout addressOf⟩] := fun _ _ => rfl
      rw [Program.instructions_instruction, List.map_cons, Content.listingFrom,
        Content.listingFrom, hentries, hentries, List.singleton_append, List.singleton_append,
        List.zipWith_cons_cons, ih hrest hrestaddress, hfirst, ListingEntry.rebase, Nat.add_assoc,
        Nat.add_comm offset]

end

end Instruction

namespace Content

variable {layout : Layout} {s t : LabelTable UInt32} {contents : List Content}

/-- Contents that find all their labels in the first table do not see the second. -/
theorem bytes_append_left (h : Resolved layout s contents) {c : Content} (hc : c ∈ contents) :
    c.bytes layout (s.append t).addressOf = c.bytes layout s.addressOf := by
  apply Code.resolved_congr
  intro name hname
  exact LabelTable.addressOf_append_left (h name (List.mem_filterMap.mpr ⟨c, hc, hname⟩))

theorem listingFrom_congr {a b : String → UInt32}
    (h : ∀ c ∈ contents, c.bytes layout a = c.bytes layout b) (offset : Nat) :
    listingFrom layout a offset contents = listingFrom layout b offset contents := by
  induction contents generalizing offset with
  | nil => rfl
  | cons c rest ih =>
    obtain ⟨hc, hrest⟩ := List.forall_mem_cons.mp h
    have hentries : c.entries layout a offset = c.entries layout b offset := by
      cases c with
      | label name => rfl
      | instruction mnemonic values => rw [entries, entries, hc]
    rw [listingFrom, listingFrom, hentries, ih hrest]

/-- Contents that find all their labels in the second table, and none in the first, see the second
rebased. -/
theorem addressOf_append_right {words : UInt32} (h : Resolved layout t contents)
    (hnames : ∀ name, t.contains name = true → name ∉ s.names) {c : Content} (hc : c ∈ contents)
    {name : String} (hname : (c.code layout).label? = some name) :
    (s.append (t.rebase words)).addressOf name = t.addressOf name + words := by
  have hcontains := h name (List.mem_filterMap.mpr ⟨c, hc, hname⟩)
  exact LabelTable.addressOf_append_rebase (hnames name hcontains) hcontains

end Content

namespace Program

@[simp] theorem contents_append (p q : Program) :
    (p.append q).contents = p.contents ++ q.contents := List.map_append

end Program

namespace Content

variable {layout : Layout} {p q : Program} {words : Nat}
  (hwords : extent layout p.contents = 4 * words)
  (hlabels : ∀ name, label name ∈ p.contents → label name ∉ q.contents)

include hwords hlabels

theorem labels_append_of_disjoint :
    labels layout (p.append q).contents = (labels layout p.contents).append
      ((labels layout q.contents).rebase (UInt32.ofNat words)) := by
  rw [Program.contents_append]
  apply labels_append hwords
  intro name hq hname
  exact hlabels name (contains_labels_iff.mp ((LabelTable.contains_iff _ _).mpr hname)) hq

theorem resolved_append (hp : Resolved layout (labels layout p.contents) p.contents)
    (hq : Resolved layout (labels layout q.contents) q.contents) :
    Resolved layout (labels layout (p.append q).contents) (p.append q).contents := by
  intro name hname
  rw [labels_append_of_disjoint hwords hlabels, LabelTable.contains_append,
    LabelTable.contains_rebase, Bool.or_eq_true]
  rw [Program.contents_append, List.filterMap_append, List.mem_append] at hname
  exact hname.imp (hp name) (hq name)

/-- The image of two programs together is the image of the first and, behind it, the rebased image
of the second. -/
theorem image_append (hencodable : ∀ c ∈ q.contents, c.Encodable)
    (hp : Resolved layout (labels layout p.contents) p.contents)
    (hq : Resolved layout (labels layout q.contents) q.contents) :
    image layout (p.append q).contents =
      (image layout p.contents).append ((image layout q.contents).rebase layout words q) := by
  have htable := labels_append_of_disjoint hwords hlabels
  have hfirst : ∀ c ∈ p.contents,
      c.bytes layout (labels layout (p.append q).contents).addressOf =
        c.bytes layout (labels layout p.contents).addressOf := by
    intro c hc
    rw [htable]
    exact bytes_append_left hp hc
  have hnames : ∀ name, (labels layout q.contents).contains name = true →
      name ∉ (labels layout p.contents).names := by
    intro name hname hmem
    exact hlabels name (contains_labels_iff.mp ((LabelTable.contains_iff _ _).mpr hmem))
      (contains_labels_iff.mp hname)
  have hsecond : ∀ d ∈ q.declarations, ∀ name, (d.content.code layout).label? = some name →
      (labels layout (p.append q).contents).addressOf name =
        (labels layout q.contents).addressOf name + UInt32.ofNat words := by
    intro d hd name hname
    rw [htable]
    exact addressOf_append_right hq hnames (List.mem_map_of_mem hd) hname
  have hdeclarations := List.forall_mem_map.mp hencodable
  simp only [image, Image.append, Image.rebase, Image.mk.injEq]
  refine ⟨?_, htable, ?_⟩
  · generalize (labels layout (p.append q).contents).addressOf = addressOf at hfirst hsecond ⊢
    rw [Program.contents_append, List.flatMap_append, List.flatMap_congr hfirst]
    exact congrArg _ (Instruction.rebaseAll_flatMap_bytes hdeclarations hsecond).symm
  · generalize (labels layout (p.append q).contents).addressOf = addressOf at hfirst hsecond ⊢
    rw [Program.contents_append, listingFrom_append, listingFrom_congr hfirst, hwords,
      Nat.add_comm 0]
    exact congrArg _ (Instruction.zipWith_rebase_listingFrom hdeclarations hsecond 0).symm

end Content

/-- Two programs without a common label are assembled apart and put together: if the image of the
first ends with a whole word, as it always does in the aligned layout, the image of both is that of
the first and, behind it, that of the second with the words, addresses and offsets that depend on
its place moved by the size of the first. -/
theorem Image.ofProgram_append {layout : Layout} {p q : Program} {a b : Image}
    (hp : Image.ofProgram layout p = .ok a) (hq : Image.ofProgram layout q = .ok b)
    (hlabels : ∀ name, .label name ∈ p.contents → .label name ∉ q.contents) :
    (layout = .aligned → a.bytes.length % 4 = 0) ∧
      (a.bytes.length % 4 = 0 →
        Image.ofProgram layout (p.append q) =
          .ok (a.append (b.rebase layout (a.bytes.length / 4) q))) := by
  obtain ⟨hpencodable, hpresolved, rfl⟩ := Image.ofProgram_eq_ok_iff.mp hp
  obtain ⟨hqencodable, hqresolved, rfl⟩ := Image.ofProgram_eq_ok_iff.mp hq
  have hlength : (Content.image layout p.contents).bytes.length =
      Content.extent layout p.contents := Content.length_flatMap_bytes layout _ hpencodable
  rw [hlength]
  constructor
  · rintro rfl
    exact Content.extent_aligned_mod_four p.contents
  · intro hwhole
    have hwords : Content.extent layout p.contents =
        4 * (Content.extent layout p.contents / 4) := by omega
    refine Image.ofProgram_eq_ok_iff.mpr ⟨?_, ?_, ?_⟩
    · intro c hc
      rw [Program.contents_append, List.mem_append] at hc
      exact hc.elim (hpencodable c) (hqencodable c)
    · exact Content.resolved_append hwords hlabels hpresolved hqresolved
    · exact (Content.image_append hwords hlabels hqencodable hpresolved hqresolved).symm

/-- A program whose image has whole words although its first instructions do not. -/
def Program.withWholeWords : Program :=
  let here : Location := ⟨"", .start⟩
  ⟨.label "start" here :: List.replicate 4 (.instruction ⟨"NOP", [], here⟩) ++
    [.instruction ⟨"JMP", [⟨.label "start", here⟩], here⟩]⟩

/-- The labels of the second program lie seven words further on behind the first. -/
theorem Image.ofProgram_append_withForwardLabel :
    ∃ a b image, Image.ofProgram .legacy .withWholeWords = .ok a ∧
      Image.ofProgram .legacy .withForwardLabel = .ok b ∧ a.bytes.length = 28 ∧
      Image.ofProgram .legacy (Program.withWholeWords.append .withForwardLabel) = .ok image ∧
      image = a.append (b.rebase .legacy 7 .withForwardLabel) ∧
      b.labels.find? "a" = some 5 ∧ image.labels.find? "a" = some 12 ∧
      image.bytes.drop 28 = [0, 0, 0, 0, 0, 0, 0, 0x40, 2, 0, 0, 0, 10, 0, 0, 2, 2, 0, 0, 0, 12,
        0, 0, 0xFF, 0, 0] := by
  have hp : Image.ofProgram .legacy .withWholeWords =
      .ok (Content.image .legacy Program.withWholeWords.contents) := rfl
  have hq : Image.ofProgram .legacy .withForwardLabel =
      .ok (Content.image .legacy Program.withForwardLabel.contents) := rfl
  have hlabels : ∀ name, .label name ∈ Program.withWholeWords.contents →
      .label name ∉ Program.withForwardLabel.contents := by
    intro name hname
    obtain rfl : name = "start" := by
      simpa [Program.withWholeWords, Program.contents, Declaration.content] using hname
    decide
  obtain ⟨-, himage⟩ := Image.ofProgram_append hp hq hlabels
  exact ⟨_, _, _, hp, hq, rfl, himage rfl, rfl, rfl, rfl, rfl⟩

end FourVin
